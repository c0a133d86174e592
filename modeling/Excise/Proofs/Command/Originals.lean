import Excise.Program.SettingsLines
import Excise.Proofs.Command.Overwriting

/-!
# Originals are kept

`strip_keeps_originals`: whatever a run of `strip` ends with and whatever the disk stops, a file
outside the backup directory that the run changed was backed up in this run, and the backup holds
what the file held before. For this the ids of the backups have to be new: where two have one id,
the second copy takes the place of the first one (`Store.copy_overwritten`), and an original is lost
(`equal_ids_lose_original`). The manifest has to be readable as well, since one that is not loses
its records (`Store.add_record_unread`). A dry run, a check and a run without confirmation change
nothing.
-/

namespace Excise

namespace Command

open CommandAction

variable {s after : Session} {home : Location} {options : StripOptions} {disk : Disk}
  {reader : SettingsReader}

/-- Without a confirmed run that writes, the files stay. -/
theorem strip_changes_nothing {grammar : Grammar} {verbose : Bool} {r : Except Stop Unit}
    (h : (strip grammar reader options verbose disk).run s = (r, after))
    (hno : options.dryRun = true ∨ options.check = true ∨ ¬ IsConfirmed options s.input) :
    after.host = s.host := by
  obtain hhost | ⟨target, start, reading, hstart, hinput, -, -, hcarry⟩ := strip_cases h
  · exact hhost
  rcases carry_out_cases hcarry with hstanding | ⟨hdry, hcheck, hconfirmed, -⟩
  · exact (standing_eq_iff.mp hstanding).1.trans hstart
  · rw [hdry, hcheck, ← hinput] at hno
    rcases hno with h | h | h
    · exact nomatch h
    · exact nomatch h
    · exact absurd hconfirmed h

/-- Stripping never destroys an original if the ids of its backups are new and the manifest can be
read. Whatever else the disk refuses or stops and whatever the run ends with, a file outside the
backup directory that does not hold what it held before has a record that the run added: under the
path of its location, not restored, with the digest of what the file held, and with a copy of just
that. Nothing changes in a dry run, for a check, or without confirmation. -/
theorem strip_keeps_originals {grammar : Grammar} {verbose : Bool} {r : Except Stop Unit}
    (hfs : s.host.files.WellFormed) (hhome : s.host.files.place after.backupPath = home)
    (h : (strip grammar reader options verbose disk).run s = (r, after)) :
    (options.noBackup = false →
      Store.HasFreshIds home after.backupPath s.host after.host.idsMade →
      disk.Reads (Store.ledgerPath ⟨after.backupPath⟩) →
      ∀ location bytes, ¬ home <+: location →
        s.host.files.get? location = some (.file bytes) →
        after.host.files.get? location ≠ some (.file bytes) →
        ∃ (records : List Json) (added : List Ledger.Backup) (b : Ledger.Backup),
          Store.recordsAt s.host.files home = .ok records ∧
          Store.recordsAt after.host.files home =
            .ok (records.map Json.reread^[added.length] ++ added.map Ledger.Backup.record) ∧
          b ∈ added ∧ b.originalPath = Path.text ⟨.absolute, location⟩ ∧
          after.host.files.read (Path.ofText b.copyPath) = .ok bytes ∧
          b.fileHash = Digest.sha256Hex bytes) ∧
    (options.dryRun = true ∨ options.check = true ∨ ¬ IsConfirmed options s.input →
      after.host.files = s.host.files) := by
  refine ⟨fun hbackups hids hreads location bytes hlocation hfile hchanged => ?_,
    fun hno => congrArg Host.files (strip_changes_nothing h hno)⟩
  obtain ⟨work, added, -, hsaved, hrecords⟩ := strip_saves hfs hbackups hhome hids hreads h
  have hkept := hsaved.saved location bytes hlocation hfile
  unfold Store.IsSaved at hkept
  cases hfind : added.find? fun b => Store.IsOf location b with
  | none =>
      rw [hfind] at hkept
      exact absurd hkept hchanged
  | some b =>
      rw [hfind] at hkept
      obtain ⟨name, hstored⟩ := hkept
      have hb := List.mem_of_find?_eq_some hfind
      have hof : Store.IsOf location b := by simpa using List.find?_some hfind
      have hsome : added ≠ [] := List.ne_nil_of_mem hb
      obtain ⟨records, hbefore, hafter⟩ := hrecords.resolve_left fun h => hsome h.1
      exact ⟨records, added, b, hbefore, hafter, hb, hof,
        hstored.read (hsaved.stands.resolve_left hsome), hstored.hash⟩

/-- The program `f()` and `require("debug")` on two lines. -/
def twoCalls : Tree :=
  (Tree.ofRows? (Bytes.ofText "f()\nrequire(\"debug\")")
    #[⟨0, true, "program", 0, 20, none⟩,
      ⟨1, true, "expression_statement", 0, 3, none⟩,
      ⟨2, true, "call_expression", 0, 3, none⟩,
      ⟨3, true, "identifier", 0, 1, some "function"⟩,
      ⟨3, true, "arguments", 1, 3, some "arguments"⟩,
      ⟨1, true, "expression_statement", 4, 20, none⟩,
      ⟨2, true, "call_expression", 4, 20, none⟩,
      ⟨3, true, "identifier", 4, 11, some "function"⟩,
      ⟨3, true, "arguments", 11, 20, some "arguments"⟩,
      ⟨4, true, "string", 12, 19, none⟩,
      ⟨5, true, "string_fragment", 13, 18, none⟩]).get (by decide +kernel)

/-- A parser that knows this program alone. -/
def twoCallsGrammar : Grammar :=
  fun _ bytes => if bytes = twoCalls.source then ⟨twoCalls, false⟩ else ⟨Tree.bare bytes, true⟩

/-- A session with a file `a.js`, which has a text. -/
def oneFileSession (text : String) : Session where
  host := ⟨FileSystem.put ⟨[], []⟩ ["a.js"] (.file (Bytes.ofText text)), fun _ => "b0",
    fun _ => "", 0, 0⟩
  settings := ⟨[], none, 0⟩
  input := ""
  printed := []

/-- Rewrite `a.js` without asking. -/
def rewriteOptions (noBackup : Bool) : StripOptions :=
  ⟨[Path.ofText "a.js"], some "debug", false, false, false, noBackup, true⟩

theorem one_file_session_well_formed (text : String) :
    (oneFileSession text).host.files.WellFormed :=
  @FileSystem.WellFormed.put ⟨[], []⟩ [] "a.js" _ FileSystem.well_formed_bare (by decide) rfl
    (by decide)

theorem one_file_session_file (text : String) : (oneFileSession text).host.files.get? ["a.js"] =
    some (.file (Bytes.ofText text)) := rfl

/-- A disk that stops the writing of `a.js` after two bytes. -/
def stoppingDisk : Disk where
  refusal? _ _ := none
  stoppage? _ change :=
    match change with
    | .write path _ =>
        if path = Path.ofText "a.js" then some ⟨⟨.notFound, "a.js", none⟩, some 2⟩ else none
    | _ => none

/-- Two bytes of the new `a.js` are written, and the whole program is backed up. -/
theorem half_written_file_backed_up :
    ∃ (r : Except Stop Unit) (after : Session) (records : List Json) (added : List Ledger.Backup)
      (b : Ledger.Backup),
      (strip twoCallsGrammar .plainLines (rewriteOptions false) false stoppingDisk).run
        (oneFileSession "f()\nrequire(\"debug\")") = (r, after) ∧
      after.host.files.get? ["a.js"] = some (.file (Bytes.ofText "f(")) ∧
      Store.recordsAt after.host.files [".undebug_backup"] =
        .ok (records.map Json.reread^[added.length] ++ added.map Ledger.Backup.record) ∧
      b ∈ added ∧ b.originalPath = "/a.js" ∧
      after.host.files.read (Path.ofText b.copyPath) =
        .ok (Bytes.ofText "f()\nrequire(\"debug\")") := by
  rcases hrun : (strip twoCallsGrammar .plainLines (rewriteOptions false) false stoppingDisk).run
    (oneFileSession "f()\nrequire(\"debug\")") with ⟨r, after⟩
  have hends : ((strip twoCallsGrammar .plainLines (rewriteOptions false) false stoppingDisk).run
      (oneFileSession "f()\nrequire(\"debug\")")).2.host.files.get? ["a.js"] =
        some (.file (Bytes.ofText "f(")) ∧
      ((strip twoCallsGrammar .plainLines (rewriteOptions false) false stoppingDisk).run
        (oneFileSession "f()\nrequire(\"debug\")")).2.host.idsMade = 1 ∧
      ((strip twoCallsGrammar .plainLines (rewriteOptions false) false stoppingDisk).run
        (oneFileSession "f()\nrequire(\"debug\")")).2.backupPath =
          Path.ofText ".undebug_backup" := by
    decide +kernel
  rw [hrun] at hends
  obtain ⟨hfile, hmade, hpath⟩ := hends
  dsimp only at hfile hmade hpath
  have hids : Store.HasFreshIds [".undebug_backup"] after.backupPath
      (oneFileSession "f()\nrequire(\"debug\")").host after.host.idsMade := by
    rw [hmade, hpath]
    refine ⟨fun n _ hlast => ?_, fun n _ hlast hway => ?_, fun m n _ hlt hlast => by omega⟩
    · obtain rfl := Nat.lt_one_iff.mp hlast
      exact ⟨by decide, by decide, by decide, rfl⟩
    · obtain rfl := Nat.lt_one_iff.mp hlast
      exact absurd (hway.prefix_place (by decide)) (by decide)
  have hhome : (oneFileSession "f()\nrequire(\"debug\")").host.files.place after.backupPath =
      [".undebug_backup"] := by
    rw [hpath]
    decide
  obtain ⟨hbackedUp, -⟩ := strip_keeps_originals (one_file_session_well_formed _) hhome hrun
  obtain ⟨records, added, b, -, hafter, hb, horiginal, hcopy, -⟩ :=
    hbackedUp rfl hids (fun _ => rfl) ["a.js"] _ (by decide) rfl (by rw [hfile]; decide +kernel)
  exact ⟨r, after, records, added, b, rfl, hfile, hafter, hb, horiginal, hcopy⟩

/-- The program `require("debug")`. -/
def oneCall : Tree :=
  (Tree.ofRows? (Bytes.ofText "require(\"debug\")")
    #[⟨0, true, "program", 0, 16, none⟩,
      ⟨1, true, "expression_statement", 0, 16, none⟩,
      ⟨2, true, "call_expression", 0, 16, none⟩,
      ⟨3, true, "identifier", 0, 7, some "function"⟩,
      ⟨3, true, "arguments", 7, 16, some "arguments"⟩,
      ⟨4, true, "string", 8, 15, none⟩,
      ⟨5, true, "string_fragment", 9, 14, none⟩]).get (by decide +kernel)

/-- Two files of one name, with the program of two calls and that of one. -/
def namesakeFiles : FileSystem :=
  ((((⟨[], []⟩ : FileSystem).put ["x"] .directory).put ["x", "index.js"]
    (.file twoCalls.source)).put ["y"] .directory).put ["y", "index.js"] (.file oneCall.source)

/-- A parser that knows both programs. -/
def namesakesGrammar : Grammar :=
  fun language bytes =>
    if bytes = oneCall.source then ⟨oneCall, false⟩ else twoCallsGrammar language bytes

/-- A session with both files, in which some configurations were made. The backups get the given
ids. -/
def namesakesSession (newId : Nat → String) (made : Nat) : Session :=
  ⟨⟨namesakeFiles, newId, fun _ => "", 0, 0⟩, ⟨[], none, made⟩, "", []⟩

/-- Rewrite both files without asking. -/
def namesakesOptions : StripOptions :=
  ⟨[Path.ofText "x/index.js", Path.ofText "y/index.js"], some "debug", false, false, false, false,
    true⟩

/-- The two files are the sources. -/
theorem namesake_sources :
    namesakeFiles.sourceFiles namesakesOptions.paths (Path.ofText ".undebug_backup") =
      [Path.ofText "x/index.js", Path.ofText "y/index.js"] := by
  rw [FileSystem.sourceFiles, List.mergeSort_of_pairwise (by decide +kernel)]
  decide +kernel

theorem debug_not_blank : ¬ Text.IsBlank "debug" := by decide +kernel

/-- Whatever the ids and the disk, the two files are stripped in their order. -/
theorem run_namesakes (newId : Nat → String) (disk : Disk) :
    (strip namesakesGrammar .plainLines namesakesOptions false disk).run
        (namesakesSession newId 0) =
      (stripSources namesakesGrammar ⟨"debug", debug_not_blank⟩ namesakesOptions false
        (Path.ofText ".undebug_backup") [Path.ofText "x/index.js", Path.ofText "y/index.js"]
        disk).run (namesakesSession newId 1) := by
  have hadditions : SettingsReader.plainLines.ofPath [] namesakeFiles
      (Path.ofText Settings.standardFile) = .ok [] := by decide +kernel
  have hload : (loadTarget .plainLines namesakesOptions.target).run (namesakesSession newId 0) =
      (.ok ⟨"debug", debug_not_blank⟩, namesakesSession newId 1) :=
    run_load_target debug_not_blank hadditions rfl
  have hthere : ∀ path ∈ namesakesOptions.paths, namesakeFiles.look path = .ok true := by
    decide +kernel
  have hmissing : (firstMissing? namesakesOptions.paths).run (namesakesSession newId 1) =
      (.ok none, namesakesSession newId 1) := run_first_missing hthere
  have hrun := @run_strip _ disk _ namesakesGrammar _ _ false _ _ hload hmissing
  rw [show (namesakesSession newId 1).backupPath = Path.ofText ".undebug_backup" from rfl,
    show (namesakesSession newId 1).host.files = namesakeFiles from rfl, namesake_sources] at hrun
  exact hrun

/-- A disk that fails once the copy of `y/index.js` is written. -/
def failingDisk : Disk where
  refusal? _ _ := none
  stoppage? _ change :=
    match change with
    | .copy source _ =>
        if source = Path.ofText "y/index.js" then
          some ⟨⟨.notFound, "y/index.js", none⟩, some oneCall.source.length⟩
        else none
    | _ => none

/-- Where the two backups get one id, the copy of the second file is written over that of the first,
which was rewritten by then: no file holds its original any more. -/
theorem equal_ids_lose_original :
    ∃ (r : Except Stop Unit) (after : Session),
      (strip namesakesGrammar .plainLines namesakesOptions false failingDisk).run
        (namesakesSession (fun _ => "b0") 0) = (r, after) ∧
      namesakeFiles.get? ["x", "index.js"] = some (.file twoCalls.source) ∧
      after.host.files.get? ["x", "index.js"] = some (.file (Bytes.ofText "f()\n")) ∧
      ∀ path, after.host.files.read path ≠ .ok twoCalls.source := by
  rcases hrun : (strip namesakesGrammar .plainLines namesakesOptions false failingDisk).run
    (namesakesSession (fun _ => "b0") 0) with ⟨r, after⟩
  have hends :
      ((strip namesakesGrammar .plainLines namesakesOptions false failingDisk).run
        (namesakesSession (fun _ => "b0") 0)).2.host.files.get? ["x", "index.js"] =
          some (.file (Bytes.ofText "f()\n")) ∧
      ∀ e ∈ ((strip namesakesGrammar .plainLines namesakesOptions false failingDisk).run
        (namesakesSession (fun _ => "b0") 0)).2.host.files.entries,
          e.2 ≠ .file twoCalls.source := by
    rw [run_namesakes]
    decide +kernel
  rw [hrun] at hends
  obtain ⟨hfile, hentries⟩ := hends
  refine ⟨r, after, rfl, by decide +kernel, hfile, fun path hread => ?_⟩
  exact hentries _ (FileSystem.mem_entries_of_file (FileSystem.get?_of_read hread)) rfl

end Command

end Excise
