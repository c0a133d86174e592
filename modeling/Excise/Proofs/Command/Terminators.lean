import Excise.Proofs.Command.Originals
import Excise.Proofs.Edit.Conservation

/-!
# What is written to a file

A source is read with each line terminator as a line feed, and what is written comes of the text as
it was read. So the edits of a plan are carried out on the bytes of the file only if it has no
carriage return (`strip_edits_read_text`); where it has one, lines that no edit touches change too
(`carriage_return_lost`).
-/

namespace Excise

namespace Command

open CommandAction
open Store (IsWritten)

variable {s after : Session} {home location : Location} {options : StripOptions}
  {changed : List Processed} {fs fs' : FileSystem} {work : List (Path × Bytes)} {disk : Disk}
  {reader : SettingsReader}

/-- Overwriting a file without a store writes what the disk leaves of what was to be written, if
anything. -/
theorem overwrite_written {p : Processed} {old : Bytes} {r : Except Stop Bool}
    (hfs : fs.WellFormed) (hnow : s.host.files.WellFormed)
    (hkept : fs.KeepsDirectories s.host.files) (hread : fs.read p.path = .ok old)
    (hwork : p.toWrite ∈ work) (hwritten : IsWritten disk fs s.host.files work location)
    (h : (overwrite none p disk).run s = (r, after)) :
    after.host.files.WellFormed ∧ fs.KeepsDirectories after.host.files ∧
      IsWritten disk fs after.host.files work location := by
  obtain ⟨result, backed, hbackup, hend⟩ := overwrite_cases h
  obtain ⟨-, rfl⟩ := Prod.mk.inj hbackup
  rcases hend with hsame | ⟨-, left, files, hleft, hwrite, hsame⟩
  · rw [hsame]
    exact ⟨hnow, hkept, hwritten⟩
  obtain ⟨l, hlocate, hfile⟩ := FileSystem.read_eq_ok_iff.mp hread
  obtain rfl := FileSystem.locate_eq_place hlocate
  obtain ⟨hfiles, hchanges, hnew⟩ :=
    FileSystem.write_changes hnow (fun _ => hfs.is_plain hlocate hfile) hwrite
  rw [FileSystem.place_eq hkept.workingDirectory] at hchanges hnew
  rw [hsame]
  refine ⟨hfiles, hkept.trans hchanges.toKeepsDirectories, ?_⟩
  by_cases hlocation : location = fs.place p.path
  · exact .inr ⟨_, hwork, hlocation.symm, left, hleft, hlocation ▸ hnew⟩
  · unfold IsWritten at hwritten ⊢
    rw [hchanges.same hlocation fun hl => hl]
    exact hwritten

/-- Files are overwritten without a store: each is as it was, or has what the disk left of what was
to be written. The induction is on the files. -/
theorem overwrite_all_written {r : Except Stop Bool} (hfs : fs.WellFormed)
    (hnow : s.host.files.WellFormed) (hkept : fs.KeepsDirectories s.host.files)
    (hread : ∀ p ∈ changed, ∃ old, fs.read p.path = .ok old)
    (hwork : ∀ p ∈ changed, p.toWrite ∈ work)
    (hwritten : IsWritten disk fs s.host.files work location)
    (h : (overwriteAll none changed disk).run s = (r, after)) :
    IsWritten disk fs after.host.files work location := by
  induction changed generalizing s r with
  | nil =>
      obtain ⟨-, rfl⟩ := Prod.mk.inj h
      exact hwritten
  | cons p rest ih =>
      obtain ⟨outcome, middle, hone, hrest⟩ := overwrite_all_cases h
      obtain ⟨old, hold⟩ := hread p List.mem_cons_self
      obtain ⟨hmiddle, hmiddleKept, hmiddleWritten⟩ :=
        overwrite_written hfs hnow hkept hold (hwork p List.mem_cons_self) hwritten hone
      rcases hrest with rfl | ⟨r', hothers⟩
      · exact hmiddleWritten
      · exact ih hmiddle hmiddleKept (fun q hq => hread q (List.mem_cons_of_mem _ hq))
          (fun q hq => hwork q (List.mem_cons_of_mem _ hq)) hmiddleWritten hothers

/-- Whatever `strip` ends with, a file that it may write is as it was or has what the disk left of
what became of a source. -/
theorem strip_written {grammar : Grammar} {verbose : Bool} {old : Bytes} {r : Except Stop Unit}
    (hfs : s.host.files.WellFormed)
    (hbackups : options.noBackup = true ∨ ¬ home <+: location ∧
      s.host.files.place after.backupPath = home ∧
      Store.HasFreshIds home after.backupPath s.host after.host.idsMade ∧
      disk.Reads (Store.ledgerPath ⟨after.backupPath⟩))
    (hold : s.host.files.get? location = some (.file old))
    (h : (strip grammar reader options verbose disk).run s = (r, after)) :
    ∃ work, IsWorkOf grammar options.target s.host.files disk
        (s.host.files.sourceFiles options.paths after.backupPath) work ∧
      IsWritten disk s.host.files after.host.files work location := by
  cases hnoBackup : options.noBackup with
  | false =>
      rw [hnoBackup] at hbackups
      obtain ⟨hlocation, hhome, hids, hreads⟩ := hbackups.resolve_left nofun
      obtain ⟨work, added, hwork, hsaved, -⟩ := strip_saves hfs hnoBackup hhome hids hreads h
      exact ⟨work, hwork, hsaved.written location old hlocation hold⟩
  | true =>
      have hsame : after.host = s.host → ∃ work, IsWorkOf grammar options.target s.host.files disk
          (s.host.files.sourceFiles options.paths after.backupPath) work ∧
          IsWritten disk s.host.files after.host.files work location := by
        intro hhost
        exact ⟨[], fun w hw => absurd hw List.not_mem_nil, .inl (by rw [hhost])⟩
      obtain hhost | ⟨target, start, reading, hstart, -, hnamed, hprocessed, hcarry⟩ :=
        strip_cases h
      · exact hsame hhost
      rcases carry_out_cases hcarry with hstanding | ⟨-, -, -, asked, hasked, hend⟩
      · exact hsame ((standing_eq_iff.mp hstanding).1.trans hstart)
      have hhost : asked.host = s.host := (standing_eq_iff.mp hasked).1.trans hstart
      rcases hend with ⟨stop, hopen⟩ | ⟨store, ready, outcome, hopen, hwrite⟩
      · obtain ⟨-, hr, -⟩ | ⟨hno, -⟩ := open_store_cases hopen
        · exact nomatch hr
        · rw [hnoBackup] at hno
          exact nomatch hno
      · obtain ⟨-, hr, rfl⟩ | ⟨hno, -⟩ := open_store_cases hopen
        · obtain rfl := Except.ok.inj hr
          have hpath : after.backupPath = start.backupPath := by
            rw [Session.backupPath, Session.backupPath, carry_out_settings hcarry]
          rw [← hpath] at hprocessed
          have hread : AreWork [] s.host.files _ :=
            are_work_of_processed hfs fun p hp => (hprocessed p hp).2
          refine ⟨_, is_work_of_processed hnamed hprocessed, ?_⟩
          rw [← hhost] at hfs hread ⊢
          exact overwrite_all_written hfs hfs (.refl _) (fun p hp => (hread p hp).1)
            (fun p hp => List.mem_map_of_mem hp) (.inl rfl) hwrite
        · rw [hnoBackup] at hno
          exact nomatch hno

/-- No carriage return is left where line terminators are read as line feeds. -/
theorem not_mem_unify_newlines (cs : List Char) : '\r' ∉ Text.unifyNewlineChars cs := by
  induction cs using Text.unifyNewlineChars.induct with
  | case1 => exact List.not_mem_nil
  | case2 rest ih =>
      rw [Text.unifyNewlineChars, List.mem_cons, not_or]
      exact ⟨by decide, ih⟩
  | case3 c rest hpair ih =>
      rw [Text.unifyNewlineChars]
      · rw [List.mem_cons, not_or]
        refine ⟨?_, ih⟩
        split
        · decide
        · rename_i hne
          exact fun h => hne h.symm
      · exact hpair

/-- Reading line terminators as line feeds changes a text exactly if it has a carriage return. -/
theorem unify_newlines_eq_iff (text : String) :
    Text.unifyNewlines text = text ↔ '\r' ∉ text.toList := by
  refine ⟨fun h => ?_, Text.unify_newlines_of_none⟩
  rw [← h, Text.unifyNewlines, String.toList_ofList]
  exact not_mem_unify_newlines _

theorem of_text_of_decode {bytes : Bytes} {text : String} (h : Bytes.decode bytes = .ok text) :
    Bytes.ofText text = bytes := by
  unfold Bytes.decode at h
  cases htext : Bytes.text? bytes with
  | none =>
      rw [htext] at h
      exact nomatch h
  | some other =>
      rw [htext] at h
      obtain rfl := Except.ok.inj h
      exact Bytes.ofText_of_text? htext

/-- What comes of a source that is changed is what its plan leaves of the text as it was read. -/
theorem code_of_changed {grammar : Grammar} {target : Target} {path : Path} {p : Processed}
    (h : processFile grammar target fs path disk = .ok p) (hchanged : p.result.changed = true) :
    ∃ old text language, fs.read path = .ok old ∧ Bytes.decode old = .ok text ∧
      Language.ofPath? path = some language ∧
      p.result.code = Bytes.text ((Analysis.run (grammar language
        (Bytes.ofText (Text.unifyNewlines text))).tree target.name).plan.apply
          (grammar language (Bytes.ofText (Text.unifyNewlines text))).tree).source := by
  obtain ⟨old, source, hread, hsource, hp⟩ := process_file_cases h
  have hresult : p.result = transformFile grammar target path source := by rw [hp]
  rw [hresult] at hchanged ⊢
  cases hdecode : Bytes.decode old with
  | error fault =>
      rw [sourceText, hdecode] at hsource
      exact nomatch hsource
  | ok text =>
      rw [sourceText, hdecode] at hsource
      obtain rfl := Except.ok.inj hsource
      unfold transformFile at hchanged ⊢
      cases hlanguage : Language.ofPath? path with
      | none =>
          rw [hlanguage] at hchanged
          exact nomatch hchanged
      | some language =>
          rw [hlanguage] at hchanged
          refine ⟨old, text, language, hread, hdecode, rfl, ?_⟩
          simp only [transform, transformParsed] at hchanged ⊢
          split at hchanged
          · exact nomatch hchanged
          · rename_i hclean
            rw [if_neg hclean]
            unfold Transformed.ofAnalysis at hchanged ⊢
            dsimp only at hchanged ⊢
            split at hchanged
            · exact nomatch hchanged
            · rename_i hplan
              rw [if_neg hplan]

/-- What `strip` writes to a file is the text of the file, as it was read, with the edits of its
plan carried out. Reading gives the bytes of the file exactly if there is no carriage return in
it. -/
theorem strip_edits_read_text {grammar : Grammar} {verbose : Bool} {old new : Bytes}
    {r : Except Stop Unit} (hfs : s.host.files.WellFormed)
    (hsource : ∀ language bytes, (grammar language bytes).tree.source = bytes)
    (hbackups : options.noBackup = true ∨
      ¬ s.host.files.place after.backupPath <+: location ∧
        Store.HasFreshIds (s.host.files.place after.backupPath) after.backupPath s.host
          after.host.idsMade)
    (hold : s.host.files.get? location = some (.file old))
    (h : (strip grammar reader options verbose).run s = (r, after))
    (hnew : after.host.files.get? location = some (.file new)) (hchanged : new ≠ old) :
    ∃ (target : Target) (path : Path) (language : Language) (text : String) (read : Bytes)
      (edits : List Edit),
      (∀ name, options.target = some name → target.name = name) ∧
      s.host.files.locate path = .ok location ∧ Language.ofPath? path = some language ∧
      Bytes.decode old = .ok text ∧ read = Bytes.ofText (Text.unifyNewlines text) ∧
      edits = (Analysis.run (grammar language read).tree target.name).plan.keptEdits
        (grammar language read).tree ∧
      (Bytes.text? (spliceAll read edits) ≠ none → new = spliceAll read edits) ∧
      (read = old ↔ '\r' ∉ text.toList) := by
  obtain ⟨work, hwork, hwritten⟩ :=
    strip_written hfs (hbackups.imp_right fun h => ⟨h.1, rfl, h.2, Disk.reads_reliable _⟩) hold h
  rcases hwritten with hsame | ⟨w, hw, hplace, left, hleft, hnow⟩
  · rw [hsame, hold] at hnew
    exact absurd (Content.file.inj (Option.some.inj hnew)).symm hchanged
  obtain rfl := hleft.eq_of_reliable
  obtain ⟨target, p, rfl, -, hnamed, hprocess, hresult⟩ := hwork w hw
  obtain ⟨old', text, language, hread, hdecode, hlanguage, hcode⟩ :=
    code_of_changed hprocess hresult
  -- The path of the source led to the file.
  obtain ⟨l, hlocate, hfile⟩ := FileSystem.read_eq_ok_iff.mp hread
  obtain rfl : l = location := (FileSystem.locate_eq_place hlocate).trans hplace
  obtain rfl : old' = old := by
    rw [hold] at hfile
    exact (Content.file.inj (Option.some.inj hfile)).symm
  obtain rfl : Bytes.ofText p.result.code = new := by
    rw [hnow] at hnew
    exact Content.file.inj (Option.some.inj hnew)
  refine ⟨target, p.path, language, text, _, _, hnamed, hlocate, hlanguage, hdecode, rfl, rfl,
    fun hvalid => ?_, ?_⟩
  · obtain ⟨code, hvalid⟩ := Option.ne_none_iff_exists'.mp hvalid
    rw [hcode, Plan.apply]
    simp only [hsource]
    rw [← Plan.keptEdits, Bytes.text, hvalid]
    exact Bytes.ofText_of_text? hvalid
  · rw [← unify_newlines_eq_iff, ← of_text_of_decode hdecode]
    exact ⟨fun heq => by simpa using congrArg Bytes.text? heq, congrArg Bytes.ofText⟩

/-- The program `f()` and `require("debug")` on two lines that end in a carriage return and a line
feed. -/
def returnedCalls : Tree :=
  (Tree.ofRows? (Bytes.ofText "f()\r\nrequire(\"debug\")")
    #[⟨0, true, "program", 0, 21, none⟩,
      ⟨1, true, "expression_statement", 0, 3, none⟩,
      ⟨2, true, "call_expression", 0, 3, none⟩,
      ⟨3, true, "identifier", 0, 1, some "function"⟩,
      ⟨3, true, "arguments", 1, 3, some "arguments"⟩,
      ⟨1, true, "expression_statement", 5, 21, none⟩,
      ⟨2, true, "call_expression", 5, 21, none⟩,
      ⟨3, true, "identifier", 5, 12, some "function"⟩,
      ⟨3, true, "arguments", 12, 21, some "arguments"⟩,
      ⟨4, true, "string", 13, 20, none⟩,
      ⟨5, true, "string_fragment", 14, 19, none⟩]).get (by decide +kernel)

/-- A parser that knows both programs. -/
def callsGrammar : Grammar :=
  fun language bytes =>
    if bytes = returnedCalls.source then ⟨returnedCalls, false⟩ else twoCallsGrammar language bytes

/-- Where the lines end in line feeds, the edits are carried out on the bytes of the file. -/
theorem line_feed_kept :
    ((strip callsGrammar .plainLines (rewriteOptions true) false).run
        (oneFileSession "f()\nrequire(\"debug\")")).2.host.files.get? ["a.js"] =
      some (.file (spliceAll (Bytes.ofText "f()\nrequire(\"debug\")")
        ((Analysis.run twoCalls "debug").plan.keptEdits twoCalls))) := by
  rcases hrun : (strip callsGrammar .plainLines (rewriteOptions true) false).run
    (oneFileSession "f()\nrequire(\"debug\")") with ⟨r, after⟩
  have hnew : ((strip callsGrammar .plainLines (rewriteOptions true) false).run
      (oneFileSession "f()\nrequire(\"debug\")")).2.host.files.get? ["a.js"] =
        some (.file (Bytes.ofText "f()\n")) := by
    decide +kernel
  rw [hrun] at hnew
  have hsource : ∀ language bytes, (callsGrammar language bytes).tree.source = bytes := by
    intro language bytes
    unfold callsGrammar twoCallsGrammar
    split
    · exact (‹bytes = _›).symm
    · split
      · exact (‹bytes = twoCalls.source›).symm
      · rfl
  obtain ⟨target, path, language, text, read, edits, hname, -, -, hdecode, rfl, rfl, hedits, -⟩ :=
    strip_edits_read_text (one_file_session_well_formed _) hsource (.inl rfl)
      (one_file_session_file _) hrun hnew (by decide)
  have hread : Bytes.decode (Bytes.ofText "f()\nrequire(\"debug\")") =
      .ok "f()\nrequire(\"debug\")" := by
    rw [Bytes.decode, Bytes.text?_ofText]
  obtain rfl := Except.ok.inj (hread.symm.trans hdecode)
  have hlines : Text.unifyNewlines "f()\nrequire(\"debug\")" = "f()\nrequire(\"debug\")" := by
    decide +kernel
  have htree :
      (callsGrammar language (Bytes.ofText "f()\nrequire(\"debug\")")).tree = twoCalls := by
    unfold callsGrammar twoCallsGrammar
    rw [if_neg (by decide +kernel), if_pos (by decide +kernel)]
  rw [hlines, htree, hname "debug" rfl] at hedits
  exact hnew.trans (congrArg (some ∘ Content.file) (hedits (by decide +kernel)))

/-- Where they end in carriage returns too, these go, though the edits would leave them. -/
theorem carriage_return_lost :
    ((strip callsGrammar .plainLines (rewriteOptions true) false).run
        (oneFileSession "f()\r\nrequire(\"debug\")")).2.host.files.get? ["a.js"] =
      some (.file (Bytes.ofText "f()\n")) ∧
    ((Analysis.run returnedCalls "debug").plan.apply returnedCalls).source =
      Bytes.ofText "f()\r\n" := by
  decide +kernel

end Command

end Excise
