import Excise.Program.SettingsLines
import Excise.Proofs.Command.Overwriting
import Excise.Proofs.Command.Restoring
import Mathlib.Logic.Relation

/-!
# Undoing several runs

`restore` without ids restores every backup that is pending, in the order in which they were taken.
So after any number of runs of `strip` each file has the content of its last backup
(`restore_brings_last_back`), which is what it held before the first run if it was backed up once.
-/

namespace Excise

namespace Command

open CommandAction
open Ledger (Backup BackupEntry)
open Store (IsStored IsReturnable IsUnderway IsSaved IsOf RecordsAdded HasFreshIds recordsAt)

variable {s after : Session} {store : Store} {home location : Location} {host : Host}
  {directory : Path} {fs now later : FileSystem} {backups added : List Backup}
  {work : List (Path × Bytes)} {bytes : Bytes} {disk : Disk} {reader : SettingsReader}

/-! ## Several runs -/

/-- A run of `strip` that keeps backups in a directory, whatever it is to do and ends with, and on
whatever disk that lets the manifest be read. Its sources lie outside the directory, and the ids of
its backups are new. -/
inductive StripRun (directory : Path) : FileSystem → FileSystem → Prop
  | strip {grammar : Grammar} {reader : SettingsReader} {options : StripOptions} {verbose : Bool}
      {disk : Disk} {s after : Session} {r : Except Stop Unit} (backups : options.noBackup = false)
      (path : after.backupPath = directory)
      (outside : ∀ source ∈ s.host.files.sourceFiles options.paths directory,
        ¬ s.host.files.place directory <+: s.host.files.place source)
      (ids : HasFreshIds (s.host.files.place directory) directory s.host after.host.idsMade)
      (reads : disk.Reads (Store.ledgerPath ⟨directory⟩))
      (run : (strip grammar reader options verbose disk).run s = (r, after)) :
      StripRun directory s.host.files after.host.files

/-- The store lists some backups, which can all be brought back. The first one of each file holds
what the file held at the start, and a file without one still does. -/
structure Accumulates (directory : Path) (home : Location) (fs now : FileSystem)
    (backups : List Backup) : Prop where
  wellFormed : now.WellFormed
  kept : fs.KeepsDirectories now
  stands : backups = [] ∨ Store.Stands ⟨directory⟩ home now
  records : recordsAt now home = .ok (backups.map Backup.record)
  distinct : (backups.map Backup.id).Nodup
  returnable : ∀ b ∈ backups, IsReturnable ⟨directory⟩ home now b
  saved : ∀ location bytes, ¬ home <+: location → fs.get? location = some (.file bytes) →
    IsSaved ⟨directory⟩ home now backups location bytes

/-- An empty store lists no backups. -/
theorem accumulates_none (hfs : fs.WellFormed) (hempty : recordsAt fs home = .ok []) :
    Accumulates directory home fs fs [] :=
  ⟨hfs, .refl fs, .inl rfl, hempty, List.nodup_nil, fun _ hb => absurd hb List.not_mem_nil,
    fun _ _ _ hfile => hfile⟩

/-- Backups that are added are listed after those that were there. -/
theorem records_of_added (hrecords : recordsAt now home = .ok (backups.map Backup.record))
    (h : RecordsAdded home now later added) :
    recordsAt later home = .ok ((backups ++ added).map Backup.record) := by
  rcases h with ⟨rfl, hsame⟩ | ⟨records, hbefore, hafter⟩
  · rw [hsame, hrecords, List.append_nil]
  · obtain rfl := Except.ok.inj (hrecords.symm.trans hbefore)
    have hreread : ∀ n, Json.reread^[n] ∘ Backup.record = Backup.record := by
      intro n
      funext b
      exact Function.iterate_fixed (BackupEntry.ofBackup b).reread_record n
    rw [hafter, List.map_map, hreread, List.map_append]

/-- A run keeps the copies that are stored, and each file outside the store is still one. -/
theorem kept_of_saved {before after : Host}
    (h : Store.Saved ⟨directory⟩ home disk work before after added)
    (houtside : ∀ w ∈ work, ¬ home <+: before.files.place w.1) :
    (∀ b name bytes, IsStored ⟨directory⟩ home before.files b name bytes →
      IsStored ⟨directory⟩ home after.files b name bytes) ∧
    ∀ location content, ¬ home <+: location → before.files.get? location = some (.file content) →
      ∃ content', after.files.get? location = some (.file content') := by
  refine ⟨fun b name bytes hstored => ?_, fun location content hlocation hfile => ?_⟩
  · exact { hstored with
      directory := h.kept.kept _ hstored.directory
      copy := h.others _ _ (Store.copy_ne_draft _ _ _) (Store.copy_ne_ledger _ _ _)
        (fun w hw hplace => houtside w hw (hplace ▸ List.prefix_append _ _)) hstored.copy }
  · rcases h.written location content hlocation hfile with hsame | ⟨w, -, -, left, -, hnow⟩
    · exact ⟨content, hsame.trans hfile⟩
    · exact ⟨left, hnow⟩

/-- What is saved stays so where more backups are added after the others. -/
theorem saved_append {before after : Host}
    (h : IsSaved ⟨directory⟩ home before.files backups location bytes)
    (hsaved : Store.Saved ⟨directory⟩ home disk work before after added)
    (houtside : ∀ w ∈ work, ¬ home <+: before.files.place w.1) (hlocation : ¬ home <+: location) :
    IsSaved ⟨directory⟩ home after.files (backups ++ added) location bytes := by
  unfold IsSaved at h ⊢
  rw [List.find?_append]
  cases hfind : backups.find? fun b => IsOf location b with
  | none =>
      rw [hfind] at h
      exact hsaved.saved location bytes hlocation h
  | some b =>
      rw [hfind] at h
      obtain ⟨name, hstored⟩ := h
      exact ⟨name, (kept_of_saved hsaved houtside).1 b name bytes hstored⟩

/-- A run adds its backups after those that were there. -/
theorem Accumulates.next (h : Accumulates directory home fs now backups)
    (hhome : now.place directory = home) (hrun : StripRun directory now later) :
    ∃ added, Accumulates directory home fs later (backups ++ added) := by
  cases hrun with
  | @strip grammar reader options verbose disk before after r hbackups hpath hsources hids hreads
      hrun =>
  subst hpath hhome
  obtain ⟨work, added, hwork, hsaved, hrecords⟩ :=
    strip_saves h.wellFormed hbackups rfl hids hreads hrun
  have hread : ∀ w ∈ work, ∃ old, before.host.files.read w.1 = .ok old := by
    intro w hw
    obtain ⟨target, p, rfl, -, -, hprocess, -⟩ := hwork w hw
    obtain ⟨old, text, hread, -⟩ := process_file_cases hprocess
    exact ⟨old, hread⟩
  have houtside : ∀ w ∈ work,
      ¬ before.host.files.place after.backupPath <+: before.host.files.place w.1 := by
    intro w hw
    obtain ⟨target, p, rfl, hp, -⟩ := hwork w hw
    exact hsources p.path hp
  obtain ⟨hcopies, hfiles⟩ := kept_of_saved hsaved houtside
  refine ⟨added, hsaved.wellFormed, h.kept.trans hsaved.kept, ?_,
    records_of_added h.records hrecords, ?_, fun b hb => ?_,
    fun location bytes hlocation hfile =>
      saved_append (h.saved location bytes hlocation hfile) hsaved houtside hlocation⟩
  · rcases hsaved.stands with rfl | hstands
    · rw [List.append_nil]
      exact h.stands.imp_right fun hstands => hstands.of_kept hsaved.wellFormed hsaved.kept
    · exact .inr hstands
  · -- The directory of each copy is there, and those of the new ones were not.
    rw [List.map_append, List.nodup_append]
    refine ⟨h.distinct, hsaved.distinct, fun id hid id' hid' => ?_⟩
    obtain ⟨b, hb, rfl⟩ := List.mem_map.mp hid
    obtain ⟨b', hb', rfl⟩ := List.mem_map.mp hid'
    intro hsame
    obtain ⟨name, bytes, hstored⟩ := (h.returnable b hb).stored
    have hdirectory := hstored.directory
    rw [hsame, (hsaved.stored b' hb').1] at hdirectory
    exact nomatch hdirectory
  · rcases List.mem_append.mp hb with hb | hb
    · exact (h.returnable b hb).of_kept (hcopies b) hfiles
    · obtain ⟨-, ⟨w, hw, hof⟩, hstored⟩ := hsaved.stored b hb
      obtain ⟨old, hold⟩ := hread w hw
      obtain ⟨content, hcontent⟩ := hfiles _ old (houtside w hw) (FileSystem.get?_of_read hold)
      exact ⟨hstored, _, content, houtside w hw, hof, hcontent⟩

/-- Runs in turn add their backups in turn. The induction is on the runs. -/
theorem accumulates_runs (hfs : fs.WellFormed)
    (hempty : recordsAt fs (fs.place directory) = .ok [])
    (h : Relation.ReflTransGen (StripRun directory) fs now) :
    ∃ backups, Accumulates directory (fs.place directory) fs now backups := by
  induction h with
  | refl => exact ⟨[], accumulates_none hfs hempty⟩
  | tail _ hrun ih =>
      obtain ⟨backups, hbackups⟩ := ih
      obtain ⟨added, hadded⟩ :=
        hbackups.next (FileSystem.place_eq hbackups.kept.workingDirectory _) hrun
      exact ⟨_, hadded⟩

/-! ## Undoing the runs -/

/-- An item that is the only one of its kind is the first and the last one. -/
theorem first_eq_last {α : Type} {p : α → Bool} {items : List α}
    (h : (items.filter p).length ≤ 1) : items.find? p = items.findRev? p := by
  rw [List.findRev?_eq_find?_reverse, ← List.head?_filter, ← List.head?_filter,
    List.filter_reverse]
  match items.filter p, h with
  | [], _ => rfl
  | [a], _ => rfl

/-- Once the store is opened, all backups are pending and left to do. The copies and the files
outside the store are as they were. -/
theorem Accumulates.opened {opened : Host} (h : Accumulates directory home fs host.files backups)
    (hplain : directory.IsPlain) (hhome : host.files.place directory = home)
    (hopen : (Store.openAt directory).run host = (.ok store, opened)) :
    store = ⟨directory⟩ ∧ IsUnderway ⟨directory⟩ home opened.files [] backups ∧
      (pendingIds ⟨directory⟩).run opened = (.ok (backups.map fun b => .text b.id), opened) ∧
      (∀ b name bytes, IsStored ⟨directory⟩ home host.files b name bytes →
        IsStored ⟨directory⟩ home opened.files b name bytes) ∧
      ∀ location content, ¬ home <+: location → host.files.get? location = some (.file content) →
        opened.files.get? location = some (.file content) := by
  obtain ⟨files, rfl, -, hchanges, hledger, hok⟩ :=
    Store.open_cases h.wellFormed hplain hopen hhome
  obtain ⟨rfl, hisOpen⟩ := hok store rfl
  have hopened : Store.IsOpen ⟨directory⟩ home { host with files }.files := hisOpen
  have hrecords : recordsAt files home = .ok (backups.map Backup.record) := by
    rw [recordsAt, hledger, ← recordsAt, h.records]
  have hcopies : ∀ b name bytes, IsStored ⟨directory⟩ home host.files b name bytes →
      IsStored ⟨directory⟩ home files b name bytes := fun b name bytes hstored =>
    hstored.of_changes hchanges (Store.copy_not_ledger _ _ _)
  have hfiles : ∀ location content, ¬ home <+: location →
      host.files.get? location = some (.file content) →
      files.get? location = some (.file content) := fun location content houtside hfile =>
    hchanges.file (Store.not_in_store houtside) hfile
  refine ⟨rfl, ⟨hisOpen, ?_, fun _ he => absurd he List.not_mem_nil, h.distinct, fun b hb =>
    (h.returnable b hb).of_kept (hcopies b) fun location content houtside hfile =>
      ⟨content, hfiles location content houtside hfile⟩⟩,
    run_pending_ids hopened hrecords, hcopies, hfiles⟩
  rw [List.nil_append, List.map_map]
  exact hrecords

/-- A file outside the store is still one after the runs, and without a backup it is as it was. -/
theorem Accumulates.file (h : Accumulates directory home fs now backups) (hfs : fs.WellFormed)
    (houtside : ¬ home <+: location) (hfile : fs.get? location = some (.file bytes)) :
    ∃ content, now.get? location = some (.file content) ∧
      ((backups.find? fun b => IsOf location b) = none → content = bytes) := by
  have hsaved := h.saved location bytes houtside hfile
  unfold IsSaved at hsaved
  cases hfind : backups.find? fun b => IsOf location b with
  | none =>
      rw [hfind] at hsaved
      exact ⟨bytes, hsaved, fun _ => rfl⟩
  | some b =>
      obtain ⟨other, content, -, hof, hthere⟩ :=
        (h.returnable b (List.mem_of_find?_eq_some hfind)).file
      obtain rfl : other = location :=
        Store.is_of_inj (h.wellFormed.names _ _ hthere) (hfs.names _ _ hfile) hof
          (by simpa using List.find?_some hfind)
      exact ⟨content, hthere, nofun⟩

/-- `restore` succeeds after the runs, if the configuration can be read and the store opened, and
the paths of the files can be used. -/
theorem Accumulates.restore_succeeds {start : Session} {settings : Settings} {opened : Host}
    (h : Accumulates start.backupPath home fs s.host.files backups)
    (hhome : s.host.files.place start.backupPath = home)
    (hload : (loadSettings reader none).run s = (.ok (.ok settings), start))
    (hopen : (Store.openAt start.backupPath).run s.host = (.ok store, opened))
    (hready : Store.IsReady home opened.files)
    (husable : ∀ b ∈ backups, FileSystem.IsUsable (Path.ofText b.originalPath)) :
    ∃ after, (restore reader ⟨[], false⟩).run s = (.ok (), after) ∧
      after.backupPath = start.backupPath := by
  obtain ⟨rfl, hunderway, hpending, -⟩ := h.opened (Path.is_plain_of_text _) hhome hopen
  obtain ⟨host, heach⟩ := Store.restore_each_succeeds hunderway hready husable
  obtain ⟨after, hrestore, -, hsettings⟩ := restore_all_succeeds hload hopen hpending heach
  exact ⟨after, hrestore, by rw [Session.backupPath, hsettings, Session.backupPath]⟩

/-- Runs of `strip` from an empty store on are undone by a `restore` without ids that succeeds as
far as the last backups go: each file outside the store has the content of its last backup then.
What it held before the first run is the content of its first backup, so it holds that again if it
was backed up no more than once. -/
theorem restore_brings_last_back (hfs : fs.WellFormed)
    (hempty : recordsAt fs (fs.place directory) = .ok [])
    (hruns : Relation.ReflTransGen (StripRun directory) fs s.host.files)
    (hpath : after.backupPath = directory)
    (hrestore : (restore reader ⟨[], false⟩).run s = (.ok (), after)) :
    ∃ backups : List Backup,
      recordsAt s.host.files (fs.place directory) = .ok (backups.map Backup.record) ∧
      ∀ location bytes, ¬ fs.place directory <+: location →
        fs.get? location = some (.file bytes) →
        ∃ kept, after.host.files.get? location = some (.file kept) ∧
          (∀ b, (backups.find? fun b => IsOf location b) = some b →
            s.host.files.read (Path.ofText b.copyPath) = .ok bytes) ∧
          (∀ b, (backups.findRev? fun b => IsOf location b) = some b →
            s.host.files.read (Path.ofText b.copyPath) = .ok kept) ∧
          ((backups.filter fun b => IsOf location b).length ≤ 1 → kept = bytes) := by
  obtain ⟨backups, hbackups⟩ := accumulates_runs hfs hempty hruns
  refine ⟨backups, hbackups.records, fun location bytes houtside hfile => ?_⟩
  obtain ⟨store, opened, ids, listed, hopen, hids, heach⟩ := restore_all_cases hrestore
  subst hpath
  -- All backups are pending, and restoring them brings back the last one of each file.
  obtain ⟨rfl, hunderway, hpending, hcopies, hfiles⟩ := hbackups.opened (Path.is_plain_of_text _)
    (FileSystem.place_eq hbackups.kept.workingDirectory _) hopen
  obtain ⟨hr, rfl⟩ := Prod.mk.inj (hpending.symm.trans hids)
  obtain rfl := Except.ok.inj hr
  obtain ⟨content, hnow, hnone⟩ := hbackups.file hfs houtside hfile
  obtain ⟨kept, hkept, hlast⟩ := Store.restore_each_last hunderway heach houtside
    (hfiles location content houtside hnow)
  have hstands : ∀ b ∈ backups, Store.Stands ⟨after.backupPath⟩ _ s.host.files := fun b hb =>
    hbackups.stands.resolve_left (List.ne_nil_of_mem hb)
  have hfirstRead : ∀ b, (backups.find? fun b => IsOf location b) = some b →
      s.host.files.read (Path.ofText b.copyPath) = .ok bytes := by
    intro b hfind
    have hsaved := hbackups.saved location bytes houtside hfile
    rw [IsSaved, hfind] at hsaved
    obtain ⟨name, hstored⟩ := hsaved
    exact hstored.read (hstands b (List.mem_of_find?_eq_some hfind))
  have hlastRead : ∀ b, (backups.findRev? fun b => IsOf location b) = some b →
      s.host.files.read (Path.ofText b.copyPath) = .ok kept := by
    intro b hfind
    have hb : b ∈ backups := by
      rw [List.findRev?_eq_find?_reverse] at hfind
      exact List.mem_reverse.mp (List.mem_of_find?_eq_some hfind)
    obtain ⟨name, bytes', hstored⟩ := (hbackups.returnable b hb).stored
    rw [hfind] at hlast
    rw [hlast name bytes' (hcopies b name bytes' hstored)]
    exact hstored.read (hstands b hb)
  refine ⟨kept, hkept, hfirstRead, hlastRead, fun hone => ?_⟩
  have hsame := first_eq_last hone
  cases hfind : backups.find? fun b => IsOf location b with
  | none =>
      rw [hfind] at hsame
      rw [← hsame] at hlast
      exact hlast.trans (hnone hfind)
  | some b =>
      exact Except.ok.inj ((hlastRead b (hsame.symm.trans hfind)).symm.trans (hfirstRead b hfind))

/-- The programs `require("a")` and `require("b")` on two lines, and the second of them alone. -/
def twoLoads : Tree :=
  (Tree.ofRows? (Bytes.ofText "require(\"a\")\nrequire(\"b\")\n")
    #[⟨0, true, "program", 0, 26, none⟩,
      ⟨1, true, "expression_statement", 0, 12, none⟩,
      ⟨2, true, "call_expression", 0, 12, none⟩,
      ⟨3, true, "identifier", 0, 7, some "function"⟩,
      ⟨3, true, "arguments", 7, 12, some "arguments"⟩,
      ⟨4, true, "string", 8, 11, none⟩,
      ⟨5, true, "string_fragment", 9, 10, none⟩,
      ⟨1, true, "expression_statement", 13, 25, none⟩,
      ⟨2, true, "call_expression", 13, 25, none⟩,
      ⟨3, true, "identifier", 13, 20, some "function"⟩,
      ⟨3, true, "arguments", 20, 25, some "arguments"⟩,
      ⟨4, true, "string", 21, 24, none⟩,
      ⟨5, true, "string_fragment", 22, 23, none⟩]).get (by decide +kernel)

def secondLoad : Tree :=
  (Tree.ofRows? (Bytes.ofText "require(\"b\")\n")
    #[⟨0, true, "program", 0, 13, none⟩,
      ⟨1, true, "expression_statement", 0, 12, none⟩,
      ⟨2, true, "call_expression", 0, 12, none⟩,
      ⟨3, true, "identifier", 0, 7, some "function"⟩,
      ⟨3, true, "arguments", 7, 12, some "arguments"⟩,
      ⟨4, true, "string", 8, 11, none⟩,
      ⟨5, true, "string_fragment", 9, 10, none⟩]).get (by decide +kernel)

/-- A parser that knows these two alone. -/
def loadsGrammar : Grammar :=
  fun _ bytes =>
    if bytes = twoLoads.source then ⟨twoLoads, false⟩
    else if bytes = secondLoad.source then ⟨secondLoad, false⟩
    else ⟨Tree.bare bytes, true⟩

/-- The first program in a file `a.js`, and nothing else. -/
def loadFiles : FileSystem :=
  FileSystem.put ⟨[], []⟩ ["a.js"] (.file twoLoads.source)

/-- A session on some files, with an id for one backup. -/
def sessionOn (files : FileSystem) (id : String) : Session :=
  ⟨⟨files, fun _ => id, fun _ => "", 0, 0⟩, ⟨[], none, 0⟩, "", []⟩

/-- The one id of a session is fresh once. -/
theorem fresh_once {files : FileSystem} {id : String} (hfresh : Store.IsFresh home files id)
    (hapart : ¬ files.IsOnWay directory (home ++ [id])) :
    HasFreshIds home directory (sessionOn files id).host 1 :=
  ⟨fun _ _ _ => hfresh, fun _ _ _ => hapart, fun m n _ hlt hlast => by omega⟩

/-- Rewrite `a.js` for a target without asking. -/
def loadOptions (target : String) : StripOptions :=
  ⟨[Path.ofText "a.js"], some target, false, false, false, false, true⟩

/-- Strip `a.js` for a target. -/
def stripLoad (target id : String) (files : FileSystem) : Session :=
  ((strip loadsGrammar .plainLines (loadOptions target) false).run (sessionOn files id)).2

/-- Where the backups go. -/
def loadBackups : Path := Path.ofText ".undebug_backup"

theorem load_files_well_formed : loadFiles.WellFormed :=
  @FileSystem.WellFormed.put ⟨[], []⟩ [] "a.js" _ FileSystem.well_formed_bare (by decide) rfl
    (by decide)

theorem load_backups_home : loadFiles.place loadBackups = [".undebug_backup"] := by decide

/-- Stripping `a.js` for the target `a` takes one backup and leaves the second program. -/
theorem strip_load_facts :
    (stripLoad "a" "b0" loadFiles).host.idsMade = 1 ∧
      (stripLoad "a" "b0" loadFiles).backupPath = loadBackups ∧
      (∀ e ∈ (stripLoad "a" "b0" loadFiles).host.files.entries,
        if e.2 = .directory then e.1 ∈ [[".undebug_backup"], [".undebug_backup", "b0"]]
        else e.1 = ["a.js"] ∨ [".undebug_backup"] <+: e.1) ∧
      (stripLoad "a" "b0" loadFiles).host.files.get? ["a.js"] =
        some (.file secondLoad.source) ∧
      (((loadSettings .plainLines none).run
        (sessionOn (stripLoad "a" "b0" loadFiles).host.files "")).1.toOption.bind
          Except.toOption).isSome = true ∧
      ((loadSettings .plainLines none).run
        (sessionOn (stripLoad "a" "b0" loadFiles).host.files "")).2.backupPath = loadBackups ∧
      ((Store.openAt loadBackups).run
        (sessionOn (stripLoad "a" "b0" loadFiles).host.files "").host).1 = .ok ⟨loadBackups⟩ ∧
      ((Store.openAt loadBackups).run
        (sessionOn (stripLoad "a" "b0" loadFiles).host.files "").host).2.files.get?
          [".undebug_backup", "manifest.tmp"] ≠ some .directory ∧
      ((Store.openAt loadBackups).run
        (sessionOn (stripLoad "a" "b0" loadFiles).host.files "").host).2.files.get?
          [".undebug_backup", "manifest.json"] ≠ some .directory := by
  decide +kernel

/-- It is one run. -/
theorem strip_load_run :
    StripRun loadBackups loadFiles (stripLoad "a" "b0" loadFiles).host.files := by
  obtain ⟨hmade, hpath, -⟩ := strip_load_facts
  have houtside : ∀ source ∈ loadFiles.sourceFiles (loadOptions "a").paths loadBackups,
      ¬ loadFiles.place loadBackups <+: loadFiles.place source := by decide +kernel
  have hids : HasFreshIds (loadFiles.place loadBackups) loadBackups
      (sessionOn loadFiles "b0").host (stripLoad "a" "b0" loadFiles).host.idsMade := by
    rw [hmade, load_backups_home]
    exact fresh_once ⟨by decide, by decide, by decide, rfl⟩ fun hway =>
      absurd (hway.prefix_place (by decide)) (by decide)
  rcases hrun : (strip loadsGrammar .plainLines (loadOptions "a") false).run
    (sessionOn loadFiles "b0") with ⟨r, after⟩
  have hafter : stripLoad "a" "b0" loadFiles = after := congrArg Prod.snd hrun
  rw [hafter] at hpath hids ⊢
  exact StripRun.strip (s := sessionOn loadFiles "b0") rfl hpath houtside hids
    (Disk.reads_reliable _) hrun

/-- After the target `a` was stripped from the two programs, `restore` brings both back. -/
theorem stripped_file_restored :
    ∃ after, (stripLoad "a" "b0" loadFiles).host.files.get? ["a.js"] =
        some (.file secondLoad.source) ∧
      (restore .plainLines ⟨[], false⟩).run
        (sessionOn (stripLoad "a" "b0" loadFiles).host.files "") = (.ok (), after) ∧
      after.host.files.get? ["a.js"] = some (.file twoLoads.source) := by
  obtain ⟨-, -, hentries, hstripped, hloads, hpath, hopens, hdraft, hledger⟩ := strip_load_facts
  have hruns := Relation.ReflTransGen.single strip_load_run
  generalize (stripLoad "a" "b0" loadFiles).host.files = files at *
  have hempty : recordsAt loadFiles (loadFiles.place loadBackups) = .ok [] := by
    rw [load_backups_home]
    rfl
  obtain ⟨backups, hbackups⟩ := accumulates_runs load_files_well_formed hempty hruns
  have hhome := (FileSystem.place_eq hbackups.kept.workingDirectory loadBackups).trans
    load_backups_home
  rw [load_backups_home] at hbackups
  -- The only file outside the store is `a.js`, so its path is that of every backup.
  have husable : ∀ b ∈ backups, FileSystem.IsUsable (Path.ofText b.originalPath) := by
    intro b hb
    obtain ⟨location, content, houtside, hof, hfile⟩ := (hbackups.returnable b hb).file
    have hspot := hentries _ (FileSystem.mem_entries_of_file hfile)
    rw [if_neg (by simp)] at hspot
    obtain rfl := hspot.resolve_right houtside
    rw [hof]
    decide
  -- The only directory in the store is that of `b0`, so there is one backup at most.
  have hone : backups.length ≤ 1 := by
    have hids : ∀ id ∈ backups.map Backup.id, id = "b0" := by
      intro id hid
      obtain ⟨b, hb, rfl⟩ := List.mem_map.mp hid
      obtain ⟨name, bytes, hstored⟩ := (hbackups.returnable b hb).stored
      have hspot := hentries _ (Table.mem_of_get? hstored.directory)
      simpa using hspot
    have hdistinct := hbackups.distinct
    rw [List.eq_replicate_of_mem hids] at hdistinct
    simpa using hdistinct
  rcases hload : (loadSettings .plainLines none).run (sessionOn files "") with ⟨loaded, start⟩
  rw [hload] at hloads hpath
  rcases hopen : (Store.openAt loadBackups).run (sessionOn files "").host with ⟨result, opened⟩
  rw [hopen] at hopens hdraft hledger
  dsimp only at hloads hpath hopens hdraft hledger
  subst hopens
  obtain ⟨settings, rfl⟩ : ∃ settings, loaded = .ok (.ok settings) := by
    rcases loaded with stop | result | settings
    · cases hloads
    · cases hloads
    · exact ⟨settings, rfl⟩
  -- So restoring succeeds, and brings back what was there at first.
  obtain ⟨after, hrestore, hafter⟩ : ∃ after,
      (restore .plainLines ⟨[], false⟩).run (sessionOn files "") = (.ok (), after) ∧
        after.backupPath = start.backupPath :=
    Accumulates.restore_succeeds (hpath.symm ▸ hbackups) (hpath.symm ▸ hhome) hload
      (hpath.symm ▸ hopen) ⟨hdraft, hledger⟩ husable
  obtain ⟨backups', hrecords, hcontents⟩ := restore_brings_last_back (s := sessionOn files "")
    load_files_well_formed hempty hruns (hafter.trans hpath) hrestore
  rw [load_backups_home] at hrecords hcontents
  obtain ⟨kept, hkept, -, -, hsame⟩ := hcontents ["a.js"] twoLoads.source (by decide) rfl
  have hlength : backups'.length = backups.length := by
    simpa using congrArg List.length (Except.ok.inj (hrecords.symm.trans hbackups.records))
  refine ⟨after, hstripped, hrestore, ?_⟩
  rw [hkept, hsame ((List.length_filter_le _ _).trans (hlength ▸ hone))]

end Command

end Excise
