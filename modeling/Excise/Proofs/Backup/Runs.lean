import Excise.Proofs.Backup.Stored
import Mathlib.Logic.Relation

/-!
# Runs of a store

A run is any number of operations on a store, and of changes by others outside its directory, in any
order (`Store.Run`). What each operation keeps, a run keeps (`run_advances`). So a backup that was
taken on the way can be restored later on, whatever came in between, and restoring it again does
nothing (`restore_round_trip`).
-/

namespace Excise

namespace Store

open Ledger (BackupEntry Grows)

/-- The operations of a store and of its manifest. -/
inductive Operation where
  | reopen
  | backup (path : Path) (reason : String)
  | addRecord (id originalPath copyPath reason fileHash : String)
  | restore (id : Json)
  | restoreMany (ids : List Json)
  | setRestored (id : Json)
  | all
  | records
  | pending
  | find (id : Json)
  | info
  | hash (text : String)

namespace Operation

/-- What an operation leaves behind, whether it succeeds or fails. -/
def after (store : Store) (host : Host) : Operation → Host
  | .reopen => ((openAt store.directory).run host).2
  | .backup path reason => ((store.backup path reason).run host).2
  | .addRecord id originalPath copyPath reason fileHash =>
      ((store.addRecord id originalPath copyPath reason fileHash).run host).2
  | .restore id => ((store.restore id).run host).2
  | .restoreMany ids => ((store.restoreMany ids).run host).2
  | .setRestored id => ((store.setRestored id).run host).2
  | .all => (store.all.run host).2
  | .records => (store.records.run host).2
  | .pending => (store.pending.run host).2
  | .find id => ((store.find? id).run host).2
  | .info => (store.info.run host).2
  | .hash text => ((hashNamed text).run host).2

end Operation

/-- No record has the id. -/
def IsUnused (home : Location) (fs : FileSystem) (id : String) : Prop :=
  ∃ records, recordsAt fs home = .ok records ∧ Ledger.find? (.text id) records = .ok none

/-- A file that can be backed up: it lies outside the store, and the id of the backup is new. -/
structure CanBackUp (home : Location) (host : Host) (path : Path) : Prop where
  outside : ¬ home <+: host.files.place path
  fresh : IsFresh home host.files (host.newId host.idsMade)
  unused : IsUnused home host.files (host.newId host.idsMade)

/-- The files that are backed up or recorded lie outside the store, and ids are new. -/
def Operation.IsAdmissible (home : Location) (host : Host) : Operation → Prop
  | .backup path _ => CanBackUp home host path
  | .addRecord _ originalPath _ _ _ => Avoids home host.files (Path.ofText originalPath)
  | _ => True

/-- A change of others outside the directory of the store, to which the same path leads. -/
structure IsOutside (store : Store) (home : Location) (fs fs' : FileSystem) : Prop where
  wellFormed : fs'.WellFormed
  working : fs'.workingDirectory = fs.workingDirectory
  located : fs'.locate store.directory = .ok home
  same : ∀ location, home <+: location → fs'.get? location = fs.get? location

/-- One operation of the store, or one change of others. -/
inductive Step (store : Store) (home : Location) : Host → Host → Prop
  | operation {host : Host} (op : Operation) (h : op.IsAdmissible home host) :
      Step store home host (op.after store host)
  | others {host : Host} {files : FileSystem} (h : IsOutside store home host.files files) :
      Step store home host { host with files }

/-- Any number of steps. -/
def Run (store : Store) (home : Location) : Host → Host → Prop :=
  Relation.ReflTransGen (Step store home)

/-- The backup of an id is marked as restored. -/
def IsMarked (home : Location) (fs : FileSystem) (id : String) : Prop :=
  ∃ records fields, recordsAt fs home = .ok records ∧
    Ledger.find? (.text id) records = .ok (some fields) ∧ Ledger.IsRestored fields

variable {store : Store} {home location : Location} {fs fs' : FileSystem} {host host' : Host}
  {entries entries' : List BackupEntry} {e : BackupEntry} {path : Path} {bytes : Bytes}

/-! ## Changes of others -/

/-- Writing a file outside the store is a change outside it. -/
theorem outside_of_write (hstands : store.Stands home fs) (hplain : path.IsPlain)
    (hplace : ¬ home <+: fs.place path) (h : fs.write path bytes = .ok fs') :
    IsOutside store home fs fs' := by
  obtain ⟨hfs', hchanges, -⟩ := FileSystem.write_changes hstands.wellFormed (fun _ => hplain) h
  refine ⟨hfs', hchanges.workingDirectory,
    FileSystem.locate_of_kept hchanges.toKeepsDirectories hstands.located, fun l hl => ?_⟩
  refine hchanges.same ?_ fun h => h
  rintro rfl
  exact hplace hl

/-- Removing a file outside the store is a change outside it. -/
theorem outside_of_remove (hstands : store.Stands home fs)
    (hfile : fs.get? location = some (.file bytes)) (hlocation : ¬ home <+: location) :
    IsOutside store home fs (fs.remove location) := by
  refine ⟨hstands.wellFormed.remove_file hfile, rfl, FileSystem.locate_of_kept
    (hstands.wellFormed.kept_of_remove_file hfile) hstands.located, fun l hl => ?_⟩
  rw [hstands.wellFormed.get?_remove_file hfile, if_neg]
  rintro rfl
  exact hlocation hl

/-- What others do outside the store leaves it sound, with its entries. -/
theorem outside_sound (hsound : IsSound store home fs entries)
    (h : IsOutside store home fs fs') :
    IsSound store home fs' entries ∧ KeepsStore home fs fs' := by
  have hledger := h.same _ (List.prefix_append home ["manifest.json"])
  have hdraft := h.same _ (List.prefix_append home ["manifest.tmp"])
  have hhome := h.same home List.prefix_rfl
  have hstands : store.Stands home fs' :=
    ⟨h.wellFormed, hsound.isOpen.plain, h.located, hhome.trans hsound.isOpen.directory⟩
  refine ⟨⟨⟨hstands, hsound.isOpen.usable⟩, (ledger_at_eq hledger).trans hsound.ledger,
    fun e he => (hsound.outside e he).of_same h.working⟩, ?_⟩
  refine ⟨h.working, fun l bytes hl _ _ hfile => (h.same l hl).trans hfile,
    fun l hl hdirectory => (h.same l hl).trans hdirectory, fun hready => ⟨?_, ?_⟩⟩
  · exact fun hdirectory => hready.draft (hdraft.symm.trans hdirectory)
  · exact fun hdirectory => hready.ledger (hledger.symm.trans hdirectory)

/-! ## Runs -/

/-- What is left by an action that only looks is as it was. -/
theorem advances_of_keeps {α : Type} {action : BackupAction α}
    (hsound : IsSound store home host.files entries) (h : Keeps id action) :
    Advances store home entries host.files (action.run host).2.files := by
  rw [show (action.run host).2 = host from h host]
  exact Advances.refl hsound

/-- An operation keeps the store sound. -/
theorem operation_advances {op : Operation} (hsound : IsSound store home host.files entries)
    (h : op.IsAdmissible home host) :
    Advances store home entries host.files (op.after store host).files := by
  cases op with
  | reopen => exact open_advances hsound rfl
  | backup path reason => exact backup_advances hsound h.outside h.fresh rfl
  | addRecord id originalPath copyPath reason fileHash => exact add_record_advances hsound h rfl
  | restore id => exact restore_advances hsound rfl
  | restoreMany ids => exact restore_many_advances hsound rfl
  | setRestored id => exact set_restored_advances hsound rfl
  | all =>
      exact advances_of_keeps hsound ((store.keeps_read_ledger _).bind fun _ => keeps_pure _)
  | records => exact advances_of_keeps hsound (store.keeps_records _)
  | pending => exact advances_of_keeps hsound (store.keeps_pending _)
  | find id => exact advances_of_keeps hsound (store.keeps_find id _)
  | info => exact advances_of_keeps hsound (store.keeps_info _)
  | hash text =>
      exact advances_of_keeps hsound ((BackupAction.keeps_reading _).bind fun _ => keeps_pure _)

/-- A run keeps the store sound, with the entries that it had. The induction is on the steps. -/
theorem run_advances (hsound : IsSound store home host.files entries)
    (h : store.Run home host host') : Advances store home entries host.files host'.files := by
  induction h with
  | refl => exact Advances.refl hsound
  | tail _ hstep ih =>
      refine ih.trans fun entries' hsound' => ?_
      cases hstep with
      | operation op hop => exact operation_advances hsound' hop
      | others houtside =>
          obtain ⟨hsound'', hkeeps⟩ := outside_sound hsound' houtside
          exact ⟨entries', hsound'', Grows.refl entries', hkeeps⟩

/-! ## The round trip -/

/-- The entries of a sound store have no unused id. -/
theorem not_has_unused {id : String} (hsound : IsSound store home fs entries)
    (h : IsUnused home fs id) : ∀ e ∈ entries, ¬ e.HasId (.text id) := by
  obtain ⟨records, hrecords, hfind⟩ := h
  obtain rfl := Except.ok.inj (hsound.records.symm.trans hrecords)
  rw [Ledger.find_entries] at hfind
  have hnone := Option.map_eq_none_iff.mp (Except.ok.inj hfind)
  simpa using hnone

/-- The backup of an id is marked if its first entry is. -/
theorem is_marked_iff {id : String} (hsound : IsSound store home fs entries)
    (hfind : (entries.find? fun e => e.HasId (.text id)) = some e) :
    IsMarked home fs id ↔ e.restored = true := by
  have hfound : Ledger.find? (.text id) (entries.map BackupEntry.record) = .ok (some e.fields) := by
    rw [Ledger.find_entries, hfind]
    rfl
  constructor
  · rintro ⟨records, fields, hrecords, hfind', hrestored⟩
    obtain rfl := Except.ok.inj (hsound.records.symm.trans hrecords)
    obtain rfl := Option.some.inj (Except.ok.inj (hfound.symm.trans hfind'))
    exact e.is_restored_iff.mp hrestored
  · exact fun hrestored => ⟨_, e.fields, hsound.records, hfound, e.is_restored_iff.mpr hrestored⟩

/-- Restoring an id whose first entry is restored does nothing, whatever came in between. -/
theorem restore_again {id : Json} (hsound : IsSound store home host.files entries)
    (hfind : (entries.find? fun e => e.HasId id) = some e) (hrestored : e.restored = true)
    (h : store.Run home host host') : (store.restore id).run host' = (.ok (), host') := by
  obtain ⟨entries', hsound', hgrows, -⟩ := run_advances hsound h
  obtain ⟨e', hfind', -, hrestored'⟩ := hgrows.find hfind
  rw [run_restore hsound', hfind']
  simp [hrestored' hrestored]

/-- The store opened on a directory without records is sound. -/
theorem sound_of_opened {directory : Path} (hfs : host.files.WellFormed)
    (hplain : directory.IsPlain) (hhome : host.files.place directory = home)
    (hempty : ledgerAt host.files home = .ok Ledger.empty)
    (h : (openAt directory).run host = (.ok store, host')) :
    IsSound store home host'.files [] := by
  obtain ⟨files, rfl, -, -, hledger, hok⟩ := open_cases hfs hplain h hhome
  obtain ⟨rfl, hopen⟩ := hok store rfl
  exact ⟨hopen, hledger.trans hempty, fun e he => absurd he List.not_mem_nil⟩

/-- Backup round trip. A store is opened on a directory without records. After any run, a file
outside the store is backed up, and after any further run, in which the backup was not marked, it
is restored. That succeeds where nothing is in the way of the file: the file has its content again,
all other files outside the store are as they were, and in the manifest only the flag of the backup
was set. Whatever follows, restoring the backup again changes nothing. -/
theorem restore_round_trip {home : Location} {text reason id : String} {path : Path}
    {bytes : Bytes} {store : Store} {start opened before taken later : Host}
    (hstart : start.files.WellFormed) (hhome : start.files.place (Path.ofText text) = home)
    (hempty : ledgerAt start.files home = .ok Ledger.empty)
    (hopen : (openAt (Path.ofText text)).run start = (.ok store, opened))
    (hearlier : store.Run home opened before)
    (hfile : before.files.read (before.files.absolute path) = .ok bytes)
    (hcan : CanBackUp home before path)
    (hbackup : (store.backup path reason).run before = (.ok id, taken))
    (hlater : store.Run home taken later)
    (hunmarked : ¬ IsMarked home later.files id)
    (hclear : IsClear later.files (before.files.place path)) :
    ∃ restored front e back,
      (store.restore (.text id)).run later = (.ok (), restored) ∧
      restored.files.read (before.files.absolute path) = .ok bytes ∧
      (∀ location, ¬ home <+: location → location ≠ before.files.place path → ∀ content,
        restored.files.get? location = some (.file content) ↔
          later.files.get? location = some (.file content)) ∧
      (e.backup.id = id ∧ e.restored = false ∧ ∀ e' ∈ front, e'.backup.id ≠ id) ∧
      ledgerAt later.files home = .ok (Ledger.manifestOf (front ++ e :: back)) ∧
      ledgerAt restored.files home = .ok (Ledger.manifestOf (front ++ e.marked :: back)) ∧
      ∀ final, store.Run home restored final →
        (store.restore (.text id)).run final = (.ok (), final) := by
  obtain ⟨entries, hsound, -, -⟩ := run_advances
    (sound_of_opened hstart (Path.is_plain_of_text text) hhome hempty hopen) hearlier
  -- The backup adds an entry, which is the first one of its id.
  obtain ⟨-, htakenFiles, ⟨error, hr, -⟩ | ⟨b, content, hr, hid, -, -, htaken⟩⟩ :=
    backup_cases hsound.isOpen hcan.fresh (Disk.reads_reliable _) hbackup
  · exact nomatch hr
  obtain rfl := Except.ok.inj hr
  obtain ⟨htakenSound, -⟩ :=
    taken_sound hsound hcan.outside (hid ▸ hcan.fresh) htakenFiles htaken
  have hfirst : ((entries ++ [BackupEntry.ofBackup b]).find? fun e => e.HasId (.text b.id)) =
      some (.ofBackup b) :=
    Ledger.find_append_iff.mpr ⟨(BackupEntry.ofBackup b).has_id_text b.id |>.mpr rfl, entries, [],
      rfl, not_has_unused hsound (hid ▸ hcan.unused)⟩
  have hstored := stored_of_taken htakenSound.isOpen.toStands hsound.isOpen.wellFormed
    (hid ▸ hcan.fresh.name) htaken
  -- It is still there after the later run, with its copy.
  obtain ⟨entries', hsound', hgrows, hkeeps⟩ := run_advances htakenSound hlater
  obtain ⟨e, hfind, hbackupSame, -⟩ := hgrows.find hfirst
  have hpending : e.restored = false :=
    Bool.not_eq_true _ ▸ mt (is_marked_iff hsound' hfind).mpr hunmarked
  have hstored' : IsStored store home later.files e.backup path.name content :=
    hbackupSame ▸ hstored.of_keeps hkeeps
  -- What was read is what stands at the place of the path.
  obtain ⟨habsolute, husable, rfl⟩ :=
    FileSystem.read_absolute hsound.isOpen.wellFormed htaken.read hfile
  have hnames := hsound.isOpen.wellFormed.names _ _ (FileSystem.get?_of_read htaken.read)
  have hpath : Path.ofText e.backup.originalPath = ⟨.absolute, before.files.place path⟩ := by
    rw [hbackupSame]
    exact (outside_of_taken hsound.isOpen.wellFormed hcan.outside htaken).1
  obtain ⟨restored, hrestore, hrestoredFile, hrestoredSound, -, hchanges⟩ :=
    restore_succeeds hsound' (hkeeps.ready htaken.ready) hfind hpending hstored' hpath hnames
      husable (FileSystem.place_absolute fun name hname => (hnames name hname).2.1) hcan.outside
      hclear
  obtain ⟨hhasId, front, back, rfl, hfront⟩ := Ledger.find_append_iff.mp hfind
  rw [Ledger.mark_first_append hhasId hfront] at hrestoredSound
  have hmarked : ((front ++ e.marked :: back).find? fun e => e.HasId (.text b.id)) =
      some e.marked := Ledger.find_append_iff.mpr ⟨hhasId, front, back, rfl, hfront⟩
  refine ⟨restored, front, e, back, hrestore, ?_, fun l hl hne c => ?_,
    ⟨(e.has_id_text b.id).mp hhasId, hpending,
      fun e' he' hsame => hfront e' he' ((e'.has_id_text b.id).mpr hsame)⟩,
    hsound'.ledger, hrestoredSound.ledger,
    fun final hfinal => restore_again hrestoredSound hmarked rfl hfinal⟩
  · rw [habsolute]
    exact FileSystem.read_eq_ok_iff.mpr
      ⟨_, hrestoredSound.isOpen.wellFormed.locate_absolute hrestoredFile husable, hrestoredFile⟩
  · have hnot : ¬ (l = before.files.place path ∨ l = draftSpot home ∨ l = ledgerSpot home) := by
      rintro (rfl | rfl | rfl)
      · exact hne rfl
      · exact hl (List.prefix_append _ _)
      · exact hl (List.prefix_append _ _)
    exact ⟨hchanges.file_before hnot, hchanges.file hnot⟩

/-- A host with a file `a` and nothing else. -/
def oneFile : Host where
  files := FileSystem.put ⟨[], []⟩ ["a"] (.file [1])
  newId _ := "b0"
  newTime _ := ""
  idsMade := 0
  timesTaken := 0

theorem one_file_well_formed : oneFile.files.WellFormed :=
  @FileSystem.WellFormed.put ⟨[], []⟩ [] "a" (.file [1]) FileSystem.well_formed_bare (by decide) rfl
    (by decide)

theorem one_file_home : oneFile.files.place (Path.ofText "s") = ["s"] := by decide

/-- A store is opened in `s`, and the file `a` is backed up. -/
theorem one_file_backed_up : ∃ opened taken,
    (openAt (Path.ofText "s")).run oneFile = (.ok ⟨Path.ofText "s"⟩, opened) ∧
      (backup ⟨Path.ofText "s"⟩ (Path.ofText "a") "strip").run opened = (.ok "b0", taken) := by
  have hsucceeds : ((openAt (Path.ofText "s") >>= fun store =>
      store.backup (Path.ofText "a") "strip").run oneFile).1 = .ok "b0" := by decide +kernel
  rcases hrun : (openAt (Path.ofText "s") >>= fun store =>
    store.backup (Path.ofText "a") "strip").run oneFile with ⟨r, taken⟩
  obtain rfl : r = .ok "b0" := by rw [← hsucceeds, hrun]
  obtain ⟨_, -, hr⟩ | ⟨store, opened, hopen, hbackup⟩ := run_bind_cases hrun
  · exact nomatch hr
  obtain ⟨files, rfl, -, -, -, hok⟩ :=
    open_cases one_file_well_formed (Path.is_plain_of_text "s") hopen rfl
  obtain ⟨rfl, -⟩ := hok store rfl
  exact ⟨_, taken, hopen, hbackup⟩

/-- The file `a` can be backed up in a store in `s`. -/
theorem one_file_can_back_up {opened : Host}
    (hopen : (openAt (Path.ofText "s")).run oneFile = (.ok ⟨Path.ofText "s"⟩, opened)) :
    opened.files.locate (Path.ofText "a") = .ok ["a"] ∧
      opened.files.get? ["a"] = some (.file [1]) ∧
      opened.files.read (opened.files.absolute (Path.ofText "a")) = .ok [1] ∧
      CanBackUp ["s"] opened (Path.ofText "a") ∧ opened.newId opened.idsMade = "b0" := by
  have hsound :=
    sound_of_opened one_file_well_formed (Path.is_plain_of_text "s") one_file_home rfl hopen
  obtain ⟨files, rfl, -, hchanges, -, -⟩ :=
    open_cases one_file_well_formed (Path.is_plain_of_text "s") hopen one_file_home
  have hkept := hchanges.toKeepsDirectories
  have hlocate : files.locate (Path.ofText "a") = .ok ["a"] :=
    FileSystem.locate_of_kept hkept (by decide)
  have hfile : files.get? ["a"] = some (.file [1]) := hchanges.file (by decide) rfl
  have hread : files.read (files.absolute (Path.ofText "a")) = .ok [1] := by
    rw [FileSystem.absolute_of_locate hlocate]
    exact FileSystem.read_eq_ok_iff.mpr
      ⟨["a"], FileSystem.locate_of_kept hkept (by decide), hfile⟩
  -- Opening the store made nothing below its directory but the manifest.
  have hfree : files.get? ["s", "b0"] = none := by
    refine (hchanges.same (by decide) fun hway => ?_).trans rfl
    exact absurd (hway.prefix_place (by decide)) (by decide)
  have hfresh : IsFresh ["s"] files "b0" := ⟨by decide, by decide, by decide, hfree⟩
  have hplace : ¬ ["s"] <+: files.place (Path.ofText "a") :=
    FileSystem.locate_eq_place hlocate ▸ by decide
  exact ⟨hlocate, hfile, hread, ⟨hplace, hfresh, [], hsound.records, rfl⟩, rfl⟩

/-- The file `a` is backed up in a store in `s`, overwritten, and restored. -/
theorem overwritten_file_restored :
    ∃ opened taken later restored,
      (openAt (Path.ofText "s")).run oneFile = (.ok ⟨Path.ofText "s"⟩, opened) ∧
      (backup ⟨Path.ofText "s"⟩ (Path.ofText "a") "strip").run opened = (.ok "b0", taken) ∧
      taken.files.write (Path.ofText "a") [2] = .ok later ∧
      (restore ⟨Path.ofText "s"⟩ (.text "b0")).run { taken with files := later } =
        (.ok (), restored) ∧
      restored.files.read ⟨.absolute, ["a"]⟩ = .ok [1] := by
  obtain ⟨opened, taken, hopen, hbackup⟩ := one_file_backed_up
  obtain ⟨hlocate, hfile, hread, hcan, hid⟩ := one_file_can_back_up hopen
  have hplace := FileSystem.locate_eq_place hlocate
  have hsound :=
    sound_of_opened one_file_well_formed (Path.is_plain_of_text "s") one_file_home rfl hopen
  obtain ⟨-, hfiles, ⟨error, hr, -⟩ | ⟨b, bytes, hr, hb, -, -, htaken⟩⟩ :=
    backup_cases hsound.isOpen hcan.fresh (Disk.reads_reliable _) hbackup
  · cases hr
  obtain ⟨hsound', -⟩ := taken_sound hsound hcan.outside (hb ▸ hcan.fresh) hfiles htaken
  have hspot : ["a"] ≠ copySpot ["s"] b.id (Path.ofText "a").name := by simp [copySpot]
  have hthere : taken.files.get? ["a"] = some (.file [1]) := by
    refine htaken.changes.file ?_ hfile
    rintro (h | h | h)
    · exact absurd h (by decide)
    · exact absurd h (by decide)
    · exact hspot h
  have hwrites := FileSystem.write_eq_ok_iff.mpr ⟨["a"],
    FileSystem.locate_of_kept htaken.changes.toKeepsDirectories hlocate, by simp [hthere],
    (rfl : taken.files.put ["a"] (.file [2]) = _)⟩
  have houtside := outside_of_write hsound'.isOpen.toStands (Path.is_plain_of_text "a")
    (FileSystem.place_eq htaken.changes.workingDirectory _ ▸ hplace ▸ by decide) hwrites
  -- Overwriting it leaves the backup pending.
  have hfind : ([BackupEntry.ofBackup b].find? fun e => e.HasId (.text "b0")) =
      some (.ofBackup b) := by
    simp [BackupEntry.ofBackup, hb, hid]
  have hunmarked : ¬ IsMarked ["s"] (taken.files.put ["a"] (.file [2])) "b0" :=
    mt (is_marked_iff (outside_sound hsound' houtside).1 hfind).mp (by simp [BackupEntry.ofBackup])
  have hclear : IsClear (taken.files.put ["a"] (.file [2])) ["a"] := by
    refine ⟨by simp [FileSystem.get?_put], fun front hfront hne bytes => ?_⟩
    obtain rfl : front = [] := by
      simpa [hne] using (List.prefix_concat_iff.mp hfront : front = [] ++ ["a"] ∨ front <+: [])
    intro hfile
    cases hfile
  obtain ⟨restored, -, -, -, hrestore, hback, -⟩ :=
    restore_round_trip one_file_well_formed one_file_home rfl hopen .refl hread hcan hbackup
      (.single (.others houtside)) hunmarked (hplace ▸ hclear)
  rw [FileSystem.absolute_of_locate hlocate] at hback
  exact ⟨opened, taken, _, restored, hopen, hbackup, hwrites, hrestore, hback⟩

end Store

end Excise
