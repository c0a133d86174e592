import Excise.Proofs.Backup.Stored

/-!
# Saving files before they are overwritten

A command that opens a store backs up each file before it overwrites it. At any time the first
backup of a file holds what the file held at the start, and a file without a backup still holds it
(`Store.Saved`): opening the store, a backup whether it succeeds or fails, and overwriting a file
that was backed up all keep this.
-/

namespace Excise

namespace Store

open Ledger (Backup BackupEntry)

/-- The ids to come, up to one, name places where nothing stands, apart from the way to the store.
None comes twice. -/
structure HasFreshIds (home : Location) (directory : Path) (host : Host) (last : Nat) : Prop where
  fresh : ∀ n, host.idsMade ≤ n → n < last → IsFresh home host.files (host.newId n)
  apart : ∀ n, host.idsMade ≤ n → n < last →
    ¬ host.files.IsOnWay directory (home ++ [host.newId n])
  distinct : ∀ m n, host.idsMade ≤ m → m < n → n < last → host.newId m ≠ host.newId n

/-- Backups were added to the records. Those that were there were written and read again each
time. -/
def RecordsAdded (home : Location) (fs fs' : FileSystem) (added : List Backup) : Prop :=
  (added = [] ∧ recordsAt fs' home = recordsAt fs home) ∨
    ∃ records, recordsAt fs home = .ok records ∧ recordsAt fs' home =
      .ok (records.map Json.reread^[added.length] ++ added.map Backup.record)

/-- The backup is of the file at a location. -/
def IsOf (location : Location) (b : Backup) : Prop :=
  b.originalPath = Path.text ⟨.absolute, location⟩

/-- The paths are compared. -/
instance (location : Location) : DecidablePred (IsOf location) :=
  fun _ => inferInstanceAs (Decidable (_ = _))

/-- The first backup of a file holds some content; without one the file does. -/
def IsSaved (store : Store) (home : Location) (fs : FileSystem) (added : List Backup)
    (location : Location) (bytes : Bytes) : Prop :=
  match added.find? fun b => IsOf location b with
  | none => fs.get? location = some (.file bytes)
  | some b => ∃ name, IsStored store home fs b name bytes

/-- The file at a location is as it was, or it holds what the disk may leave of one of the contents
to be written to it. -/
def IsWritten (disk : Disk) (fs fs' : FileSystem) (work : List (Path × Bytes))
    (location : Location) : Prop :=
  fs'.get? location = fs.get? location ∨
    ∃ w ∈ work, fs.place w.1 = location ∧
      ∃ left, disk.MayLeave w.1 w.2 left ∧ fs'.get? location = some (.file left)

/-- Some contents are to be written to paths. The backups that were added hold what the files
outside the store held before, and these files hold that or what the disk left of what was to be
written. Besides them, the manifest and its draft, all files are as they were. -/
structure Saved (store : Store) (home : Location) (disk : Disk) (work : List (Path × Bytes))
    (before now : Host) (added : List Backup) : Prop where
  wellFormed : now.files.WellFormed
  kept : before.files.KeepsDirectories now.files
  newId : now.newId = before.newId
  made : before.idsMade ≤ now.idsMade
  others : ∀ location bytes, location ≠ draftSpot home → location ≠ ledgerSpot home →
    (∀ w ∈ work, before.files.place w.1 ≠ location) →
    before.files.get? location = some (.file bytes) → now.files.get? location = some (.file bytes)
  written : ∀ location bytes, ¬ home <+: location →
    before.files.get? location = some (.file bytes) →
    IsWritten disk before.files now.files work location
  stands : added = [] ∨ store.Stands home now.files
  distinct : (added.map Backup.id).Nodup
  stored : ∀ b ∈ added, before.files.get? (home ++ [b.id]) = none ∧
    (∃ w ∈ work, IsOf (before.files.place w.1) b) ∧
    ∃ name bytes, IsStored store home now.files b name bytes
  saved : ∀ location bytes, ¬ home <+: location →
    before.files.get? location = some (.file bytes) →
    IsSaved store home now.files added location bytes

/-- The store is open, and the ids to come are still fresh. -/
structure Saves (store : Store) (home : Location) (disk : Disk) (work : List (Path × Bytes))
    (before : Host) (last : Nat) (now : Host) (added : List Backup) : Prop extends
    Saved store home disk work before now added where
  isOpen : store.IsOpen home now.files
  free : ∀ n, now.idsMade ≤ n → n < last → now.files.get? (home ++ [before.newId n]) = none

variable {store : Store} {home location : Location} {disk : Disk} {work : List (Path × Bytes)}
  {last : Nat} {fs fs' fs'' : FileSystem} {host host' before now : Host} {added : List Backup}
  {b : Backup} {path : Path} {name : String} {bytes : Bytes} {files directories : Location → Prop}

/-- A backup is added to the records that are there. -/
theorem RecordsAdded.add {manifest manifest' : Fields} (h : RecordsAdded home fs fs' added)
    (hbefore : ledgerAt fs' home = .ok manifest) (hadded : Ledger.add manifest b = .ok manifest')
    (hafter : ledgerAt fs'' home = .ok (Json.rereadFields manifest')) :
    RecordsAdded home fs fs'' (added ++ [b]) := by
  obtain ⟨⟨items, hitems, hrecords⟩, -⟩ := Ledger.add_cases hadded
  rw [← records_at_of_ledger hbefore] at hitems
  rw [← records_at_of_ledger hafter] at hrecords
  have hreread : ∀ added : List Backup,
      (added.map Backup.record).map Json.reread = added.map Backup.record := by
    intro added
    rw [List.map_map]
    exact List.map_congr_left fun b _ => (BackupEntry.ofBackup b).reread_record
  right
  rcases h with ⟨rfl, hsame⟩ | ⟨records, hstart, hnow⟩
  · exact ⟨items, hsame ▸ hitems, by simpa using hrecords⟩
  · refine ⟨records, hstart, ?_⟩
    obtain rfl := Except.ok.inj (hnow.symm.trans hitems)
    rw [hrecords, List.map_append, hreread, List.map_map, List.map_append, List.length_append,
      List.append_assoc, ← Function.iterate_succ']
    rfl

/-- The records count as added where the manifest stays. -/
theorem RecordsAdded.of_ledger (h : RecordsAdded home fs fs' added)
    (hledger : ledgerAt fs'' home = ledgerAt fs' home) : RecordsAdded home fs fs'' added := by
  have hsame : recordsAt fs'' home = recordsAt fs' home := by rw [recordsAt, hledger, recordsAt]
  rw [RecordsAdded, hsame]
  exact h

/-- A stored copy is there where nothing is written in its place. -/
theorem IsStored.of_changes (h : IsStored store home fs b name bytes)
    (hchanges : fs.ChangesOnly fs' files directories) (hcopy : ¬ files (copySpot home b.id name)) :
    IsStored store home fs' b name bytes :=
  { h with
    directory := hchanges.kept _ h.directory
    copy := hchanges.file hcopy h.copy }

/-- The backups of two files are different. -/
theorem is_of_inj {location' : Location} (hnames : ∀ name ∈ location, IsName name)
    (hnames' : ∀ name ∈ location', IsName name) (h : IsOf location b) (h' : IsOf location' b) :
    location = location' := by
  have hpath := congrArg Path.ofText (h.symm.trans h')
  rw [Path.of_text_text fun name hname => (hnames name hname).1,
    Path.of_text_text fun name hname => (hnames' name hname).1] at hpath
  exact (Path.mk.inj hpath).2

/-- Nothing was backed up where only directories were made and the store was opened. -/
theorem saved_of_changes {files : FileSystem} (hfiles : files.WellFormed)
    (hchanges : before.files.ChangesOnly files
      (fun l => l = draftSpot home ∨ l = ledgerSpot home) directories) :
    Saved store home disk work before { before with files } [] := by
  have houtside : ∀ l bytes, ¬ home <+: l → before.files.get? l = some (.file bytes) →
      files.get? l = some (.file bytes) := by
    intro l bytes hl hfile
    refine hchanges.file ?_ hfile
    rintro (rfl | rfl)
    · exact hl (List.prefix_append _ _)
    · exact hl (List.prefix_append _ _)
  refine ⟨hfiles, hchanges.toKeepsDirectories, rfl, le_rfl,
    fun l bytes hdraft hledger _ hfile => ?_,
    fun l bytes hl hfile => .inl ?_, .inl rfl, List.nodup_nil,
    fun b hb => absurd hb List.not_mem_nil, houtside⟩
  · exact hchanges.file (fun hl => hl.elim hdraft hledger) hfile
  · rw [houtside l bytes hl hfile, hfile]

/-- The store is opened, and nothing was backed up yet. -/
theorem saves_opened {directory : Path} (hfs : before.files.WellFormed)
    (hplain : directory.IsPlain) (hhome : before.files.place directory = home)
    (hids : HasFreshIds home directory before last)
    (h : (openAt directory disk).run before = (.ok store, now)) :
    Saves store home disk work before last now [] ∧
      RecordsAdded home before.files now.files [] := by
  obtain ⟨opened, rfl, hopened, hchanges, hledger, hok⟩ := open_cases hfs hplain h hhome
  obtain ⟨rfl, hopen⟩ := hok store rfl
  refine ⟨⟨saved_of_changes hopened hchanges, hopen, fun n hmade hlast => ?_⟩, .inl ⟨rfl, ?_⟩⟩
  · have hfresh := hids.fresh n hmade hlast
    refine (hchanges.same ?_ (hids.apart n hmade hlast)).trans hfresh.free
    simp [draftSpot, ledgerSpot, hfresh.not_draft, hfresh.not_ledger]
  · rw [recordsAt, hledger, recordsAt]

/-- What is saved stays so where only files with a backup are written. -/
theorem IsSaved.of_changes (h : IsSaved store home fs added location bytes)
    (hchanges : fs.ChangesOnly fs' files directories)
    (hcopies : ∀ b ∈ added, ∀ name, ¬ files (copySpot home b.id name))
    (hwritten : files location → ∃ b ∈ added, IsOf location b) :
    IsSaved store home fs' added location bytes := by
  unfold IsSaved at h ⊢
  cases hfind : added.find? fun b => IsOf location b with
  | none =>
      rw [hfind] at h
      refine hchanges.file (fun hlocation => ?_) h
      obtain ⟨b, hb, hof⟩ := hwritten hlocation
      exact absurd hof (by simpa using List.find?_eq_none.mp hfind b hb)
  | some b =>
      rw [hfind] at h
      obtain ⟨name, hstored⟩ := h
      exact ⟨name, hstored.of_changes hchanges (hcopies b (List.mem_of_find?_eq_some hfind) name)⟩

/-- What is saved stays so where a backup is added that holds what its file holds. -/
theorem IsSaved.add (h : IsSaved store home fs added location bytes)
    (hstored : fs.get? location = some (.file bytes) → IsOf location b →
      ∃ name, IsStored store home fs b name bytes) :
    IsSaved store home fs (added ++ [b]) location bytes := by
  unfold IsSaved at h ⊢
  rw [List.find?_append]
  cases hfind : added.find? fun b => IsOf location b with
  | some b' =>
      rw [hfind] at h
      exact h
  | none =>
      rw [hfind] at h
      by_cases hof : IsOf location b
      · rw [List.find?_cons_of_pos (by simpa using hof)]
        exact hstored h hof
      · rw [List.find?_cons_of_neg (by simpa using hof)]
        exact h

namespace Saves

/-- A change that leaves the stored copies alone, and outside the store writes only what is to be
written, where there is a backup, keeps what the backups save. -/
theorem of_changes (h : Saves store home disk work before last now added)
    (hfs' : host'.files.WellFormed) (hnewId : host'.newId = now.newId)
    (hmade : now.idsMade ≤ host'.idsMade)
    (hchanges : now.files.ChangesOnly host'.files files directories)
    (hfree : ∀ n, host'.idsMade ≤ n → n < last →
      ¬ files (home ++ [before.newId n]) ∧ ¬ directories (home ++ [before.newId n]))
    (hcopies : ∀ b ∈ added, ∀ name, ¬ files (copySpot home b.id name))
    (hothers : ∀ l bytes, now.files.get? l = some (.file bytes) → files l →
      l = draftSpot home ∨ l = ledgerSpot home ∨ ∃ w ∈ work, before.files.place w.1 = l)
    (hwritten : ∀ l, ¬ home <+: l → files l → (∃ b ∈ added, IsOf l b) ∧
      ∃ w ∈ work, before.files.place w.1 = l ∧
        ∃ left, disk.MayLeave w.1 w.2 left ∧ host'.files.get? l = some (.file left)) :
    Saves store home disk work before last host' added := by
  have hopen := h.isOpen.of_kept hfs' hchanges.toKeepsDirectories
  refine ⟨⟨hfs', h.kept.trans hchanges.toKeepsDirectories, hnewId.trans h.newId,
    h.made.trans hmade, fun l bytes hdraft hledger hsource hfile => ?_,
    fun l bytes hl hfile => ?_, .inr hopen.toStands, h.distinct, fun b hb => ?_,
    fun l bytes hl hfile => ?_⟩,
    hopen, fun n hn hlast => ?_⟩
  · have hnow := h.others l bytes hdraft hledger hsource hfile
    refine hchanges.file (fun hl => ?_) hnow
    rcases hothers l bytes hnow hl with hl | hl | ⟨path, hpath, hl⟩
    · exact hdraft hl
    · exact hledger hl
    · exact hsource path hpath hl
  · by_cases hl' : files l
    · exact .inr (hwritten l hl hl').2
    · rcases h.written l bytes hl hfile with hsame | ⟨w, hw, hplace, left, hleft, hnow⟩
      · exact .inl ((hchanges.file hl' (hsame.trans hfile)).trans hfile.symm)
      · exact .inr ⟨w, hw, hplace, left, hleft, hchanges.file hl' hnow⟩
  · obtain ⟨hnew, hsource, name, bytes, hstored⟩ := h.stored b hb
    exact ⟨hnew, hsource, name, bytes, hstored.of_changes hchanges (hcopies b hb name)⟩
  · exact (h.saved l bytes hl hfile).of_changes hchanges hcopies fun hl' => (hwritten l hl hl').1
  · obtain ⟨hfiles, hdirectories⟩ := hfree n hn hlast
    exact (hchanges.same hfiles hdirectories).trans (h.free n (hmade.trans hn) hlast)

/-- The id to come is fresh. -/
theorem fresh {directory : Path} (h : Saves store home disk work before last now added)
    (hids : HasFreshIds home directory before last) (hlast : now.idsMade < last) :
    IsFresh home now.files (now.newId now.idsMade) := by
  have hfresh := hids.fresh now.idsMade h.made hlast
  rw [h.newId]
  exact ⟨hfresh.name, hfresh.not_ledger, hfresh.not_draft, h.free _ le_rfl hlast⟩

/-- A backup writes nothing in the place of a copy that is there, or of an id to come. -/
theorem of_backup {directory : Path} (h : Saves store home disk work before last now added)
    (hids : HasFreshIds home directory before last) (hlast : now.idsMade < last)
    (hfs' : host'.files.WellFormed) (hnewId : host'.newId = now.newId)
    (hmade : host'.idsMade = now.idsMade + 1)
    (hchanges : now.files.ChangesOnly host'.files
      (fun l => l = draftSpot home ∨ l = ledgerSpot home ∨
        l = copySpot home (now.newId now.idsMade) name)
      (· = home ++ [now.newId now.idsMade])) :
    Saves store home disk work before last host' added := by
  have hfresh := h.fresh hids hlast
  refine h.of_changes hfs' hnewId (by omega) hchanges (fun n hn hlast' => ?_)
    (fun b hb name' hl => ?_) (fun l bytes hfile hl => ?_) fun l hl hfile => absurd ?_ hl
  · have hfreshN := hids.fresh n (by have := h.made; omega) hlast'
    have hne := hids.distinct now.idsMade n h.made (by omega) hlast'
    rw [h.newId]
    simp [draftSpot, ledgerSpot, copySpot, hfreshN.not_draft, hfreshN.not_ledger, Ne.symm hne]
  · -- The directory of a stored copy is there, and that of the new backup is not.
    obtain ⟨-, -, other, bytes, hstored⟩ := h.stored b hb
    rcases hl with hl | hl | hl
    · exact copy_ne_draft _ _ _ hl
    · exact copy_ne_ledger _ _ _ hl
    · have hid : b.id = now.newId now.idsMade := (List.cons.inj (List.append_cancel_left hl)).1
      have hthere := hstored.directory
      rw [hid, hfresh.free] at hthere
      cases hthere
  · rcases hl with hl | hl | rfl
    · exact .inl hl
    · exact .inr (.inl hl)
    · rw [no_copy_without h.wellFormed hfresh.free] at hfile
      cases hfile
  · rcases hfile with rfl | rfl | rfl <;> exact List.prefix_append _ _

/-- A backup of a file that is stored is added, and holds what the file holds. -/
theorem add {old new : Bytes} (h : Saves store home disk work before last now added)
    (hbefore : before.files.WellFormed) (hpath : (path, new) ∈ work)
    (hread : before.files.read path = .ok old) (hof : IsOf (before.files.place path) b)
    (hnew : before.files.get? (home ++ [b.id]) = none)
    (hdistinct : ∀ b' ∈ added, b'.id ≠ b.id)
    (hstored : IsStored store home now.files b name bytes)
    (hfile : ¬ home <+: before.files.place path →
      now.files.get? (before.files.place path) = some (.file bytes)) :
    Saves store home disk work before last now (added ++ [b]) := by
  refine { h with
    stands := .inr h.isOpen.toStands
    distinct := ?_
    stored := fun b' hb' => ?_
    saved := fun l bytes' hl hfile' => (h.saved l bytes' hl hfile').add fun hnow hofB => ?_ }
  · rw [List.map_append, List.nodup_append]
    refine ⟨h.distinct, by simp, fun id hid id' hid' => ?_⟩
    obtain ⟨b', hb', rfl⟩ := List.mem_map.mp hid
    exact List.mem_singleton.mp hid' ▸ hdistinct b' hb'
  · rcases List.mem_append.mp hb' with hb' | hb'
    · exact h.stored b' hb'
    · obtain rfl := List.mem_singleton.mp hb'
      exact ⟨hnew, ⟨_, hpath, hof⟩, name, bytes, hstored⟩
  · have hnames := hbefore.names _ _ (FileSystem.get?_of_read hread)
    obtain rfl := is_of_inj (hbefore.names _ _ hfile') hnames hofB hof
    rw [hfile hl] at hnow
    obtain rfl := Content.file.inj (Option.some.inj hnow)
    exact ⟨name, hstored⟩

/-- Backing up a file saves it, or fails and keeps what is saved. -/
theorem backup {directory : Path} {reason : String} {old new : Bytes}
    {r : Except BackupError String}
    (h : Saves store home disk work before last now added)
    (hrecords : RecordsAdded home before.files now.files added)
    (hbefore : before.files.WellFormed) (hids : HasFreshIds home directory before last)
    (hreads : disk.Reads store.ledgerPath)
    (hpath : (path, new) ∈ work) (hread : before.files.read path = .ok old)
    (hrun : (store.backup path reason disk).run now = (r, host')) (hlast : host'.idsMade ≤ last) :
    ∃ added', Saves store home disk work before last host' added' ∧
      RecordsAdded home before.files host'.files added' ∧
      (∀ id, r = .ok id → ∃ b ∈ added', IsOf (before.files.place path) b) := by
  rcases backup_ids hrun with ⟨⟨e, rfl⟩, rfl⟩ | hmade
  · exact ⟨added, h, hrecords, nofun⟩
  have hnext : now.idsMade < last := by omega
  have hfresh := h.fresh hids hnext
  obtain ⟨hnewId, hfs', ⟨e, rfl, -, hchanges⟩ | ⟨b, bytes, rfl, hid, -, -, htaken⟩⟩ :=
    backup_cases h.isOpen hfresh hreads hrun
  · refine ⟨added, h.of_backup hids hnext hfs' hnewId hmade
      (hchanges.mono (fun l hl => hl.elim .inl fun hl => .inr (.inr hl)) fun _ hl => hl),
      hrecords.of_ledger (ledger_at_of_changes hchanges ?_), nofun⟩
    rintro (hl | hl)
    · exact draft_ne_ledger home hl.symm
    · exact copy_ne_ledger _ _ _ hl.symm
  · have hsaves := h.of_backup hids hnext hfs' hnewId hmade (hid ▸ htaken.changes)
    have hstored := stored_of_taken hsaves.isOpen.toStands h.wellFormed
      (hid ▸ hfresh.name) htaken
    -- The file was read where the path led before, and the backup is of it.
    obtain ⟨location, hlocate, -⟩ := FileSystem.read_eq_ok_iff.mp hread
    obtain rfl := FileSystem.locate_eq_place hlocate
    have hof : IsOf (before.files.place path) b := by
      rw [IsOf, htaken.original,
        FileSystem.absolute_of_locate (FileSystem.locate_of_kept h.kept hlocate)]
    have hfile := FileSystem.get?_of_read htaken.read
    rw [FileSystem.place_eq h.kept.workingDirectory] at hfile
    have hnew : before.files.get? (home ++ [b.id]) = none := by
      rw [hid, h.newId]
      exact (hids.fresh _ h.made hnext).free
    -- Each copy has its directory, and that of the new one was not there.
    have hdistinct : ∀ b' ∈ added, b'.id ≠ b.id := by
      intro b' hb' hsame
      obtain ⟨-, -, name, bytes, hthere⟩ := h.stored b' hb'
      have hdirectory := hthere.directory
      rw [hsame, hid, hfresh.free] at hdirectory
      exact nomatch hdirectory
    obtain ⟨manifest, manifest', hledger, hadded, hafter⟩ := htaken.ledger
    refine ⟨added ++ [b], hsaves.add hbefore hpath hread hof hnew hdistinct hstored
        fun houtside => ?_,
      hrecords.add hledger hadded hafter, fun _ _ => ⟨b, by simp, hof⟩⟩
    refine htaken.changes.file ?_ hfile
    rintro (hl | hl | hl)
    · exact houtside (hl ▸ List.prefix_append _ _)
    · exact houtside (hl ▸ List.prefix_append _ _)
    · exact houtside (hl ▸ List.prefix_append _ _)

/-- Overwriting a file that has a backup and is not the manifest keeps what is saved, be it with all
that was to be written or with what the disk left of it. -/
theorem write {directory : Path} {old left : Bytes} {fs : FileSystem}
    (h : Saves store home disk work before last now added)
    (hrecords : RecordsAdded home before.files now.files added)
    (hbefore : before.files.WellFormed) (hids : HasFreshIds home directory before last)
    (hpath : (path, bytes) ∈ work) (hread : before.files.read path = .ok old)
    (hledger : before.files.place path ≠ ledgerSpot home)
    (hsaved : ∃ b ∈ added, IsOf (before.files.place path) b)
    (hleft : disk.MayLeave path bytes left) (hwrite : now.files.write path left = .ok fs) :
    Saves store home disk work before last { now with files := fs } added ∧
      RecordsAdded home before.files fs added := by
  obtain ⟨location, hlocate, hold⟩ := FileSystem.read_eq_ok_iff.mp hread
  obtain rfl := FileSystem.locate_eq_place hlocate
  obtain ⟨hfs, hchanges, hnew⟩ := FileSystem.write_changes h.wellFormed
    (fun _ => hbefore.is_plain hlocate hold) hwrite
  rw [FileSystem.place_eq h.kept.workingDirectory] at hchanges hnew
  -- A file stood there before, so it is neither a copy nor the directory of one.
  have hapart : ∀ l, before.files.get? l = none → l ≠ before.files.place path := by
    rintro l hnone rfl
    rw [hnone] at hold
    exact nomatch hold
  refine ⟨h.of_changes hfs rfl le_rfl hchanges (fun n hn hlast => ⟨?_, fun hl => hl⟩)
    (fun b hb name => hapart _ ?_) (fun l _ _ hl => .inr (.inr ⟨_, hpath, hl.symm⟩))
    fun l _ hl => ⟨hl ▸ hsaved, _, hpath, hl.symm, left, hleft, hl ▸ hnew⟩,
    hrecords.of_ledger (ledger_at_of_changes hchanges (Ne.symm hledger))⟩
  · exact hapart _ (hids.fresh n (h.made.trans hn) hlast).free
  · exact no_copy_without hbefore (h.stored b hb).1 name

end Saves

end Store

end Excise
