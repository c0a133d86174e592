import Excise.Proofs.Backup.Sound

/-!
# Copies that can be restored

A copy that a backup left in the store is there as long as the store is kept (`Store.IsStored`), and
restoring it succeeds, as long as no directory stands in the place of the file and no file in that
of a directory above it (`restore_succeeds`). It gives the file its content back, changes no other
file outside the store, and sets the flag of the entry. A backup that is given the id of an earlier
one may write over its copy (`copy_overwritten`).
-/

namespace Excise

namespace Store

open Ledger (BackupEntry)

variable {store : Store} {home location : Location} {fs fs' : FileSystem} {host host' : Host}
  {entries : List BackupEntry} {e : BackupEntry} {id : Json} {path : Path} {b : Ledger.Backup}
  {name : String}
  {bytes : Bytes}

/-- The copy of a backup is in the store under the path and with the digest of its record. -/
structure IsStored (store : Store) (home : Location) (fs : FileSystem) (b : Ledger.Backup)
    (name : String) (bytes : Bytes) : Prop where
  idName : IsName b.id
  fileName : IsName name
  copied : b.copyPath = ((store.directory.child b.id).child name).text
  usable : FileSystem.IsUsable ((store.directory.child b.id).child name)
  hash : b.fileHash = Digest.sha256Hex bytes
  directory : fs.get? (home ++ [b.id]) = some .directory
  copy : fs.get? (copySpot home b.id name) = some (.file bytes)

/-- A backup that was taken is stored. -/
theorem stored_of_taken {reason : String} (hstands : store.Stands home fs') (hfs : fs.WellFormed)
    (hid : IsName b.id) (h : IsTaken store home path reason fs fs' b bytes) :
    IsStored store home fs' b path.name bytes := by
  obtain ⟨location, hlocate, hfile⟩ := FileSystem.read_eq_ok_iff.mp h.read
  obtain ⟨above, rfl⟩ := hfs.file_name hlocate hfile
  have hdirectory := (FileSystem.leads_of_locate_child h.located).2
  rw [hstands.place_child hid.2.1] at hdirectory
  exact ⟨hid, hfs.names _ _ hfile _ (by simp), h.copied, FileSystem.is_usable_of_locate h.located,
    h.hash, hdirectory, h.copy⟩

namespace IsStored

variable (h : IsStored store home fs b name bytes)

include h

/-- A stored copy is there as long as the store is kept. -/
theorem of_keeps (hkeeps : KeepsStore home fs fs') : IsStored store home fs' b name bytes :=
  { h with
    directory := hkeeps.directories _ (List.prefix_append _ _) h.directory
    copy := hkeeps.files _ _ (List.prefix_append _ _) (copy_ne_draft _ _ _)
      (copy_ne_ledger _ _ _) h.copy }

/-- The path of the record leads to the copy. -/
theorem located (hstands : store.Stands home fs) :
    fs.locate (Path.ofText b.copyPath) = .ok (copySpot home b.id name) := by
  have hplain := (hstands.plain.child h.idName.1).child h.fileName.1
  have husable : FileSystem.IsUsable (store.directory.child b.id) :=
    h.usable.of_child h.fileName.1.1
  rw [h.copied, Path.of_text_text hplain, copySpot]
  have hspot : home ++ [b.id, name] = home ++ [b.id] ++ [name] := by simp
  rw [hspot]
  exact FileSystem.locate_child (hstands.locate_child h.idName husable) h.directory h.fileName
    h.usable

/-- The copy can be read under the path of the record. -/
theorem read (hstands : store.Stands home fs) : fs.read (Path.ofText b.copyPath) = .ok bytes :=
  FileSystem.read_eq_ok_iff.mpr ⟨_, h.located hstands, h.copy⟩

theorem intact (hstands : store.Stands home fs) : IsIntact fs b :=
  ⟨bytes, h.read hstands, h.hash⟩

end IsStored

/-- Where a backup gets the id of an earlier one, of a file of the same name, its copy takes the
place of the earlier one. The record of the earlier one leads to it, then. -/
theorem copy_overwritten {reason newId : String} {disk : Disk}
    (hopen : store.IsOpen home host.files) (hreads : disk.Reads store.ledgerPath)
    (hstored : IsStored store home host.files b path.name bytes)
    (hid : host.newId host.idsMade = b.id)
    (h : (store.backup path reason disk).run host = (.ok newId, host')) :
    ∃ new, host.files.read path = .ok new ∧
      host'.files.read (Path.ofText b.copyPath) = .ok new := by
  have hlocated := hstored.located hopen.toStands
  have hplain := (hopen.plain.child hstored.idName.1).child hstored.fileName.1
  have hpath : Path.ofText b.copyPath = (store.directory.child b.id).child path.name := by
    rw [hstored.copied, Path.of_text_text hplain]
  rw [hpath] at hlocated ⊢
  unfold backup at h
  obtain ⟨e, hr, -⟩ | ⟨found, -, hrest⟩ := BackupAction.reading_bind_cases h
  · cases hr
  cases found with
  | false => cases (Prod.mk.inj hrest).1
  | true =>
  rw [if_neg (by simp), run_bind_of_ok (BackupAction.run_make_id _)] at hrest
  simp only [hid] at hrest
  -- The directory of the earlier backup is there.
  obtain ⟨e, files, hr, -⟩ | ⟨made, hmakes, hrest⟩ := BackupAction.changing_bind_cases hrest
  · cases hr
  have hdirectory := FileSystem.make_directories_of_directory
    (hopen.locate_child hstored.idName (hstored.usable.of_child hstored.fileName.1.1))
    hstored.directory
  obtain rfl := Except.ok.inj (hdirectory.symm.trans hmakes)
  obtain ⟨e, hr, -⟩ | ⟨new, hread, hrest⟩ := hash_bind_cases hrest
  · cases hr
  -- So is its copy, a file that is written over.
  obtain ⟨e, files, hr, -⟩ | ⟨copied, hcopies, hrest⟩ := BackupAction.changing_bind_cases hrest
  · cases hr
  have hfree : ¬ host.files.HasDirectory ((store.directory.child b.id).child path.name) := by
    rw [FileSystem.HasDirectory, FileSystem.at?_of_locate hlocated, hstored.copy]
    simp
  obtain ⟨new', hread', hcopied, hchanges, hfile, -⟩ :=
    FileSystem.copy_changes hopen.wellFormed (fun _ => hplain) hfree hcopies
  obtain rfl := Except.ok.inj (hread.symm.trans hread')
  rw [← FileSystem.locate_eq_place hlocated] at hchanges hfile
  rw [run_bind_of_ok (BackupAction.run_files _)] at hrest
  -- Adding the record leaves the copy as it is.
  have hopenNow : store.IsOpen home
      { host with files := copied, idsMade := host.idsMade + 1 }.files :=
    hopen.of_kept hcopied hchanges.toKeepsDirectories
  obtain ⟨e, -, hr⟩ | ⟨u, last, hadd, hreturn⟩ := run_bind_cases hrest
  · cases hr
  obtain ⟨-, rfl⟩ := Prod.mk.inj hreturn
  obtain ⟨files, timesTaken, rfl, -, ⟨e, hr, -⟩ | ⟨-, hboth, -⟩⟩ :=
    add_record_cases hopenNow hreads hadd
  · cases hr
  have hkept := hchanges.toKeepsDirectories.trans hboth.toKeepsDirectories
  refine ⟨new, hread, FileSystem.read_eq_ok_iff.mpr
    ⟨_, FileSystem.locate_of_kept hkept hlocated, hboth.file ?_ hfile⟩⟩
  exact fun hl => hl.elim (copy_ne_draft _ _ _) (copy_ne_ledger _ _ _)

/-- The flag of an id can be set where the records are those of entries. -/
theorem set_restored_succeeds (hopen : store.IsOpen home host.files)
    (hrecords : recordsAt host.files home = .ok (entries.map BackupEntry.record))
    (hready : IsReady home host.files) (id : Json) :
    ∃ host', (store.setRestored id).run host = (.ok (), host') := by
  have hread := run_read_ledger hopen (Disk.reads_reliable _)
  cases hledger : ledgerAt host.files home with
  | error error =>
      rw [recordsAt, hledger] at hrecords
      cases hrecords
  | ok manifest =>
      rw [hledger] at hread
      have hset : Ledger.setRestored manifest id = _ :=
        Ledger.set_restored_entries ((records_at_of_ledger hledger).symm.trans hrecords)
      unfold setRestored
      rw [run_bind_of_ok hread, run_bind_of_ok ((run_of_except _ host).trans (by rw [hset]))]
      exact write_ledger_succeeds hopen hready _

/-- Nothing is in the way of a file: no directory stands in its place, and no file in that of a
directory above it. -/
structure IsClear (fs : FileSystem) (location : Location) : Prop where
  no_directory : fs.get? location ≠ some .directory
  no_file : ∀ front, front <+: location → front ≠ location →
    ∀ bytes, fs.get? front ≠ some (.file bytes)

/-- What leads to a file outside the store is neither the manifest nor its draft. -/
theorem not_ledger_above {front : Location} (houtside : ¬ home <+: location)
    (hfront : front <+: location) : front ≠ draftSpot home ∧ front ≠ ledgerSpot home := by
  constructor
  · rintro rfl
    exact houtside ((List.prefix_append _ _).trans hfront)
  · rintro rfl
    exact houtside ((List.prefix_append _ _).trans hfront)

/-- A file can be copied to a place outside it where nothing is in the way, once the directories
above that are made. -/
theorem put_back_succeeds {source : Path} {spot : Location} (hfs : fs.WellFormed)
    (hsource : fs.locate source = .ok spot) (hfile : fs.get? spot = some (.file bytes))
    (hnames : path.IsNamed) (husable : FileSystem.IsUsable path) (hother : spot ≠ fs.place path)
    (hclear : IsClear fs (fs.place path)) :
    ∃ made copied, fs.makeDirectories path.parent = .ok made ∧
      made.copy source path = .ok copied ∧
      copied.WellFormed ∧ copied.get? (fs.place path) = some (.file bytes) ∧
      fs.ChangesOnly copied (· = fs.place path)
        (fun l => l <+: fs.place path ∧ l ≠ fs.place path) := by
  -- A path begins at a directory, so that of the file has a name.
  have hparts : path.parts ≠ [] := by
    intro hempty
    refine hclear.no_directory ?_
    rw [FileSystem.place_of_named hnames, hempty, List.append_nil]
    exact hfs.base_directory path
  obtain ⟨above, part, rfl⟩ := path.nil_or_child.resolve_left hparts
  have hplace : fs.place (above.child part) = fs.place above ++ [part] :=
    FileSystem.place_child_of_name above (hnames part (by simp [Path.child])).2.1
  rw [hplace] at hother hclear ⊢
  have hway : ∀ l, l <+: fs.place above → l <+: fs.place above ++ [part] ∧
      l ≠ fs.place above ++ [part] := by
    intro l hl
    refine ⟨hl.trans (List.prefix_append _ _), ?_⟩
    rintro rfl
    have hlength := hl.length_le
    simp at hlength
  -- Once the directory of the file is made, the source is still where it was.
  obtain ⟨made, hmakes, hmade, hchanges, htarget⟩ :=
    FileSystem.make_parent_succeeds hfs hnames husable
      fun front hfront => hclear.no_file front (hway front hfront).1 (hway front hfront).2
  have hkept : fs.ChangesOnly made (fun _ => False)
      (fun l => l <+: fs.place above ++ [part] ∧ l ≠ fs.place above ++ [part]) :=
    hchanges.mono (fun _ hl => hl) hway
  have hsource' := FileSystem.locate_of_kept hkept.toKeepsDirectories hsource
  have hcopy := hkept.file (fun hl => hl) hfile
  have hfree := hkept.free (fun hl => hl.2 rfl) hclear.no_directory
  obtain ⟨hcopied, -, -⟩ := FileSystem.write_changes hmade (fun _ => hnames.is_plain)
    (FileSystem.write_eq_ok_iff.mpr ⟨_, htarget, hfree, rfl⟩)
  refine ⟨made, _, (Path.parent_of_child above part).symm ▸ hmakes,
    FileSystem.copy_succeeds hsource' hcopy htarget hfree hother, hcopied, ?_,
    (hkept.mono (fun _ => False.elim) fun _ hl => hl).trans
      ((FileSystem.put_file_changes hfree).mono (fun _ hl => hl) fun _ => False.elim)⟩
  rw [FileSystem.get?_put (FileSystem.ne_root hfree), if_pos rfl]

/-- The copy of an entry can be brought back where nothing is in the way. -/
theorem copy_back_succeeds (hstands : store.Stands home fs)
    (hstored : IsStored store home fs b name bytes) (hnames : path.IsNamed)
    (husable : FileSystem.IsUsable path) (houtside : ¬ home <+: fs.place path)
    (hclear : IsClear fs (fs.place path)) :
    ∃ made copied, fs.makeDirectories path.parent = .ok made ∧
      made.copy (Path.ofText b.copyPath) path = .ok copied ∧
      copied.WellFormed ∧ copied.get? (fs.place path) = some (.file bytes) ∧
      fs.ChangesOnly copied (· = fs.place path)
        (fun l => l <+: fs.place path ∧ l ≠ fs.place path) :=
  put_back_succeeds hstands.wellFormed (hstored.located hstands) hstored.copy hnames husable
    (fun heq => houtside (heq ▸ List.prefix_append _ _)) hclear

/-- Restoring a pending backup whose copy is intact sets its flag once the copy was brought back. -/
theorem run_restore_intact {made copied : FileSystem} (hopen : store.IsOpen home host.files)
    (hrecords : recordsAt host.files home = .ok (entries.map BackupEntry.record))
    (hfind : (entries.find? fun e => e.HasId id) = some e) (hpending : e.restored = false)
    (hintact : IsIntact host.files e.backup)
    (hmakes : host.files.makeDirectories (Path.ofText e.backup.originalPath).parent = .ok made)
    (hcopies : made.copy (Path.ofText e.backup.copyPath) (Path.ofText e.backup.originalPath) =
      .ok copied) :
    (store.restore id).run host = (store.setRestored id).run { host with files := copied } := by
  rw [run_restore_of_records hopen hrecords, hfind]
  simp only [hpending, Bool.false_eq_true, if_false]
  rcases run_restore_record_cases store host id e with ⟨-, -, -, herror⟩ |
    ⟨made', error, -, hmakes', herror, -⟩ | ⟨made', copied', -, hmakes', hcopies', hrun⟩
  · obtain ⟨error, herror⟩ := herror hintact
    exact nomatch hmakes.symm.trans herror
  · obtain rfl := Except.ok.inj (hmakes.symm.trans hmakes')
    exact nomatch hcopies.symm.trans herror
  · obtain rfl := Except.ok.inj (hmakes.symm.trans hmakes')
    obtain rfl := Except.ok.inj (hcopies.symm.trans hcopies')
    exact hrun

/-- Restoring a stored backup that is pending succeeds where nothing is in the way of the file. The
file has the content of the copy then, nothing else is written outside the store, and the flag of
the entry is set. -/
theorem restore_succeeds (hsound : IsSound store home host.files entries)
    (hready : IsReady home host.files)
    (hfind : (entries.find? fun e => e.HasId id) = some e) (hpending : e.restored = false)
    (hstored : IsStored store home host.files e.backup name bytes)
    (hpath : Path.ofText e.backup.originalPath = path) (hnames : path.IsNamed)
    (husable : FileSystem.IsUsable path) (hplace : host.files.place path = location)
    (houtside : ¬ home <+: location) (hclear : IsClear host.files location) :
    ∃ host', (store.restore id).run host = (.ok (), host') ∧
      host'.files.get? location = some (.file bytes) ∧
      IsSound store home host'.files (Ledger.markFirst id entries) ∧
      KeepsStore home host.files host'.files ∧
      host.files.ChangesOnly host'.files
        (fun l => l = location ∨ l = draftSpot home ∨ l = ledgerSpot home)
        (fun l => l <+: location ∧ l ≠ location) := by
  subst hplace
  obtain ⟨made, copied, hmakes, hcopies, hcopiedFiles, hfile, hchanges⟩ :=
    copy_back_succeeds hsound.isOpen.toStands hstored hnames husable houtside hclear
  -- Nothing is written in the store.
  obtain ⟨hcopied, hkeepsCopied⟩ := sound_of_same hsound hcopiedFiles hchanges
    (fun l hl hwritten => absurd (hwritten ▸ hl) houtside)
    fun l hl _ => not_ledger_above houtside hl.1
  have hcopied' : IsSound store home { host with files := copied }.files entries := hcopied
  obtain ⟨host', hset⟩ :=
    set_restored_succeeds hcopied'.isOpen hcopied'.records (hkeepsCopied.ready hready) id
  obtain ⟨hsound', hkeeps, hboth⟩ := set_restored_sound hcopied' hset
  refine ⟨host', ?_, hboth.file (fun hl => ?_) hfile, hsound', hkeepsCopied.trans hkeeps,
    (hchanges.mono (fun _ hl => .inl hl) fun _ hl => hl).trans
      (hboth.mono (fun _ hl => .inr hl) fun _ => False.elim)⟩
  · rw [run_restore_intact hsound.isOpen hsound.records hfind hpending
      (hstored.intact hsound.isOpen.toStands) (hpath ▸ hmakes)
      (hpath ▸ hcopies), hset]
  · obtain ⟨hdraft, hledger⟩ := not_ledger_above houtside List.prefix_rfl
    exact hl.elim hdraft hledger

end Store

end Excise
