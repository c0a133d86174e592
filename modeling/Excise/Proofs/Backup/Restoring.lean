import Excise.Proofs.Backup.Taking

/-!
# Restoring a backup

Restoring the backup of an entry reads its copy, compares the digest, copies it over the file it was
taken from, and sets the flag of the entry (`run_restore_record_cases`). It writes to one place
outside the store (`copied_back`), if the path of the file does not lead through the store
(`Store.Avoids`).
-/

namespace Excise

namespace Store

open Ledger (BackupEntry)

variable {store : Store} {home : Location} {fs fs' : FileSystem} {host host' : Host} {id : Json}
  {e : BackupEntry} {entries : List BackupEntry} {manifest : Fields} {path : Path} {bytes : Bytes}

/-- Listing the records reads the manifest. -/
theorem run_records (h : store.IsOpen home host.files) :
    store.records.run host = (recordsAt host.files home, host) := by
  unfold records recordsAt
  cases hledger : ledgerAt host.files home with
  | error error =>
      rw [run_bind_of_error (by rw [run_read_ledger h (Disk.reads_reliable _), hledger])]
      rfl
  | ok manifest =>
      rw [run_bind_of_ok (by rw [run_read_ledger h (Disk.reads_reliable _), hledger]),
        run_of_except]
      rfl

/-- Finding a record reads the manifest. -/
theorem run_find (h : store.IsOpen home host.files) (id : Json) :
    (store.find? id).run host = (recordsAt host.files home >>= Ledger.find? id, host) := by
  unfold find?
  cases hrecords : recordsAt host.files home with
  | error error =>
      rw [run_bind_of_error (by rw [run_records h, hrecords])]
      rfl
  | ok records =>
      rw [run_bind_of_ok (by rw [run_records h, hrecords]), run_of_except]
      rfl

/-- Where the records are those of entries, what restoring does depends on the first entry of the
id. -/
theorem run_restore_of_records (hopen : store.IsOpen home host.files)
    (hrecords : recordsAt host.files home = .ok (entries.map BackupEntry.record)) (id : Json) :
    (store.restore id).run host =
      match entries.find? fun e => e.HasId id with
      | none => (.error (.unknownBackup (idText id)), host)
      | some e =>
          if e.restored then (.ok (), host) else (store.restoreRecord id e.fields).run host := by
  have hfind := run_find hopen id
  rw [hrecords] at hfind
  have hfound : (store.find? id).run host =
      (.ok ((entries.find? fun e => e.HasId id).map BackupEntry.fields), host) := by
    rw [hfind, ← Ledger.find_entries]
    rfl
  unfold restore
  rw [run_bind_of_ok hfound]
  cases entries.find? fun e => e.HasId id with
  | none => rfl
  | some e => cases hrestored : e.restored <;> simp [hrestored]

/-- Setting a flag fails and leaves the manifest as it is, or writes the manifest with the flag. -/
theorem set_restored_cases {r : Except BackupError Unit} (hopen : store.IsOpen home host.files)
    (h : (store.setRestored id).run host = (r, host')) :
    ∃ files, host' = { host with files } ∧ files.WellFormed ∧
      ((∃ error, r = .error error ∧
          host.files.ChangesOnly files (· = draftSpot home) fun _ => False) ∨
        (r = .ok () ∧
          host.files.ChangesOnly files (fun l => l = draftSpot home ∨ l = ledgerSpot home)
            (fun _ => False) ∧
          files.get? (draftSpot home) = none ∧
          ∃ manifest manifest', ledgerAt host.files home = .ok manifest ∧
            Ledger.setRestored manifest id = .ok manifest' ∧
            files.get? (ledgerSpot home) =
              some (.file (Bytes.ofText (Json.print (.object manifest')))))) := by
  unfold setRestored at h
  obtain ⟨error, -, rfl, rfl⟩ | ⟨manifest, hledger, hrest⟩ :=
    run_bind_unchanged (run_read_ledger hopen (Disk.reads_reliable _)) h
  · exact ⟨host.files, rfl, hopen.wellFormed, .inl ⟨error, rfl, .refl _ _ _⟩⟩
  obtain ⟨error, -, rfl, rfl⟩ | ⟨manifest', hsets, hwrite⟩ :=
    run_bind_unchanged (run_of_except _ _) hrest
  · exact ⟨host.files, rfl, hopen.wellFormed, .inl ⟨error, rfl, .refl _ _ _⟩⟩
  obtain ⟨files, rfl, hfiles, ⟨error, rfl, hdraft⟩ | ⟨rfl, -, hboth, hgone, hfile⟩⟩ :=
    write_ledger_cases hopen.toStands hwrite
  · exact ⟨files, rfl, hfiles, .inl ⟨error, rfl, hdraft⟩⟩
  · exact ⟨files, rfl, hfiles,
      .inr ⟨rfl, hboth, hgone, manifest, manifest', hledger, hsets, hfile⟩⟩

/-- Where the records are those of entries, setting the flag of an id marks the first entry of
it. -/
theorem set_restored_marks (hopen : store.IsOpen home host.files)
    (hrecords : recordsAt host.files home = .ok (entries.map BackupEntry.record)) (he : e ∈ entries)
    (h : (store.setRestored id).run host = (.ok (), host')) :
    host'.files.WellFormed ∧
      host.files.ChangesOnly host'.files (fun l => l = draftSpot home ∨ l = ledgerSpot home)
        (fun _ => False) ∧
      IsReady home host'.files ∧
      recordsAt host'.files home = .ok ((Ledger.markFirst id entries).map BackupEntry.record) := by
  obtain ⟨files, rfl, hfiles, ⟨error, hr, -⟩ |
    ⟨-, hboth, hgone, manifest, manifest', hbefore, hset, hfile⟩⟩ := set_restored_cases hopen h
  · exact nomatch hr
  rw [records_at_of_ledger hbefore] at hrecords
  obtain ⟨hmarked, hreadable⟩ :=
    Ledger.set_restored_cases (readable_of_ledger hbefore) hrecords he hset
  refine ⟨hfiles, hboth, ⟨by simp [hgone], by simp [hfile]⟩, ?_⟩
  rw [records_at_of_ledger (ledger_at_written hreadable hfile), hmarked]

/-- The copy of a backup is there, with the digest of its record. -/
def IsIntact (fs : FileSystem) (b : Ledger.Backup) : Prop :=
  ∃ bytes, fs.read (Path.ofText b.copyPath) = .ok bytes ∧ b.fileHash = Digest.sha256Hex bytes

theorem run_hash_file (h : host.files.read path = .ok bytes) :
    (hashFile path).run host = (.ok (Digest.sha256Hex bytes), host) := by
  unfold hashFile
  rw [run_bind_of_ok (BackupAction.run_reading_of_ok h)]
  rfl

/-- Restoring an entry whose copy is not intact fails. -/
theorem run_restore_record_of_damaged (h : ¬ IsIntact host.files e.backup) :
    ∃ error : BackupError, error.Separable ∧
      (store.restoreRecord id e.fields).run host = (.error error, host) := by
  unfold restoreRecord
  rw [BackupEntry.required_copy, BackupEntry.required_original, BackupEntry.required_hash,
    run_bind_of_ok (run_of_except _ host), run_bind_of_ok (run_of_except _ host)]
  cases hlook : host.files.look (Path.ofText e.backup.copyPath) with
  | error error =>
      exact ⟨.files error, trivial, run_bind_of_error (BackupAction.run_reading_of_error hlook)⟩
  | ok found =>
      rw [run_bind_of_ok (BackupAction.run_reading_of_ok hlook)]
      cases found with
      | false => exact ⟨.missingCopy _, trivial, rfl⟩
      | true =>
          rw [if_neg (by simp)]
          cases hread : host.files.read (Path.ofText e.backup.copyPath) with
          | error error =>
              have hhash : (hashFile (Path.ofText e.backup.copyPath)).run host =
                  (.error (.files error), host) := by
                unfold hashFile
                exact run_bind_of_error (BackupAction.run_reading_of_error hread)
              exact ⟨.files error, trivial, run_bind_of_error hhash⟩
          | ok bytes =>
              have hother : e.backup.fileHash ≠ Digest.sha256Hex bytes :=
                fun hsame => h ⟨bytes, hread, hsame⟩
              rw [run_bind_of_ok (run_hash_file hread), run_bind_of_ok (run_of_except _ host),
                if_pos (by simpa [Json.text?] using hother)]
              exact ⟨.modifiedCopy _, trivial, rfl⟩

/-- Restoring an entry whose copy is intact puts the copy back and sets the flag. -/
theorem run_restore_record_of_intact (h : IsIntact host.files e.backup) :
    (store.restoreRecord id e.fields).run host = (do
      BackupAction.changing (.makeDirectories (Path.ofText e.backup.originalPath).parent)
      BackupAction.changing
        (.copy (Path.ofText e.backup.copyPath) (Path.ofText e.backup.originalPath))
      store.setRestored id : BackupAction Unit).run host := by
  obtain ⟨bytes, hread, hhash⟩ := h
  obtain ⟨location, hlocate, hfile⟩ := FileSystem.read_eq_ok_iff.mp hread
  have hlook : host.files.look (Path.ofText e.backup.copyPath) = .ok true := by
    rw [FileSystem.look_of_locate hlocate, hfile]
    rfl
  unfold restoreRecord
  rw [BackupEntry.required_copy, BackupEntry.required_original, BackupEntry.required_hash,
    run_bind_of_ok (run_of_except _ host), run_bind_of_ok (run_of_except _ host),
    run_bind_of_ok (BackupAction.run_reading_of_ok hlook), if_neg (by simp),
    run_bind_of_ok (run_hash_file hread), run_bind_of_ok (run_of_except _ host),
    if_neg (by simp [Json.text?, hhash])]

/-- Restoring an entry fails before anything is copied, or sets the flag once the copy is back. -/
theorem run_restore_record_cases (store : Store) (host : Host) (id : Json) (e : BackupEntry) :
    (∃ error : BackupError, error.Separable ∧
      (store.restoreRecord id e.fields).run host = (.error error, host) ∧
      (IsIntact host.files e.backup → ∃ error,
        host.files.makeDirectories (Path.ofText e.backup.originalPath).parent = .error error)) ∨
    (∃ made error, IsIntact host.files e.backup ∧
      host.files.makeDirectories (Path.ofText e.backup.originalPath).parent = .ok made ∧
      made.copy (Path.ofText e.backup.copyPath) (Path.ofText e.backup.originalPath) =
        .error error ∧
      (store.restoreRecord id e.fields).run host =
        (.error (.files error), { host with files := made })) ∨
    ∃ made copied, IsIntact host.files e.backup ∧
      host.files.makeDirectories (Path.ofText e.backup.originalPath).parent = .ok made ∧
      made.copy (Path.ofText e.backup.copyPath) (Path.ofText e.backup.originalPath) = .ok copied ∧
      (store.restoreRecord id e.fields).run host =
        (store.setRestored id).run { host with files := copied } := by
  by_cases hintact : IsIntact host.files e.backup
  case neg =>
    obtain ⟨error, hseparable, hrun⟩ : ∃ error : BackupError, error.Separable ∧
        (store.restoreRecord id e.fields).run host = (.error error, host) :=
      run_restore_record_of_damaged hintact
    exact .inl ⟨error, hseparable, hrun, fun h => absurd h hintact⟩
  rw [run_restore_record_of_intact hintact]
  cases hmakes : host.files.makeDirectories (Path.ofText e.backup.originalPath).parent with
  | error error =>
      exact .inl ⟨.files error, trivial, run_bind_of_error (BackupAction.run_changing_of_error
        (show Change.whole _ (.makeDirectories _) = _ from hmakes)), fun _ => ⟨error, rfl⟩⟩
  | ok made =>
      -- What follows runs where the directories are made.
      have hmade : (BackupAction.changing
          (.makeDirectories (Path.ofText e.backup.originalPath).parent)).run host =
            (.ok (), { host with files := made }) :=
        BackupAction.run_changing_of_ok (show Change.whole _ (.makeDirectories _) = _ from hmakes)
      rw [run_bind_of_ok hmade]
      cases hcopies : made.copy (Path.ofText e.backup.copyPath)
          (Path.ofText e.backup.originalPath) with
      | error error =>
          exact .inr (.inl ⟨made, error, hintact, rfl, hcopies,
            run_bind_of_error (BackupAction.run_changing_of_error
              (show Change.whole _ (.copy _ _) = _ from hcopies))⟩)
      | ok copied =>
          exact .inr (.inr ⟨made, copied, hintact, rfl, hcopies,
            run_bind_of_ok (BackupAction.run_changing_of_ok
              (show Change.whole _ (.copy _ _) = _ from hcopies))⟩)

/-- Restoring an entry fails before anything was copied, or goes on to set its flag. -/
theorem restore_record_cases {r : Except BackupError Unit}
    (h : (store.restoreRecord id e.fields).run host = (r, host')) :
    (∃ error files, r = .error error ∧ host' = { host with files } ∧
      (files = host.files ∨
        host.files.makeDirectories (Path.ofText e.backup.originalPath).parent = .ok files)) ∨
    ∃ bytes made copied, host.files.read (Path.ofText e.backup.copyPath) = .ok bytes ∧
      e.backup.fileHash = Digest.sha256Hex bytes ∧
      host.files.makeDirectories (Path.ofText e.backup.originalPath).parent = .ok made ∧
      made.copy (Path.ofText e.backup.copyPath) (Path.ofText e.backup.originalPath) = .ok copied ∧
      (store.setRestored id).run { host with files := copied } = (r, host') := by
  rcases run_restore_record_cases store host id e with ⟨error, -, hrun, -⟩ |
    ⟨made, error, -, hmakes, -, hrun⟩ | ⟨made, copied, ⟨bytes, hread, hhash⟩, hmakes, hcopies, hrun⟩
  · obtain ⟨rfl, rfl⟩ := Prod.mk.inj (hrun.symm.trans h)
    exact .inl ⟨error, host.files, rfl, rfl, .inl rfl⟩
  · obtain ⟨rfl, rfl⟩ := Prod.mk.inj (hrun.symm.trans h)
    exact .inl ⟨_, made, rfl, rfl, .inr hmakes⟩
  · exact .inr ⟨bytes, made, copied, hread, hhash, hmakes, hcopies, hrun.symm.trans h⟩

/-- The path leads nowhere into the store. -/
def Avoids (home : Location) (fs : FileSystem) (path : Path) : Prop :=
  ∀ location, fs.IsOnWay path location → ¬ home <+: location

/-- Where a path leads depends on the working directory alone. -/
theorem Avoids.of_same (h : Avoids home fs path)
    (hworking : fs'.workingDirectory = fs.workingDirectory) : Avoids home fs' path := by
  rintro location ⟨front, hfront, rfl⟩
  rw [FileSystem.place_eq hworking]
  exact h _ ⟨front, hfront, rfl⟩

/-- A path that avoids the store leads to a place outside it. -/
theorem Avoids.place (h : Avoids home fs path) : ¬ home <+: fs.place path :=
  h _ ⟨path.parts, List.prefix_rfl, rfl⟩

/-- What leads to the directory above avoids the store too. -/
theorem Avoids.parent (h : Avoids home fs path) {location : Location}
    (hlocation : fs.IsOnWay path.parent location) : ¬ home <+: location := by
  obtain ⟨front, hfront, rfl⟩ := hlocation
  exact h _ ⟨front, hfront.trans (List.dropLast_prefix _), rfl⟩

/-- A path to a place outside the store avoids it, if it does not go up. -/
theorem avoids_of_place (hup : ∀ part ∈ path.parts, part ≠ "..") (h : ¬ home <+: fs.place path) :
    Avoids home fs path :=
  fun _ hway hhome => h (hhome.trans (hway.prefix_place hup))

/-- An absolute path to a place outside the store avoids it. -/
theorem avoids_absolute {location : Location} (hnames : ∀ name ∈ location, name ≠ "..")
    (h : ¬ home <+: location) (fs : FileSystem) : Avoids home fs ⟨.absolute, location⟩ :=
  avoids_of_place hnames (by rwa [FileSystem.place_absolute hnames])

/-- A copy to a path that leads outside the store is written to one place outside it, which is that
of the path unless a directory stands there. -/
theorem copied_back {made copied : FileSystem} {source destination : Path}
    (hmade : made.WellFormed) (hhome : made.get? home = some .directory)
    (hplain : destination.IsPlain) (hplace : ¬ home <+: made.place destination)
    (h : made.copy source destination = .ok copied) :
    ∃ target bytes, ¬ home <+: target ∧
      (¬ made.HasDirectory destination → target = made.place destination) ∧
      made.read source = .ok bytes ∧ copied.WellFormed ∧
      made.ChangesOnly copied (· = target) (fun _ => False) ∧
      copied.get? target = some (.file bytes) := by
  by_cases hthere : made.HasDirectory destination
  · obtain ⟨-, bytes, hread, hwrite⟩ := FileSystem.copy_eq_ok_iff.mp h
    rw [FileSystem.copyDestination, if_pos hthere] at hwrite
    -- The copy goes into the directory, under the name of the source.
    obtain ⟨l, hlocate, hfile⟩ := FileSystem.read_eq_ok_iff.mp hread
    obtain ⟨above, rfl⟩ := hmade.file_name hlocate hfile
    have hname : IsName source.name := hmade.names _ _ hfile _ (by simp)
    obtain ⟨hcopied, hchanges, hwritten⟩ :=
      FileSystem.write_changes hmade (fun _ => hplain.child hname.1) hwrite
    obtain ⟨target, hlocate', hfree, -⟩ := FileSystem.write_eq_ok_iff.mp hwrite
    obtain rfl := FileSystem.locate_eq_place hlocate'
    have hchild := @FileSystem.place_child_of_name made _ destination hname.2.1
    refine ⟨_, bytes, fun hprefix => ?_, fun hno => absurd hthere hno, hread, hcopied, hchanges,
      hwritten⟩
    rw [hchild] at hprefix hfree
    rcases List.prefix_concat_iff.mp hprefix with hwhole | hfront
    · exact hfree (hwhole ▸ hhome)
    · exact hplace hfront
  · obtain ⟨bytes, hread, hcopied, hchanges, hfile, -⟩ :=
      FileSystem.copy_changes hmade (fun _ => hplain) hthere h
    exact ⟨_, bytes, hplace, fun _ => rfl, hread, hcopied, hchanges, hfile⟩

end Store

end Excise
