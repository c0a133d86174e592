import Excise.Proofs.Backup.Store

/-!
# Taking a backup

A backup with a fresh id (`Store.IsFresh`) that succeeds leaves a copy of the file in the store, and
after the records that were there one of the file and of the digest of its content
(`backup_cases`, `Store.IsTaken`). One that fails leaves the manifest as it is. Either way nothing
is written outside the store.
-/

namespace Excise

namespace Store

/-- The id is the name of a directory that a backup can be put into: nothing stands there, and it is
neither that of the manifest nor that of its draft. -/
structure IsFresh (home : Location) (fs : FileSystem) (id : String) : Prop where
  name : IsName id
  not_ledger : id ≠ "manifest.json"
  not_draft : id ≠ "manifest.tmp"
  free : fs.get? (home ++ [id]) = none

/-- Where the copy of a file goes. -/
def copyPath (store : Store) (id : String) (path : Path) : Path :=
  (store.directory.child id).child path.name

/-- Where the copy of a file stands. -/
def copySpot (home : Location) (id name : String) : Location := home ++ [id, name]

variable {store : Store} {home : Location} {fs fs' : FileSystem} {host host' : Host}
  {id originalPath copy reason fileHash : String} {path : Path} {disk : Disk}

/-- Adding a record may fail, and then the manifest is as it was. -/
theorem add_record_cases {r : Except BackupError Unit} (hopen : store.IsOpen home host.files)
    (hreads : disk.Reads store.ledgerPath)
    (h : (store.addRecord id originalPath copy reason fileHash disk).run host = (r, host')) :
    ∃ files timesTaken, host' = { host with files, timesTaken } ∧ files.WellFormed ∧
      ((∃ e, r = .error e ∧
          host.files.ChangesOnly files (· = draftSpot home) fun _ => False) ∨
        (r = .ok () ∧
          host.files.ChangesOnly files (fun l => l = draftSpot home ∨ l = ledgerSpot home)
            (fun _ => False) ∧
          IsReady home files ∧
          ∃ manifest manifest', ledgerAt host.files home = .ok manifest ∧
            Ledger.add manifest ⟨id, originalPath, copy, host.newTime host.timesTaken, reason,
              fileHash⟩ = .ok manifest' ∧
            ledgerAt files home = .ok (Json.rereadFields manifest'))) := by
  unfold addRecord at h
  obtain ⟨e, -, rfl, rfl⟩ | ⟨manifest, hledger, hrest⟩ :=
    run_bind_unchanged (run_read_ledger hopen hreads) h
  · exact ⟨_, _, rfl, hopen.wellFormed, .inl ⟨e, rfl, .refl _ _ _⟩⟩
  rw [run_bind_of_ok (BackupAction.run_take_time _)] at hrest
  obtain ⟨e, -, rfl, rfl⟩ | ⟨manifest', hadded, hwrite⟩ :=
    run_bind_unchanged (run_of_except _ _) hrest
  · exact ⟨_, _, rfl, hopen.wellFormed, .inl ⟨e, rfl, .refl _ _ _⟩⟩
  have hopen' : store.IsOpen home { host with timesTaken := host.timesTaken + 1 }.files := hopen
  rcases write_ledger_cases hopen'.toStands hwrite with
    ⟨files, rfl, hfiles, ⟨e, rfl, hdraft⟩ | ⟨rfl, -, hboth, hgone, hfile⟩⟩
  · exact ⟨_, _, rfl, hfiles, .inl ⟨e, rfl, hdraft⟩⟩
  · have hreadable := (Ledger.add_cases hadded).2 (readable_of_ledger hledger)
    have hready : IsReady home files := ⟨by simp [hgone], by simp [hfile]⟩
    exact ⟨_, _, rfl, hfiles, .inr ⟨rfl, hboth, hready, manifest, manifest', hledger, hadded,
      ledger_at_written hreadable hfile⟩⟩

/-- A manifest that the disk refuses to read counts as empty, so a new record takes the place of all
that were there. -/
theorem add_record_unread {e : FileError} (hopen : store.Stands home host.files)
    (hrefuses : disk.refusal? host.files store.ledgerPath = some e)
    (h : (store.addRecord id originalPath copy reason fileHash disk).run host = (.ok (), host')) :
    recordsAt host'.files home = .ok [Ledger.Backup.record
      ⟨id, originalPath, copy, host.newTime host.timesTaken, reason, fileHash⟩] := by
  have hread : (store.readLedger disk).run host = (.ok (Ledger.manifestOf []), host) := by
    unfold readLedger
    rw [run_bind_of_ok (BackupAction.run_files host), Disk.read, hrefuses]
    rfl
  unfold addRecord at h
  rw [run_bind_of_ok hread, run_bind_of_ok (BackupAction.run_take_time _), Ledger.add_manifest,
    run_bind_of_ok (run_of_except _ _)] at h
  have hopen' : store.Stands home { host with timesTaken := host.timesTaken + 1 }.files := hopen
  rcases write_ledger_cases hopen' h with ⟨files, rfl, -, ⟨e', hr, -⟩ | ⟨-, -, -, -, hfile⟩⟩
  · cases hr
  · have hledger := ledger_at_written (Ledger.readable_manifest _) hfile
    rw [records_at_of_ledger hledger, Ledger.reread_manifest, Ledger.records_manifest]
    rfl

/-- What a backup that succeeded did: it read a file, left a copy of what it read, and added its
record to the manifest. -/
structure IsTaken (store : Store) (home : Location) (path : Path) (reason : String)
    (before after : FileSystem) (b : Ledger.Backup) (bytes : Bytes) : Prop where
  read : before.read path = .ok bytes
  original : b.originalPath = (before.absolute path).text
  copied : b.copyPath = (store.copyPath b.id path).text
  hash : b.fileHash = Digest.sha256Hex bytes
  reason : b.reason = reason
  copy : after.get? (copySpot home b.id path.name) = some (.file bytes)
  located : after.locate (store.copyPath b.id path) = .ok (copySpot home b.id path.name)
  plain : (store.copyPath b.id path).IsPlain
  changes : before.ChangesOnly after
    (fun l => l = draftSpot home ∨ l = ledgerSpot home ∨ l = copySpot home b.id path.name)
    (· = home ++ [b.id])
  ready : IsReady home after
  ledger : ∃ manifest manifest', ledgerAt before home = .ok manifest ∧
    Ledger.add manifest b = .ok manifest' ∧
    ledgerAt after home = .ok (Json.rereadFields manifest')

theorem copy_ne_ledger (home : Location) (id name : String) :
    copySpot home id name ≠ ledgerSpot home := by
  simp [copySpot, ledgerSpot]

theorem copy_ne_draft (home : Location) (id name : String) :
    copySpot home id name ≠ draftSpot home := by
  simp [copySpot, draftSpot]

/-- Computing the digest of a file ends an action, or it goes on with that of the content. -/
theorem hash_bind_cases {α : Type} {f : String → BackupAction α} {r : Except BackupError α}
    (h : (hashFile path disk >>= f).run host = (r, host')) :
    (∃ e, r = .error e ∧ host = host') ∨
      ∃ bytes, host.files.read path = .ok bytes ∧
        (f (Digest.sha256Hex bytes)).run host = (r, host') := by
  obtain ⟨e, hhash, rfl⟩ | ⟨hash, middle, hhash, hrest⟩ := run_bind_cases h
  · obtain ⟨_, -, rfl⟩ | ⟨_, -, hreturn⟩ := BackupAction.reading_bind_cases hhash
    · exact .inl ⟨e, rfl, rfl⟩
    · exact nomatch (Prod.mk.inj hreturn).1
  · obtain ⟨_, hr, -⟩ | ⟨bytes, hread, hreturn⟩ := BackupAction.reading_bind_cases hhash
    · exact nomatch hr
    · obtain ⟨hr, rfl⟩ := Prod.mk.inj hreturn
      obtain rfl := Except.ok.inj hr
      exact .inr ⟨bytes, Disk.read_eq_ok hread, hrest⟩

/-- Nothing stands in a directory that is not there. -/
theorem no_copy_without (hfs : fs.WellFormed) (hfree : fs.get? (home ++ [id]) = none)
    (name : String) : fs.get? (copySpot home id name) = none := by
  have hspot : copySpot home id name = home ++ [id] ++ [name] := by simp [copySpot]
  rw [hspot]
  exact hfs.nothing_below (by simp [hfree]) (by simp)

/-- The directory of a backup is new and empty. -/
theorem no_copy_yet {made : FileSystem} (hopen : store.IsOpen home fs)
    (hfresh : IsFresh home fs id)
    (hchanges : fs.ChangesOnly made (fun _ => False) (· = home ++ [id])) (name : String) :
    made.get? (copySpot home id name) = none := by
  rw [← no_copy_without hopen.wellFormed hfresh.free name]
  exact hchanges.same (fun hl => hl) (by simp [copySpot])

/-- A file that was found can still be read where a directory for it was made, and is the same. -/
theorem read_before {made : FileSystem} {bytes : Bytes} (hfound : fs.Exists path)
    (hchanges : fs.ChangesOnly made (fun _ => False) (· = home ++ [id]))
    (hread : made.read path = .ok bytes) :
    fs.read path = .ok bytes ∧ fs.locate path = .ok (fs.place path) := by
  obtain ⟨content, hlocate, -⟩ := FileSystem.exists_iff.mp hfound
  obtain ⟨location, hlocate', hfile⟩ := FileSystem.read_eq_ok_iff.mp hread
  have hsame := FileSystem.locate_of_kept hchanges.toKeepsDirectories hlocate
  obtain rfl := Except.ok.inj (hsame.symm.trans hlocate')
  exact ⟨FileSystem.read_eq_ok_iff.mpr ⟨_, hlocate, hchanges.file_before (fun hl => hl) hfile⟩,
    hlocate⟩

/-- The copy of a file that was found goes to the new directory of its backup, where nothing
stands. -/
theorem place_of_copy {made : FileSystem} {bytes : Bytes} (hopen : store.IsOpen home fs)
    (hfresh : IsFresh home fs id) (hfound : fs.Exists path)
    (hmakes : fs.makeDirectories (store.directory.child id) = .ok made)
    (hread : made.read path = .ok bytes) :
    made.place (store.copyPath id path) = copySpot home id path.name ∧
      ¬ made.HasDirectory (store.copyPath id path) ∧ (store.copyPath id path).IsPlain := by
  have hplain := hopen.plain.child hfresh.name.1
  obtain ⟨-, hdirectory, hlocated, -⟩ := FileSystem.make_directories_child hopen.wellFormed
    hopen.located hopen.directory hplain hfresh.name.2.1 hmakes
  obtain ⟨hread', hlocate⟩ := read_before hfound hdirectory hread
  -- The name of the file is one, since the file stands under it.
  obtain ⟨above, hplace⟩ := hopen.wellFormed.file_name hlocate (FileSystem.get?_of_read hread')
  have hname : IsName path.name :=
    hopen.wellFormed.names _ _ (FileSystem.get?_of_read hread') _ (by simp [hplace])
  have hspot : made.place (store.copyPath id path) = copySpot home id path.name := by
    rw [copyPath, FileSystem.place_child_of_name _ hname.2.1, ← FileSystem.locate_eq_place hlocated,
      copySpot, List.append_assoc]
    rfl
  refine ⟨hspot, fun hthere => ?_, hplain.child hname.1⟩
  obtain ⟨content, -, hcontent⟩ := FileSystem.exists_iff.mp
    (show made.Exists (store.copyPath id path) by rw [FileSystem.Exists, hthere]; rfl)
  rw [hspot, no_copy_yet hopen hfresh hdirectory] at hcontent
  cases hcontent

/-- A file that was found is copied into the new directory of its backup. -/
theorem copy_taken {made copied : FileSystem} {bytes : Bytes} (hopen : store.IsOpen home fs)
    (hfresh : IsFresh home fs id) (hfound : fs.Exists path)
    (hmakes : fs.makeDirectories (store.directory.child id) = .ok made)
    (hread : made.read path = .ok bytes)
    (hcopies : made.copy path (store.copyPath id path) = .ok copied) :
    copied.WellFormed ∧
      fs.ChangesOnly copied (· = copySpot home id path.name) (· = home ++ [id]) ∧
      copied.get? (copySpot home id path.name) = some (.file bytes) ∧
      copied.locate (store.copyPath id path) = .ok (copySpot home id path.name) ∧
      (store.copyPath id path).IsPlain := by
  obtain ⟨hmade, hdirectory, -, -⟩ := FileSystem.make_directories_child hopen.wellFormed
    hopen.located hopen.directory (hopen.plain.child hfresh.name.1) hfresh.name.2.1 hmakes
  obtain ⟨hspot, hfree, hplainCopy⟩ := place_of_copy hopen hfresh hfound hmakes hread
  obtain ⟨bytes', hbytes', hcopied, hchanges, hfile, hlocated'⟩ :=
    FileSystem.copy_changes hmade (fun _ => hplainCopy) hfree hcopies
  obtain rfl := Except.ok.inj (hread.symm.trans hbytes')
  rw [hspot] at hchanges hfile hlocated'
  exact ⟨hcopied, (hdirectory.mono (fun _ => False.elim) fun _ hl => hl).trans
    (hchanges.mono (fun _ hl => hl) fun _ => False.elim), hfile,
    FileSystem.locate_of_kept hchanges.toKeepsDirectories hlocated', hplainCopy⟩

/-- A copy that was stopped wrote only in the new directory of its backup. -/
theorem copy_stopped {made copied : FileSystem} {bytes : Bytes} (hopen : store.IsOpen home fs)
    (hfresh : IsFresh home fs id) (hfound : fs.Exists path)
    (hmakes : fs.makeDirectories (store.directory.child id) = .ok made)
    (hread : made.read path = .ok bytes)
    (hleaves : disk.Leaves (.copy path (store.copyPath id path)) made copied) :
    copied.WellFormed ∧
      fs.ChangesOnly copied (· = copySpot home id path.name) (· = home ++ [id]) := by
  obtain ⟨hmade, hdirectory, -, -⟩ := FileSystem.make_directories_child hopen.wellFormed
    hopen.located hopen.directory (hopen.plain.child hfresh.name.1) hfresh.name.2.1 hmakes
  obtain ⟨hspot, hfree, hplainCopy⟩ := place_of_copy hopen hfresh hfound hmakes hread
  obtain ⟨hcopied, hchanges⟩ := hleaves.copy_changes hmade (fun _ => hplainCopy) hfree
  rw [hspot] at hchanges
  exact ⟨hcopied, (hdirectory.mono (fun _ => False.elim) fun _ hl => hl).trans
    (hchanges.mono (fun _ hl => hl) fun _ => False.elim)⟩

/-- A copy that was taken is recorded by what adds its record. -/
theorem taken_of_recorded {copied : FileSystem} {createdAt reason : String} {bytes : Bytes}
    (hread : fs.read path = .ok bytes)
    (hchanges : fs.ChangesOnly copied (· = copySpot home id path.name) (· = home ++ [id]))
    (hfile : copied.get? (copySpot home id path.name) = some (.file bytes))
    (hlocated : copied.locate (store.copyPath id path) = .ok (copySpot home id path.name))
    (hplain : (store.copyPath id path).IsPlain)
    (hboth : copied.ChangesOnly fs' (fun l => l = draftSpot home ∨ l = ledgerSpot home)
      (fun _ => False))
    (hready : IsReady home fs') {b : Ledger.Backup}
    (hb : b = ⟨id, (fs.absolute path).text, (store.copyPath id path).text, createdAt, reason,
      Digest.sha256Hex bytes⟩)
    (hledger : ∃ manifest manifest', ledgerAt copied home = .ok manifest ∧
      Ledger.add manifest b = .ok manifest' ∧
      ledgerAt fs' home = .ok (Json.rereadFields manifest')) :
    IsTaken store home path reason fs fs' b bytes := by
  subst hb
  have hkept : ¬ (copySpot home id path.name = draftSpot home ∨
      copySpot home id path.name = ledgerSpot home) :=
    fun hl => hl.elim (copy_ne_draft home id path.name) (copy_ne_ledger home id path.name)
  have hsame : ledgerAt copied home = ledgerAt fs home :=
    ledger_at_of_changes hchanges (copy_ne_ledger home id path.name).symm
  exact {
    read := hread
    original := rfl
    copied := rfl
    hash := rfl
    reason := rfl
    copy := hboth.file hkept hfile
    located := FileSystem.locate_of_kept hboth.toKeepsDirectories hlocated
    plain := hplain
    changes := (hchanges.mono (fun _ hl => .inr (.inr hl)) fun _ hl => hl).trans
      (hboth.mono (fun _ hl => hl.elim .inl fun hl => .inr (.inl hl)) fun _ => False.elim)
    ready := hready
    ledger := hsame ▸ hledger }

/-- Backing up a file with a fresh id takes a backup or fails, and then the manifest is as it was.
An id that was not made was not used. -/
theorem backup_cases {reason : String} {r : Except BackupError String}
    (hopen : store.IsOpen home host.files)
    (hfresh : IsFresh home host.files (host.newId host.idsMade))
    (hreads : disk.Reads store.ledgerPath)
    (h : (store.backup path reason disk).run host = (r, host')) :
    host'.newId = host.newId ∧ host'.files.WellFormed ∧
      ((∃ e, r = .error e ∧ (host' = host ∨ host'.idsMade = host.idsMade + 1) ∧
          host.files.ChangesOnly host'.files (fun l => l = draftSpot home ∨
              l = copySpot home (host.newId host.idsMade) path.name)
            (· = home ++ [host.newId host.idsMade])) ∨
        ∃ b bytes, r = .ok b.id ∧ b.id = host.newId host.idsMade ∧
          b.createdAt = host.newTime host.timesTaken ∧ host'.idsMade = host.idsMade + 1 ∧
          IsTaken store home path reason host.files host'.files b bytes) := by
  unfold backup at h
  -- The file is looked for.
  obtain ⟨e, rfl, rfl⟩ | ⟨found, hlooked, hrest⟩ := BackupAction.reading_bind_cases h
  · exact ⟨rfl, hopen.wellFormed, .inl ⟨e, rfl, .inl rfl, .refl _ _ _⟩⟩
  cases found with
  | false =>
    obtain ⟨rfl, rfl⟩ := Prod.mk.inj hrest
    exact ⟨rfl, hopen.wellFormed, .inl ⟨_, rfl, .inl rfl, .refl _ _ _⟩⟩
  | true =>
  have hfound := FileSystem.exists_of_look hlooked
  rw [if_neg (by simp), run_bind_of_ok (BackupAction.run_make_id _)] at hrest
  generalize hid : host.newId host.idsMade = id at *
  -- The directory of the backup is made.
  have hplain := hopen.plain.child hfresh.name.1
  obtain ⟨e, files, rfl, rfl, hleaves⟩ | ⟨made, hmakes, hrest⟩ :=
    BackupAction.changing_bind_cases hrest
  · obtain ⟨hfiles, hchanges⟩ := hleaves.make_directories_child hopen.wellFormed hopen.located
      hopen.directory hplain hfresh.name.2.1
    exact ⟨rfl, hfiles, .inl ⟨e, rfl, .inr rfl,
      hchanges.mono (fun _ => False.elim) fun _ hl => hl⟩⟩
  obtain ⟨hmade, hdirectory, -, -⟩ := FileSystem.make_directories_child hopen.wellFormed
    hopen.located hopen.directory hplain hfresh.name.2.1 hmakes
  -- The file is read for its digest, and copied.
  obtain ⟨e, rfl, rfl⟩ | ⟨bytes, hread, hrest⟩ := hash_bind_cases hrest
  · exact ⟨rfl, hmade, .inl ⟨e, rfl, .inr rfl,
      hdirectory.mono (fun _ => False.elim) fun _ hl => hl⟩⟩
  obtain ⟨e, files, rfl, rfl, hleaves⟩ | ⟨copied, hcopies, hrest⟩ :=
    BackupAction.changing_bind_cases hrest
  · obtain ⟨hfiles, hchanges⟩ := copy_stopped hopen hfresh hfound hmakes hread hleaves
    exact ⟨rfl, hfiles, .inl ⟨e, rfl, .inr rfl, hchanges.mono (fun _ => .inr) fun _ hl => hl⟩⟩
  obtain ⟨hread', hlocate⟩ := read_before hfound hdirectory hread
  obtain ⟨hcopied, hchanges, hfile, hlocatedCopy, hplainCopy⟩ :=
    copy_taken hopen hfresh hfound hmakes hread hcopies
  rw [run_bind_of_ok (BackupAction.run_files _)] at hrest
  have habsolute : copied.absolute path = host.files.absolute path := by
    rw [FileSystem.absolute_of_locate hlocate, FileSystem.absolute_of_locate
      (FileSystem.locate_of_kept hchanges.toKeepsDirectories hlocate)]
  simp only [habsolute] at hrest
  -- The backup is recorded.
  have hopenNow : store.IsOpen home
      { host with files := copied, idsMade := host.idsMade + 1 }.files :=
    hopen.of_kept hcopied hchanges.toKeepsDirectories
  obtain ⟨e, hadd, rfl⟩ | ⟨u, last, hadd, hreturn⟩ := run_bind_cases hrest
  · obtain ⟨files, timesTaken, rfl, hfiles, ⟨e', -, hdraft⟩ | ⟨hr, -⟩⟩ :=
      add_record_cases hopenNow hreads hadd
    · refine ⟨rfl, hfiles, .inl ⟨e, rfl, .inr rfl, ?_⟩⟩
      exact (hchanges.mono (fun _ hl => .inr hl) fun _ hl => hl).trans
        (hdraft.mono (fun _ hl => .inl hl) fun _ => False.elim)
    · exact nomatch hr
  · obtain ⟨rfl, rfl⟩ := Prod.mk.inj hreturn
    obtain ⟨files, timesTaken, rfl, hfiles, ⟨e', hr, -⟩ |
      ⟨-, hboth, hready, manifest, manifest', hledger⟩⟩ :=
      add_record_cases hopenNow hreads hadd
    · exact nomatch hr
    exact ⟨rfl, hfiles, .inr ⟨_, bytes, rfl, rfl, rfl, rfl, taken_of_recorded hread' hchanges hfile
      hlocatedCopy hplainCopy hboth hready rfl ⟨manifest, manifest', hledger⟩⟩⟩

end Store

end Excise
