import Excise.Proofs.Backup.Restoring

/-!
# What every operation keeps

A sound store is open, its manifest is a list of entries, and each entry is of a file outside it
(`Store.IsSound`). Every operation keeps it sound, takes no entry away and clears no flag
(`Ledger.Grows`), and leaves the copies in the store alone (`Store.KeepsStore`). The three together
are `Store.Advances`; there is one lemma for each operation, all by way of `sound_of_changes`.
-/

namespace Excise

namespace Ledger

variable {entries entries' entries'' front back : List BackupEntry} {e : BackupEntry}

/-- Each entry is still in its place, with the same backup, and is restored if it was. -/
def Grows (entries entries' : List BackupEntry) : Prop :=
  ∀ (i : Nat) (e : BackupEntry), entries[i]? = some e →
    ∃ e' : BackupEntry, entries'[i]? = some e' ∧ e'.backup = e.backup ∧
      (e.restored = true → e'.restored = true)

theorem Grows.refl (entries : List BackupEntry) : Grows entries entries :=
  fun _ e he => ⟨e, he, rfl, id⟩

theorem Grows.trans (h : Grows entries entries') (h' : Grows entries' entries'') :
    Grows entries entries'' := by
  intro i e he
  obtain ⟨e', he', hbackup, hrestored⟩ := h i e he
  obtain ⟨e'', he'', hbackup', hrestored'⟩ := h' i e' he'
  exact ⟨e'', he'', hbackup'.trans hbackup, fun hr => hrestored' (hrestored hr)⟩

/-- Growth of a list with a first entry is growth of that entry and of the rest. -/
theorem Grows.of_cons (h : Grows (e :: back) entries') :
    ∃ e' back', entries' = e' :: back' ∧ e'.backup = e.backup ∧
      (e.restored = true → e'.restored = true) ∧ Grows back back' := by
  obtain ⟨e', he', hbackup, hrestored⟩ := h 0 e rfl
  cases entries' with
  | nil => exact nomatch he'
  | cons first back' =>
      obtain rfl := Option.some.inj he'
      exact ⟨first, back', rfl, hbackup, hrestored, fun i => h (i + 1)⟩

/-- The first entry of an id stays the first one. The induction is on the entries before it. -/
theorem Grows.find {id : Json} (h : Grows entries entries')
    (hfind : (entries.find? fun e => e.HasId id) = some e) :
    ∃ e', (entries'.find? fun e => e.HasId id) = some e' ∧ e'.backup = e.backup ∧
      (e.restored = true → e'.restored = true) := by
  induction entries generalizing entries' with
  | nil => exact nomatch hfind
  | cons first rest ih =>
      obtain ⟨first', rest', rfl, hbackup, hrestored, hrest⟩ := h.of_cons
      have hsame : first'.HasId id ↔ first.HasId id := by
        rw [BackupEntry.HasId, BackupEntry.HasId, hbackup]
      by_cases hid : first.HasId id
      · rw [List.find?_cons_of_pos (by simpa using hid)] at hfind
        obtain rfl := Option.some.inj hfind
        exact ⟨first', List.find?_cons_of_pos (by simpa using hsame.mpr hid), hbackup, hrestored⟩
      · rw [List.find?_cons_of_neg (by simpa using hid)] at hfind
        rw [List.find?_cons_of_neg (by simpa using mt hsame.mp hid)]
        exact ih hrest hfind

/-- A new entry comes after the others. -/
theorem grows_add (entries added : List BackupEntry) : Grows entries (entries ++ added) := by
  intro i e he
  obtain ⟨hlt, -⟩ := List.getElem?_eq_some_iff.mp he
  exact ⟨e, by rw [List.getElem?_append_left hlt, he], rfl, id⟩

/-- Marking an entry changes no other. -/
theorem grows_mark (id : Json) (entries : List BackupEntry) :
    Grows entries (markFirst id entries) := by
  induction entries with
  | nil => exact fun i e he => nomatch he
  | cons first rest ih =>
      intro i e he
      rw [markFirst]
      cases i with
      | zero =>
          obtain rfl := Option.some.inj he
          split
          · exact ⟨first.marked, rfl, rfl, fun _ => rfl⟩
          · exact ⟨first, rfl, rfl, fun h => h⟩
      | succ i =>
          split
          · exact ⟨e, he, rfl, fun h => h⟩
          · exact ih i e he

/-- The backup of a marked entry is one of those that were there. -/
theorem mem_mark {id : Json} (h : e ∈ markFirst id entries) :
    ∃ e' ∈ entries, e'.backup = e.backup := by
  induction entries with
  | nil => exact absurd h List.not_mem_nil
  | cons first rest ih =>
      rw [markFirst] at h
      split at h
      · rcases List.mem_cons.mp h with rfl | h
        · exact ⟨first, List.mem_cons_self, rfl⟩
        · exact ⟨e, List.mem_cons_of_mem _ h, rfl⟩
      · rcases List.mem_cons.mp h with rfl | h
        · exact ⟨e, List.mem_cons_self, rfl⟩
        · obtain ⟨e', he', hbackup⟩ := ih h
          exact ⟨e', List.mem_cons_of_mem _ he', hbackup⟩

end Ledger

namespace Store

open Ledger (BackupEntry Grows)

variable {store : Store} {home : Location} {fs fs' fs'' : FileSystem} {host host' : Host}
  {entries entries' front back : List BackupEntry} {e : BackupEntry} {id : Json} {path : Path}
  {files directories : Location → Prop}

/-- The store is open, and its manifest holds entries of files outside it. -/
structure IsSound (store : Store) (home : Location) (fs : FileSystem) (entries : List BackupEntry) :
    Prop where
  isOpen : store.IsOpen home fs
  ledger : ledgerAt fs home = .ok (Ledger.manifestOf entries)
  outside : ∀ e ∈ entries, Avoids home fs (Path.ofText e.backup.originalPath)

/-- Besides the manifest and its draft, the files and directories of the store stay, and no
directory takes the place of these two. -/
structure KeepsStore (home : Location) (fs fs' : FileSystem) : Prop where
  working : fs'.workingDirectory = fs.workingDirectory
  files : ∀ l bytes, home <+: l → l ≠ draftSpot home → l ≠ ledgerSpot home →
    fs.get? l = some (.file bytes) → fs'.get? l = some (.file bytes)
  directories : ∀ l, home <+: l → fs.get? l = some .directory → fs'.get? l = some .directory
  ready : IsReady home fs → IsReady home fs'

theorem KeepsStore.refl (home : Location) (fs : FileSystem) : KeepsStore home fs fs :=
  ⟨rfl, fun _ _ _ _ _ h => h, fun _ _ h => h, id⟩

theorem KeepsStore.trans (h : KeepsStore home fs fs') (h' : KeepsStore home fs' fs'') :
    KeepsStore home fs fs'' :=
  ⟨h'.working.trans h.working,
    fun l bytes hl hdraft hledger hfile =>
      h'.files l bytes hl hdraft hledger (h.files l bytes hl hdraft hledger hfile),
    fun l hl hdirectory => h'.directories l hl (h.directories l hl hdirectory),
    fun hready => h'.ready (h.ready hready)⟩

/-- The store is sound again, with the entries that it had. -/
def Advances (store : Store) (home : Location) (entries : List BackupEntry) (fs fs' : FileSystem) :
    Prop :=
  ∃ entries', IsSound store home fs' entries' ∧ Grows entries entries' ∧ KeepsStore home fs fs'

theorem Advances.refl (h : IsSound store home fs entries) : Advances store home entries fs fs :=
  ⟨entries, h, Grows.refl entries, KeepsStore.refl home fs⟩

/-- One change after another keeps the store sound if each does. -/
theorem Advances.trans (h : Advances store home entries fs fs')
    (hnext : ∀ entries', IsSound store home fs' entries' →
      Advances store home entries' fs' fs'') : Advances store home entries fs fs'' := by
  obtain ⟨entries', hsound, hgrows, hkeeps⟩ := h
  obtain ⟨entries'', hsound', hgrows', hkeeps'⟩ := hnext entries' hsound
  exact ⟨entries'', hsound', hgrows.trans hgrows', hkeeps.trans hkeeps'⟩

/-- The records of a sound store are those of its entries. -/
theorem IsSound.records (h : IsSound store home fs entries) :
    recordsAt fs home = .ok (entries.map BackupEntry.record) := by
  rw [records_at_of_ledger h.ledger, Ledger.records_manifest]

/-- A change that leaves the copies alone and the manifest with entries keeps the store sound. -/
theorem sound_of_changes (hsound : IsSound store home fs entries) (hfs' : fs'.WellFormed)
    (hchanges : fs.ChangesOnly fs' files directories)
    (hfiles : ∀ l, home <+: l → files l →
      l = draftSpot home ∨ l = ledgerSpot home ∨ fs.get? l = none)
    (hdirectories : ∀ l, directories l → fs.get? l ≠ some .directory →
      l ≠ draftSpot home ∧ l ≠ ledgerSpot home)
    (hledger : ledgerAt fs' home = .ok (Ledger.manifestOf entries'))
    (houtside : ∀ e ∈ entries', Avoids home fs (Path.ofText e.backup.originalPath)) :
    IsSound store home fs' entries' ∧ KeepsStore home fs fs' := by
  refine ⟨⟨hsound.isOpen.of_kept hfs' hchanges.toKeepsDirectories, hledger,
    fun e he => (houtside e he).of_same hchanges.workingDirectory⟩,
    ⟨hchanges.workingDirectory, fun l bytes hl hdraft hledger hfile => ?_,
      fun l _ hdirectory => hchanges.kept l hdirectory, fun hready => ⟨?_, ?_⟩⟩⟩
  · refine hchanges.file (fun hl' => ?_) hfile
    rcases hfiles l hl hl' with h | h | h
    · exact hdraft h
    · exact hledger h
    · rw [hfile] at h
      exact nomatch h
  · exact hchanges.free (fun hl => (hdirectories _ hl hready.draft).1 rfl) hready.draft
  · exact hchanges.free (fun hl => (hdirectories _ hl hready.ledger).2 rfl) hready.ledger

/-- A change that leaves the manifest alone too keeps the entries. -/
theorem sound_of_same (hsound : IsSound store home fs entries) (hfs' : fs'.WellFormed)
    (hchanges : fs.ChangesOnly fs' files directories)
    (hfiles : ∀ l, home <+: l → files l →
      l = draftSpot home ∨ l ≠ ledgerSpot home ∧ fs.get? l = none)
    (hdirectories : ∀ l, directories l → fs.get? l ≠ some .directory →
      l ≠ draftSpot home ∧ l ≠ ledgerSpot home) :
    IsSound store home fs' entries ∧ KeepsStore home fs fs' := by
  have hledger : ¬ files (ledgerSpot home) := by
    intro hl
    rcases hfiles _ (List.prefix_append _ _) hl with h | h
    · exact draft_ne_ledger home h.symm
    · exact h.1 rfl
  refine sound_of_changes hsound hfs' hchanges
    (fun l hl hl' => (hfiles l hl hl').imp_right fun h => .inr h.2) hdirectories ?_ hsound.outside
  rw [ledger_at_of_changes hchanges hledger, hsound.ledger]

/-- Opening the store again finds it as it is. -/
theorem open_advances {r : Except BackupError Store}
    (hsound : IsSound store home host.files entries)
    (h : (openAt store.directory).run host = (r, host')) :
    Advances store home entries host.files host'.files := by
  have hstands := hsound.isOpen.toStands
  obtain ⟨files, rfl, hfiles, hchanges, hledger, -⟩ := open_cases hstands.wellFormed hstands.plain h
    (FileSystem.locate_eq_place hstands.located).symm
  -- All that leads to the directory is there, so nothing is made.
  have hway : ∀ l, host.files.IsOnWay store.directory l → host.files.get? l = some .directory := by
    rintro l ⟨front, hfront, rfl⟩
    by_cases hall : front = store.directory.parts
    · rw [hall, ← hstands.directory, FileSystem.locate_eq_place hstands.located]
    · exact (FileSystem.locate_eq_ok_iff.mp hstands.located).2.1.directory_on_way hfront hall
  obtain ⟨hsound', hkeeps⟩ := sound_of_changes hsound hfiles hchanges
    (fun l _ hl => hl.elim .inl fun hl => .inr (.inl hl))
    (fun l hl hno => absurd (hway l hl) hno) (hledger.trans hsound.ledger) hsound.outside
  exact ⟨entries, hsound', Grows.refl entries, hkeeps⟩

/-- The record of a backup is of a file outside the store if the file is. -/
theorem outside_of_taken {reason : String} {b : Ledger.Backup} {bytes : Bytes}
    (hfs : fs.WellFormed) (hplace : ¬ home <+: fs.place path)
    (h : IsTaken store home path reason fs fs' b bytes) :
    Path.ofText b.originalPath = ⟨.absolute, fs.place path⟩ ∧
      Avoids home fs (Path.ofText b.originalPath) := by
  obtain ⟨location, hlocate, hfile⟩ := FileSystem.read_eq_ok_iff.mp h.read
  obtain rfl := FileSystem.locate_eq_place hlocate
  have hnames := hfs.names _ _ hfile
  have hpath : Path.ofText b.originalPath = ⟨.absolute, fs.place path⟩ := by
    rw [h.original, FileSystem.absolute_of_locate hlocate]
    exact Path.of_text_text fun name hname => (hnames name hname).1
  exact ⟨hpath, hpath ▸ avoids_absolute (fun name hname => (hnames name hname).2.1) hplace fs⟩

/-- The directory of a new backup is not in the place of the manifest or of its draft. -/
theorem fresh_directory {name : String} (hfresh : IsFresh home fs name) {l : Location}
    (hl : l = home ++ [name]) : l ≠ draftSpot home ∧ l ≠ ledgerSpot home := by
  subst hl
  simp [draftSpot, ledgerSpot, hfresh.not_draft, hfresh.not_ledger]

/-- A backup that was taken of a file outside the store adds its entry at the end. -/
theorem taken_sound {reason : String} {b : Ledger.Backup} {bytes : Bytes}
    (hsound : IsSound store home fs entries) (hplace : ¬ home <+: fs.place path)
    (hfresh : IsFresh home fs b.id) (hfs' : fs'.WellFormed)
    (h : IsTaken store home path reason fs fs' b bytes) :
    IsSound store home fs' (entries ++ [.ofBackup b]) ∧ KeepsStore home fs fs' := by
  obtain ⟨manifest, manifest', hbefore, hadded, hafter⟩ := h.ledger
  obtain rfl := Except.ok.inj (hsound.ledger.symm.trans hbefore)
  rw [Ledger.add_manifest] at hadded
  obtain rfl := Except.ok.inj hadded
  rw [Ledger.reread_manifest] at hafter
  refine sound_of_changes hsound hfs' h.changes (fun l _ hl => ?_)
    (fun l hl _ => fresh_directory hfresh hl) hafter fun e he => ?_
  · rcases hl with rfl | rfl | rfl
    · exact .inl rfl
    · exact .inr (.inl rfl)
    · exact .inr (.inr (no_copy_yet hsound.isOpen hfresh (.refl _ _ _) _))
  · rcases List.mem_append.mp he with he | he
    · exact hsound.outside e he
    · obtain rfl := List.mem_singleton.mp he
      exact (outside_of_taken hsound.isOpen.wellFormed hplace h).2

/-- A backup that fails adds no entry. -/
theorem not_taken_sound {id name : String} (hsound : IsSound store home fs entries)
    (hfresh : IsFresh home fs id) (hfs' : fs'.WellFormed)
    (hchanges : fs.ChangesOnly fs' (fun l => l = draftSpot home ∨ l = copySpot home id name)
      (· = home ++ [id])) :
    IsSound store home fs' entries ∧ KeepsStore home fs fs' := by
  refine sound_of_same hsound hfs' hchanges (fun l _ hl => ?_)
    fun l hl _ => fresh_directory hfresh hl
  rcases hl with rfl | rfl
  · exact .inl rfl
  · exact .inr ⟨copy_ne_ledger _ _ _, no_copy_yet hsound.isOpen hfresh (.refl _ _ _) _⟩

/-- Backing up a file outside the store adds an entry, or none if it fails. -/
theorem backup_advances {reason : String} {r : Except BackupError String}
    (hsound : IsSound store home host.files entries)
    (hplace : ¬ home <+: host.files.place path)
    (hfresh : IsFresh home host.files (host.newId host.idsMade))
    (h : (store.backup path reason).run host = (r, host')) :
    Advances store home entries host.files host'.files := by
  obtain ⟨-, hfiles, ⟨error, -, -, hchanges⟩ | ⟨b, bytes, -, hid, -, -, htaken⟩⟩ :=
    backup_cases hsound.isOpen hfresh (Disk.reads_reliable _) h
  · obtain ⟨hsound', hkeeps⟩ := not_taken_sound hsound hfresh hfiles hchanges
    exact ⟨entries, hsound', Grows.refl entries, hkeeps⟩
  · obtain ⟨hsound', hkeeps⟩ := taken_sound hsound hplace (hid ▸ hfresh) hfiles htaken
    exact ⟨_, hsound', Ledger.grows_add _ _, hkeeps⟩

/-- Adding a record of a file outside the store adds an entry, or none if it fails. -/
theorem add_record_advances {id originalPath copy reason fileHash : String}
    {r : Except BackupError Unit} (hsound : IsSound store home host.files entries)
    (houtside : Avoids home host.files (Path.ofText originalPath))
    (h : (store.addRecord id originalPath copy reason fileHash).run host = (r, host')) :
    Advances store home entries host.files host'.files := by
  obtain ⟨files, timesTaken, rfl, hfiles, ⟨error, -, hdraft⟩ |
    ⟨-, hboth, -, manifest, manifest', hbefore, hadded, hafter⟩⟩ :=
    add_record_cases hsound.isOpen (Disk.reads_reliable _) h
  · obtain ⟨hsound', hkeeps⟩ :=
      sound_of_same hsound hfiles hdraft (fun _ _ hl => .inl hl) fun _ => False.elim
    exact ⟨entries, hsound', Grows.refl entries, hkeeps⟩
  · obtain rfl := Except.ok.inj (hsound.ledger.symm.trans hbefore)
    rw [Ledger.add_manifest] at hadded
    obtain rfl := Except.ok.inj hadded
    rw [Ledger.reread_manifest] at hafter
    have houtside' : ∀ e ∈ entries ++ [.ofBackup ⟨id, originalPath, copy,
        host.newTime host.timesTaken, reason, fileHash⟩],
        Avoids home host.files (Path.ofText e.backup.originalPath) := by
      intro e he
      rcases List.mem_append.mp he with he | he
      · exact hsound.outside e he
      · obtain rfl := List.mem_singleton.mp he
        exact houtside
    obtain ⟨hsound', hkeeps⟩ := sound_of_changes hsound hfiles hboth
      (fun _ _ hl => hl.elim .inl fun hl => .inr (.inl hl)) (fun _ => False.elim) hafter houtside'
    exact ⟨_, hsound', Ledger.grows_add _ _, hkeeps⟩

/-- Setting the flag of an id in a sound store marks its first entry. -/
theorem set_restored_sound (hsound : IsSound store home host.files entries)
    (h : (store.setRestored id).run host = (.ok (), host')) :
    IsSound store home host'.files (Ledger.markFirst id entries) ∧
      KeepsStore home host.files host'.files ∧
      host.files.ChangesOnly host'.files (fun l => l = draftSpot home ∨ l = ledgerSpot home)
        fun _ => False := by
  obtain ⟨files, rfl, hfiles, ⟨error, hr, -⟩ |
    ⟨-, hboth, -, manifest, manifest', hbefore, hset, hfile⟩⟩ :=
    set_restored_cases hsound.isOpen h
  · exact nomatch hr
  obtain rfl := Except.ok.inj (hsound.ledger.symm.trans hbefore)
  rw [Ledger.set_restored_manifest] at hset
  obtain rfl := Except.ok.inj hset
  have hafter := ledger_at_written (Ledger.readable_manifest _) hfile
  rw [Ledger.reread_manifest] at hafter
  have houtside : ∀ e ∈ Ledger.markFirst id entries,
      Avoids home host.files (Path.ofText e.backup.originalPath) := by
    intro e he
    obtain ⟨e', he', hbackup⟩ := Ledger.mem_mark he
    exact hbackup ▸ hsound.outside e' he'
  obtain ⟨hsound', hkeeps⟩ := sound_of_changes hsound hfiles hboth
    (fun _ _ hl => hl.elim .inl fun hl => .inr (.inl hl)) (fun _ => False.elim) hafter houtside
  exact ⟨hsound', hkeeps, hboth⟩

/-- Setting a flag keeps the store sound, also where it fails. -/
theorem set_restored_advances {r : Except BackupError Unit}
    (hsound : IsSound store home host.files entries)
    (h : (store.setRestored id).run host = (r, host')) :
    Advances store home entries host.files host'.files := by
  cases r with
  | error error =>
      obtain ⟨files, rfl, hfiles, ⟨_, -, hdraft⟩ | ⟨hr, -⟩⟩ :=
        set_restored_cases hsound.isOpen h
      · obtain ⟨hsound', hkeeps⟩ :=
          sound_of_same hsound hfiles hdraft (fun _ _ hl => .inl hl) fun _ => False.elim
        exact ⟨entries, hsound', Grows.refl entries, hkeeps⟩
      · exact nomatch hr
  | ok u =>
      obtain ⟨hsound', hkeeps, -⟩ := set_restored_sound hsound h
      exact ⟨_, hsound', Ledger.grows_mark id entries, hkeeps⟩

/-- Making the directory of a file outside the store does nothing in it. -/
theorem make_parent_sound {made : FileSystem} (hsound : IsSound store home fs entries)
    (hplain : path.IsPlain) (houtside : Avoids home fs path)
    (h : fs.makeDirectories path.parent = .ok made) :
    IsSound store home made entries ∧ KeepsStore home fs made := by
  obtain ⟨hmade, hchanges, -⟩ :=
    FileSystem.make_directories_changes hsound.isOpen.wellFormed hplain.parent h
  refine sound_of_same hsound hmade hchanges (fun _ _ => False.elim) fun l hl _ => ⟨?_, ?_⟩
  · rintro rfl
    exact houtside.parent hl (List.prefix_append _ _)
  · rintro rfl
    exact houtside.parent hl (List.prefix_append _ _)

/-- Copying a file to a path outside the store does nothing in it. -/
theorem copy_back_sound {copied : FileSystem} {source : Path}
    (hsound : IsSound store home fs entries) (hplain : path.IsPlain)
    (houtside : Avoids home fs path) (h : fs.copy source path = .ok copied) :
    IsSound store home copied entries ∧ KeepsStore home fs copied := by
  obtain ⟨target, bytes, htarget, -, -, hcopied, hchanges, -⟩ :=
    copied_back hsound.isOpen.wellFormed hsound.isOpen.directory hplain houtside.place h
  refine sound_of_same hsound hcopied hchanges (fun l hl hl' => ?_) fun _ => False.elim
  subst hl'
  exact absurd hl htarget

/-- Restoring the backup of an entry keeps the store sound, also where it fails. -/
theorem restore_record_advances {r : Except BackupError Unit}
    (hsound : IsSound store home host.files entries) (he : e ∈ entries)
    (h : (store.restoreRecord id e.fields).run host = (r, host')) :
    Advances store home entries host.files host'.files := by
  have hplain : (Path.ofText e.backup.originalPath).IsPlain := Path.is_plain_of_text _
  have houtside := hsound.outside e he
  rcases restore_record_cases h with
    ⟨error, files, -, rfl, rfl | hmakes⟩ |
      ⟨bytes, made, copied, -, -, hmakes, hcopies, hset⟩
  · exact Advances.refl hsound
  · obtain ⟨hsound', hkeeps⟩ := make_parent_sound hsound hplain houtside hmakes
    exact ⟨entries, hsound', Grows.refl entries, hkeeps⟩
  · obtain ⟨hmade, hkeepsMade⟩ := make_parent_sound hsound hplain houtside hmakes
    obtain ⟨hcopied, hkeepsCopied⟩ :=
      copy_back_sound hmade hplain (houtside.of_same hkeepsMade.working) hcopies
    have hcopied' : IsSound store home { host with files := copied }.files entries := hcopied
    obtain ⟨entries', hsound', hgrows, hkeeps⟩ := set_restored_advances hcopied' hset
    exact ⟨entries', hsound', hgrows, (hkeepsMade.trans hkeepsCopied).trans hkeeps⟩

/-- What restoring does in a sound store depends on the first entry of the id. -/
theorem run_restore (hsound : IsSound store home host.files entries) (id : Json) :
    (store.restore id).run host =
      match entries.find? fun e => e.HasId id with
      | none => (.error (.unknownBackup (idText id)), host)
      | some e =>
          if e.restored then (.ok (), host) else (store.restoreRecord id e.fields).run host :=
  run_restore_of_records hsound.isOpen hsound.records id

/-- Restoring keeps the store sound, also where it fails. -/
theorem restore_advances {r : Except BackupError Unit}
    (hsound : IsSound store home host.files entries)
    (h : (store.restore id).run host = (r, host')) :
    Advances store home entries host.files host'.files := by
  rw [run_restore hsound] at h
  split at h
  · obtain ⟨-, rfl⟩ := Prod.mk.inj h
    exact Advances.refl hsound
  · rename_i e hfind
    split at h
    · obtain ⟨-, rfl⟩ := Prod.mk.inj h
      exact Advances.refl hsound
    · exact restore_record_advances hsound (List.mem_of_find?_eq_some hfind) h

/-- An attempt to restore does what restoring does, and gives a reason where that fails. -/
theorem attempt_cases {r : Except BackupError (Option (String × String))}
    (h : (store.attempt id).run host = (r, host')) :
    ∃ outcome, (store.restore id).run host = (outcome, host') ∧
      (r = .ok none → outcome = .ok ()) := by
  unfold attempt at h
  rw [run_catch] at h
  rcases hrun : (store.restore id).run host with ⟨outcome, after⟩
  cases outcome with
  | ok u =>
      rw [run_bind_of_ok hrun] at h
      obtain ⟨-, rfl⟩ := Prod.mk.inj h
      exact ⟨.ok (), rfl, fun _ => rfl⟩
  | error error =>
      rw [run_bind_of_error hrun] at h
      simp only at h
      split at h
      · obtain ⟨rfl, rfl⟩ := Prod.mk.inj h
        exact ⟨.error error, rfl, nofun⟩
      · obtain ⟨rfl, rfl⟩ := Prod.mk.inj h
        exact ⟨.error error, rfl, nofun⟩

theorem run_attempt_of_ok (h : (store.restore id).run host = (.ok (), host')) :
    (store.attempt id).run host = (.ok none, host') := by
  unfold attempt
  rw [run_catch, run_bind_of_ok h]
  rfl

theorem run_attempt_of_error {error : BackupError} (hseparable : error.Separable)
    (h : (store.restore id).run host = (.error error, host')) :
    (store.attempt id).run host = (.ok (some (idText id, error.message)), host') := by
  unfold attempt
  rw [run_catch, run_bind_of_error h]
  simp only [hseparable, if_true]
  rfl

/-- Several ids are attempted one after the other. -/
theorem restore_each_of_ne (hnull : id ≠ .null) (rest : List Json) :
    store.restoreEach (id :: rest) = (do
      let failure ← store.attempt id
      return failure.toList ++ (← store.restoreEach rest)) := by
  rw [restoreEach]
  exact hnull

/-- What each restoring keeps is kept by several. The induction is on the ids. -/
theorem restore_each_keeps {P : Host → Prop}
    (hrestore : ∀ id host host' r, P host → (store.restore id).run host = (r, host') → P host')
    {ids : List Json} {r : Except BackupError (List (String × String))} (hhost : P host)
    (h : (store.restoreEach ids).run host = (r, host')) : P host' := by
  induction ids generalizing host r with
  | nil =>
      obtain ⟨-, rfl⟩ := Prod.mk.inj h
      exact hhost
  | cons id rest ih =>
      by_cases hnull : id = .null
      · subst hnull
        exact ih hhost h
      · rw [restore_each_of_ne hnull] at h
        rcases run_bind_cases h with ⟨error, hattempt, -⟩ | ⟨failure, middle, hattempt, hrest⟩
        · obtain ⟨outcome, hrun, -⟩ := attempt_cases hattempt
          exact hrestore _ _ _ _ hhost hrun
        · obtain ⟨outcome, hrun, -⟩ := attempt_cases hattempt
          have hmiddle := hrestore _ _ _ _ hhost hrun
          rcases run_bind_cases hrest with ⟨error, hothers, -⟩ | ⟨others, last, hothers, hreturn⟩
          · exact ih hmiddle hothers
          · obtain ⟨-, rfl⟩ := Prod.mk.inj hreturn
            exact ih hmiddle hothers

/-- Restoring several backups keeps the store sound, also where some fail. -/
theorem restore_many_advances {ids : List Json} {r : Except BackupError Unit}
    (hsound : IsSound store home host.files entries)
    (h : (store.restoreMany ids).run host = (r, host')) :
    Advances store home entries host.files host'.files := by
  have hkeeps : ∀ id before after r, Advances store home entries host.files before.files →
      (store.restore id).run before = (r, after) →
      Advances store home entries host.files after.files :=
    fun _ _ _ _ hbefore hrun => hbefore.trans fun _ hsound' => restore_advances hsound' hrun
  have hstart : Advances store home entries host.files host.files := Advances.refl hsound
  unfold restoreMany at h
  rcases run_bind_cases h with ⟨error, heach, -⟩ | ⟨failures, middle, heach, hrest⟩
  · exact restore_each_keeps hkeeps hstart heach
  · have hmiddle : Advances store home entries host.files middle.files :=
      restore_each_keeps hkeeps hstart heach
    by_cases hnone : failures = []
    · rw [if_neg (not_not_intro hnone)] at hrest
      obtain ⟨-, rfl⟩ := Prod.mk.inj hrest
      exact hmiddle
    · rw [if_pos hnone] at hrest
      obtain ⟨-, rfl⟩ := Prod.mk.inj hrest
      exact hmiddle

end Store

end Excise
