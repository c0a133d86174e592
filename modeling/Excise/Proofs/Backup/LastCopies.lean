import Excise.Proofs.Backup.Saving

/-!
# Restoring backups in turn

Backups are restored in the order of their records, so a file with several of them ends with the
content of the last one. One step brings back the copy of one backup and changes no other file
outside the store (`restore_brings_back`), and leaves the others to do (`IsUnderway.next`). From it,
by induction on the backups that are left, follows what restoring all of them does
(`restore_each_last`).
-/

namespace Excise

namespace Store

open Ledger (Backup BackupEntry)

/-- A backup that can be brought back: its copy is stored, and a file outside the store stands where
it was taken from. -/
structure IsReturnable (store : Store) (home : Location) (fs : FileSystem) (b : Backup) : Prop where
  stored : ∃ name bytes, IsStored store home fs b name bytes
  file : ∃ location content, ¬ home <+: location ∧ IsOf location b ∧
    fs.get? location = some (.file content)

variable {store : Store} {home location : Location} {fs fs' : FileSystem} {host host' : Host}
  {entries done : List BackupEntry} {todo : List Backup} {b : Backup} {name : String}
  {bytes content : Bytes}

/-- What stands outside the store is neither the manifest nor its draft. -/
theorem not_in_store (houtside : ¬ home <+: location) :
    ¬ (location = draftSpot home ∨ location = ledgerSpot home) :=
  not_or.mpr (not_ledger_above houtside List.prefix_rfl)

/-- A copy is neither the manifest nor its draft. -/
theorem copy_not_ledger (home : Location) (id name : String) :
    ¬ (copySpot home id name = draftSpot home ∨ copySpot home id name = ledgerSpot home) :=
  not_or.mpr ⟨copy_ne_draft home id name, copy_ne_ledger home id name⟩

/-- Restoring a file outside the store writes in the place of no copy. -/
theorem copy_not_written (houtside : ¬ home <+: location) (id name : String) :
    ¬ (copySpot home id name = location ∨ copySpot home id name = draftSpot home ∨
      copySpot home id name = ledgerSpot home) :=
  not_or.mpr ⟨fun h => houtside (h ▸ List.prefix_append _ _), copy_not_ledger home id name⟩

/-- A stored copy has one content. -/
theorem IsStored.content_unique {name' : String} {bytes' : Bytes} (hstands : store.Stands home fs)
    (h : IsStored store home fs b name bytes) (h' : IsStored store home fs b name' bytes') :
    bytes = bytes' :=
  Except.ok.inj ((h.read hstands).symm.trans (h'.read hstands))

/-- A backup can still be brought back where its copy is stored and each file outside the store is
still one. -/
theorem IsReturnable.of_kept (h : IsReturnable store home fs b)
    (hstored : ∀ name bytes, IsStored store home fs b name bytes →
      IsStored store home fs' b name bytes)
    (hfiles : ∀ location content, ¬ home <+: location →
      fs.get? location = some (.file content) →
      ∃ content', fs'.get? location = some (.file content')) :
    IsReturnable store home fs' b := by
  obtain ⟨name, bytes, hcopy⟩ := h.stored
  obtain ⟨location, content, houtside, hof, hfile⟩ := h.file
  obtain ⟨content', hfile'⟩ := hfiles location content houtside hfile
  exact ⟨⟨name, bytes, hstored name bytes hcopy⟩, location, content', houtside, hof, hfile'⟩

/-- No directory stands in the place of a file. -/
theorem no_directory_of_file {path : Path}
    (hfile : fs.get? (fs.place path) = some (.file content)) :
    ¬ fs.HasDirectory path := by
  intro hthere
  obtain ⟨-, hlocate, -⟩ := FileSystem.exists_iff.mp
    (show fs.Exists path by rw [FileSystem.Exists, hthere]; rfl)
  rw [FileSystem.HasDirectory, FileSystem.at?_of_locate hlocate, hfile] at hthere
  cases hthere

/-- Restoring a backup, where that succeeds, brings the content of its copy back into the file it
was taken from. It writes to no other file outside the store, and marks the entry. -/
theorem restore_brings_back (hopen : store.IsOpen home host.files)
    (hrecords : recordsAt host.files home = .ok (entries.map BackupEntry.record))
    (hfind : (entries.find? fun e => e.HasId (.text b.id)) = some (.ofBackup b))
    (hstored : IsStored store home host.files b name bytes) (hof : IsOf location b)
    (houtside : ¬ home <+: location) (hfile : host.files.get? location = some (.file content))
    (h : (store.restore (.text b.id)).run host = (.ok (), host')) :
    store.IsOpen home host'.files ∧ IsReady home host'.files ∧
      recordsAt host'.files home =
        .ok ((Ledger.markFirst (.text b.id) entries).map BackupEntry.record) ∧
      host'.files.get? location = some (.file bytes) ∧
      ∃ directories, host.files.ChangesOnly host'.files
        (fun l => l = location ∨ l = draftSpot home ∨ l = ledgerSpot home) directories := by
  have hnames := hopen.wellFormed.names _ _ hfile
  have hpath : Path.ofText b.originalPath = ⟨.absolute, location⟩ :=
    hof ▸ Path.of_text_text fun part hpart => (hnames part hpart).1
  have hplain : Path.IsPlain ⟨.absolute, location⟩ := fun part hpart => (hnames part hpart).1
  rw [run_restore_of_records hopen hrecords, hfind] at h
  obtain ⟨error, files, hr, -⟩ | ⟨bytes', made, copied, hread, -, hmakes, hcopies, hset⟩ :=
    restore_record_cases h
  · exact nomatch hr
  simp only [BackupEntry.ofBackup, hpath] at hread hmakes hcopies
  -- Making the directory of the file writes no file.
  obtain ⟨hmade, hmadeChanges, -⟩ :=
    FileSystem.make_directories_changes hopen.wellFormed hplain.parent hmakes
  have hthere : made.get? location = some (.file content) := hmadeChanges.file (fun hl => hl) hfile
  have hplace : made.place ⟨.absolute, location⟩ = location :=
    FileSystem.place_absolute fun part hpart => (hnames part hpart).2.1
  have hopenMade := hopen.of_kept hmade hmadeChanges.toKeepsDirectories
  -- The copy goes to the place of the file.
  obtain ⟨copy, hcopy, hcopied, hcopiedChanges, hback, -⟩ := FileSystem.copy_changes hmade
    (fun _ => hplain) (no_directory_of_file (hplace.symm ▸ hthere)) hcopies
  rw [hplace] at hcopiedChanges hback
  obtain rfl : copy = bytes := by
    have hreadMade := (hstored.of_changes hmadeChanges fun hl => hl).read hopenMade.toStands
    exact Except.ok.inj (hcopy.symm.trans hreadMade)
  have hbefore : host.files.ChangesOnly copied (· = location) _ :=
    (hmadeChanges.mono (fun _ => False.elim) fun _ hl => hl).trans
      (hcopiedChanges.mono (fun _ hl => hl) fun _ => False.elim)
  -- The flag of the entry is set.
  have hopenCopied : store.IsOpen home { host with files := copied }.files :=
    hopen.of_kept hcopied hbefore.toKeepsDirectories
  have hledger := ledger_at_of_changes hbefore fun hl => not_in_store houtside (.inr hl.symm)
  have hrecordsCopied : recordsAt { host with files := copied }.files home =
      .ok (entries.map BackupEntry.record) := by rw [recordsAt, hledger, ← recordsAt, hrecords]
  obtain ⟨hafter, hboth, hready, hmarked⟩ :=
    set_restored_marks hopenCopied hrecordsCopied (List.mem_of_find?_eq_some hfind) hset
  exact ⟨hopenCopied.of_kept hafter hboth.toKeepsDirectories, hready, hmarked,
    hboth.file (not_in_store houtside) hback, _,
    (hbefore.mono (fun _ hl => .inl hl) fun _ hl => hl).trans
      (hboth.mono (fun _ hl => .inr hl) fun _ => False.elim)⟩

/-- Restoring several backups without a failure restores the first one, and then the others. -/
theorem restore_each_cons {ids : List Json} {id : String} :
    (store.restoreEach (.text id :: ids)).run host = (.ok [], host') ↔
      ∃ middle, (store.restore (.text id)).run host = (.ok (), middle) ∧
        (store.restoreEach ids).run middle = (.ok [], host') := by
  have hne : Json.text id ≠ .null := by simp
  rw [restore_each_of_ne hne]
  constructor
  · intro h
    obtain ⟨error, -, hr⟩ | ⟨failure, middle, hattempt, hrest⟩ := run_bind_cases h
    · cases hr
    obtain ⟨error, -, hr⟩ | ⟨others, last, hothers, hreturn⟩ := run_bind_cases hrest
    · cases hr
    obtain ⟨hr, rfl⟩ := Prod.mk.inj hreturn
    obtain ⟨hfailure, rfl⟩ := List.append_eq_nil_iff.mp (Except.ok.inj hr)
    obtain ⟨outcome, hrun, houtcome⟩ := attempt_cases hattempt
    obtain rfl := houtcome (by rw [Option.toList_eq_nil_iff.mp hfailure])
    exact ⟨middle, hrun, hothers⟩
  · rintro ⟨middle, hrun, hothers⟩
    rw [run_bind_of_ok (run_attempt_of_ok hrun), run_bind_of_ok hothers]
    rfl

/-- Backups are restored in turn: the entries of those that are done are marked, and those to do can
be brought back. No id comes twice. -/
structure IsUnderway (store : Store) (home : Location) (fs : FileSystem) (done : List BackupEntry)
    (todo : List Backup) : Prop where
  isOpen : store.IsOpen home fs
  records : recordsAt fs home = .ok ((done ++ todo.map BackupEntry.ofBackup).map BackupEntry.record)
  apart : ∀ e ∈ done, ∀ b ∈ todo, e.backup.id ≠ b.id
  distinct : (todo.map Backup.id).Nodup
  returnable : ∀ b ∈ todo, IsReturnable store home fs b

/-- None of the backups that are done has the id of the next one. -/
theorem IsUnderway.not_done (h : IsUnderway store home fs done (b :: todo)) :
    ∀ e ∈ done, ¬ e.HasId (.text b.id) := fun e he hid =>
  h.apart e he b List.mem_cons_self ((BackupEntry.has_id_text _ _).mp hid)

/-- The entry of the next backup is the first one of its id. -/
theorem IsUnderway.find (h : IsUnderway store home fs done (b :: todo)) :
    ((done ++ (b :: todo).map BackupEntry.ofBackup).find? fun e => e.HasId (.text b.id)) =
      some (.ofBackup b) :=
  Ledger.find_append_iff.mpr ⟨(BackupEntry.has_id_text _ _).mpr rfl, done, _, rfl, h.not_done⟩

/-- Restoring the next backup leaves the others to do, and all copies as they are. If the backup is
of a file, the file has the content of the copy then, and else what it held. -/
theorem IsUnderway.next (h : IsUnderway store home host.files done (b :: todo))
    (hrun : (store.restore (.text b.id)).run host = (.ok (), host')) :
    IsUnderway store home host'.files (done ++ [(BackupEntry.ofBackup b).marked]) todo ∧
      IsReady home host'.files ∧
      (∀ b' name bytes, IsStored store home host.files b' name bytes →
        IsStored store home host'.files b' name bytes) ∧
      ∀ location content, ¬ home <+: location →
        host.files.get? location = some (.file content) →
        ∃ now, host'.files.get? location = some (.file now) ∧
          (IsOf location b → ∀ name bytes, IsStored store home host.files b name bytes →
            now = bytes) ∧
          (¬ IsOf location b → now = content) := by
  obtain ⟨hnotTodo, hdistinct⟩ := List.nodup_cons.mp h.distinct
  obtain ⟨⟨name, bytes, hstored⟩, place, old, hplace, hof, hthere⟩ :=
    h.returnable b List.mem_cons_self
  obtain ⟨hopen, hready, hmarked, hback, directories, hchanges⟩ :=
    restore_brings_back h.isOpen h.records h.find hstored hof hplace hthere hrun
  have hhasId : (BackupEntry.ofBackup b).HasId (.text b.id) := (BackupEntry.has_id_text _ _).mpr rfl
  rw [List.map_cons, Ledger.mark_first_append hhasId h.not_done,
    List.append_cons done (BackupEntry.ofBackup b).marked] at hmarked
  have hcopies : ∀ b' name bytes, IsStored store home host.files b' name bytes →
      IsStored store home host'.files b' name bytes := fun b' name' bytes' hstored' =>
    hstored'.of_changes hchanges (copy_not_written hplace b'.id name')
  have hcontents : ∀ location content, ¬ home <+: location →
      host.files.get? location = some (.file content) →
      ∃ now, host'.files.get? location = some (.file now) ∧
        (IsOf location b → ∀ name bytes, IsStored store home host.files b name bytes →
          now = bytes) ∧
        (¬ IsOf location b → now = content) := by
    intro location content houtside hfile
    by_cases hofLocation : IsOf location b
    · obtain rfl := is_of_inj (h.isOpen.wellFormed.names _ _ hfile)
        (h.isOpen.wellFormed.names _ _ hthere) hofLocation hof
      exact ⟨bytes, hback,
        fun _ _ _ hstored' => hstored.content_unique h.isOpen.toStands hstored',
        fun hno => absurd hofLocation hno⟩
    · refine ⟨content, hchanges.file (fun hwritten => ?_) hfile,
        fun hyes => absurd hyes hofLocation, fun _ => rfl⟩
      rcases hwritten with rfl | hwritten
      · exact hofLocation hof
      · exact not_in_store houtside hwritten
  refine ⟨⟨hopen, hmarked, fun e he b' hb' => ?_, hdistinct, fun b' hb' =>
    (h.returnable b' (List.mem_cons_of_mem _ hb')).of_kept (hcopies b')
      fun location content houtside hfile => ?_⟩, hready, hcopies, hcontents⟩
  · rcases List.mem_append.mp he with he | he
    · exact h.apart e he b' (List.mem_cons_of_mem _ hb')
    · obtain rfl := List.mem_singleton.mp he
      exact fun hsame => hnotTodo (List.mem_map.mpr ⟨b', hb', hsame.symm⟩)
  · obtain ⟨now, hnow, -⟩ := hcontents location content houtside hfile
    exact ⟨now, hnow⟩

/-- Restoring backups in turn, where all of that succeeds, leaves in each file outside the store the
content of its last backup, or what it held if it has none. The induction is on the backups that are
left to do. -/
theorem restore_each_last (h : IsUnderway store home host.files done todo)
    (hrun : (store.restoreEach (todo.map fun b => .text b.id)).run host = (.ok [], host'))
    (houtside : ¬ home <+: location) (hfile : host.files.get? location = some (.file content)) :
    ∃ kept, host'.files.get? location = some (.file kept) ∧
      match todo.findRev? fun b => IsOf location b with
      | none => kept = content
      | some b => ∀ name bytes, IsStored store home host.files b name bytes → kept = bytes := by
  induction todo generalizing host done content with
  | nil =>
      obtain ⟨-, rfl⟩ := Prod.mk.inj hrun
      exact ⟨content, hfile, rfl⟩
  | cons b rest ih =>
      obtain ⟨middle, hfirst, hothers⟩ := restore_each_cons.mp hrun
      obtain ⟨hmiddle, -, hcopies, hstep⟩ := h.next hfirst
      obtain ⟨now, hnow, hof, hnotOf⟩ := hstep location content houtside hfile
      obtain ⟨kept, hkept, hlast⟩ := ih hmiddle hothers hnow
      refine ⟨kept, hkept, ?_⟩
      rw [List.findRev?]
      cases hfind : rest.findRev? fun b => IsOf location b with
      | some b' =>
          rw [hfind] at hlast
          exact fun name bytes hstored => hlast name bytes (hcopies b' name bytes hstored)
      | none =>
          rw [hfind] at hlast
          obtain rfl : kept = now := hlast
          by_cases hlocation : IsOf location b
          · simp only [hlocation, decide_true]
            exact hof hlocation
          · simp only [hlocation, decide_false]
            exact hnotOf hlocation

/-- Where a file stands, nothing is in the way of one. -/
theorem clear_of_file (hfs : fs.WellFormed) (hfile : fs.get? location = some (.file content)) :
    IsClear fs location := by
  refine ⟨by simp [hfile], fun front hfront hne bytes habove => ?_⟩
  obtain ⟨rest, rfl⟩ := hfront
  have hdirectory := hfs.directory_of_below hfile fun hnil => hne (by simp [hnil])
  rw [habove] at hdirectory
  exact nomatch hdirectory

/-- The next backup can be restored, if the path of its file can be used. -/
theorem IsUnderway.succeeds (h : IsUnderway store home host.files done (b :: todo))
    (hready : IsReady home host.files)
    (husable : FileSystem.IsUsable (Path.ofText b.originalPath)) :
    ∃ host', (store.restore (.text b.id)).run host = (.ok (), host') := by
  obtain ⟨⟨name, bytes, hstored⟩, place, old, hplace, hof, hthere⟩ :=
    h.returnable b List.mem_cons_self
  have hnames := h.isOpen.wellFormed.names _ _ hthere
  have hpath : Path.ofText b.originalPath = ⟨.absolute, place⟩ :=
    hof ▸ Path.of_text_text fun part hpart => (hnames part hpart).1
  have hnamed : (Path.ofText b.originalPath).IsNamed := hpath ▸ hnames
  obtain rfl : host.files.place (Path.ofText b.originalPath) = place :=
    hpath ▸ FileSystem.place_absolute fun name hname => (hnames name hname).2.1
  obtain ⟨made, copied, hmakes, hcopies, hcopied, -, hchanges⟩ := copy_back_succeeds
    h.isOpen.toStands hstored hnamed husable hplace (clear_of_file h.isOpen.wellFormed hthere)
  -- Bringing the copy back leaves the manifest as it is.
  have hopen : store.IsOpen home { host with files := copied }.files :=
    h.isOpen.of_kept hcopied hchanges.toKeepsDirectories
  have hledger := ledger_at_of_changes hchanges fun hl => not_in_store hplace (.inr hl.symm)
  have hrecords : recordsAt { host with files := copied }.files home = _ :=
    (by rw [recordsAt, hledger, ← recordsAt] : _ = recordsAt host.files home).trans h.records
  have hreadyCopied : IsReady home { host with files := copied }.files :=
    ⟨hchanges.free (fun hl => (not_ledger_above hplace hl.1).1 rfl) hready.draft,
      hchanges.free (fun hl => (not_ledger_above hplace hl.1).2 rfl) hready.ledger⟩
  obtain ⟨host', hset⟩ := set_restored_succeeds hopen hrecords hreadyCopied (.text b.id)
  exact ⟨host', (run_restore_intact h.isOpen h.records h.find rfl
    (hstored.intact h.isOpen.toStands) hmakes hcopies).trans
    hset⟩

/-- Restoring backups in turn succeeds, if the paths of their files can be used. The induction is on
the backups that are left to do. -/
theorem restore_each_succeeds (h : IsUnderway store home host.files done todo)
    (hready : IsReady home host.files)
    (husable : ∀ b ∈ todo, FileSystem.IsUsable (Path.ofText b.originalPath)) :
    ∃ host', (store.restoreEach (todo.map fun b => .text b.id)).run host = (.ok [], host') := by
  induction todo generalizing host done with
  | nil => exact ⟨host, rfl⟩
  | cons b rest ih =>
      obtain ⟨middle, hfirst⟩ := h.succeeds hready (husable b List.mem_cons_self)
      obtain ⟨hmiddle, hreadyMiddle, -⟩ := h.next hfirst
      obtain ⟨last, hothers⟩ :=
        ih hmiddle hreadyMiddle fun b' hb' => husable b' (List.mem_cons_of_mem _ hb')
      exact ⟨last, restore_each_cons.mpr ⟨middle, hfirst, hothers⟩⟩

end Store

end Excise
