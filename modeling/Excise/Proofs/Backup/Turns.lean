import Excise.Proofs.Backup.Complete
import Excise.Proofs.Backup.Runs

/-!
# Restoring one backup and several

The records of a store are in order if they have all their fields and those that are pending are of
files outside the store (`Store.IsInOrder`). Restoring an id then fails in cases that can be seen
beforehand, and where it fails it changes nothing (`IsInOrder.restore_cases`). Several ids are
restored in turn (`Store.turns`), which comes to restoring those of them that do not fail
(`failures_leave_no_trace`).
-/

namespace Excise

namespace Store

open Ledger (Backup BackupEntry Tells)

/-- Where the original of a record stands. -/
def originalSpot (fs : FileSystem) (b : Backup) : Location := fs.place (Path.ofText b.originalPath)

/-- The original of a record stands outside the store, where a file can be, and its path does not go
up. -/
structure IsPlaced (home : Location) (fs : FileSystem) (b : Backup) : Prop where
  named : (Path.ofText b.originalPath).IsNamed
  usable : FileSystem.IsUsable (Path.ofText b.originalPath)
  outside : ¬ home <+: originalSpot fs b

/-- The records of an open store have all their fields, and tell the entries. Those that are pending
are of files outside the store. -/
structure IsInOrder (store : Store) (home : Location) (fs : FileSystem)
    (entries : List BackupEntry) : Prop where
  isOpen : store.IsOpen home fs
  ready : IsReady home fs
  records : ∃ items, recordsAt fs home = .ok items ∧ List.Forall₂ Tells items entries
  placed : ∀ e ∈ entries, e.restored = false → IsPlaced home fs e.backup

/-- The copy of a backup can be put back: the directory of the file can be made, and the copy can be
copied there. -/
def CanPutBack (fs : FileSystem) (b : Backup) : Prop :=
  ∃ made copied, fs.makeDirectories (Path.ofText b.originalPath).parent = .ok made ∧
    made.copy (Path.ofText b.copyPath) (Path.ofText b.originalPath) = .ok copied

/-- A file stands in the place of a directory above the original, or the copy is what stands in the
place of the original. -/
def IsBlocked (fs : FileSystem) (b : Backup) : Prop :=
  (∃ front bytes, front <+: originalSpot fs b ∧ front ≠ originalSpot fs b ∧
    fs.get? front = some (.file bytes)) ∨
    fs.locate (Path.ofText b.copyPath) = .ok (originalSpot fs b)

variable {store : Store} {home : Location} {fs fs' made : FileSystem} {host host' : Host}
  {b : Backup} {e : BackupEntry} {entries : List BackupEntry} {id : Json}
  {files directories : Location → Prop}

/-- A sound store whose pending records can be placed is in order. -/
theorem IsSound.in_order (h : IsSound store home fs entries) (hready : IsReady home fs)
    (hplaced : ∀ e ∈ entries, e.restored = false → IsPlaced home fs e.backup) :
    IsInOrder store home fs entries :=
  ⟨h.isOpen, hready, ⟨_, h.records, Ledger.told_records entries⟩, hplaced⟩

/-! ## Putting a copy back -/

namespace IsPlaced

/-- Where the original stands depends on the working directory alone. -/
theorem of_same (h : IsPlaced home fs b) (hworking : fs'.workingDirectory = fs.workingDirectory) :
    IsPlaced home fs' b := by
  refine ⟨h.named, h.usable, ?_⟩
  rw [originalSpot, FileSystem.place_eq hworking]
  exact h.outside

variable (h : IsPlaced home fs b)

include h

/-- The path avoids the store. -/
theorem avoids : Avoids home fs (Path.ofText b.originalPath) :=
  avoids_of_place h.named.ne_up h.outside

/-- No file is above where the directory of the file was made. -/
theorem no_file_above (hfs : fs.WellFormed)
    (hmakes : fs.makeDirectories (Path.ofText b.originalPath).parent = .ok made) :
    ∀ front, front <+: originalSpot fs b → front ≠ originalSpot fs b →
      ∀ bytes, fs.get? front ≠ some (.file bytes) := by
  intro front hfront hne bytes hfile
  have habove : front <+: fs.place (Path.ofText b.originalPath).parent := by
    rcases FileSystem.place_above fs h.named with ⟨hsame, -⟩ | hlast
    · rwa [hsame]
    · rw [originalSpot, hlast] at hfront hne
      exact (List.prefix_concat_iff.mp hfront).resolve_left hne
  obtain ⟨error, herror⟩ :=
    FileSystem.make_directories_error hfs h.named.parent.is_plain habove hfile
  rw [herror] at hmakes
  cases hmakes

/-- If the copy cannot be put back, no directory was made for it. -/
theorem made_nothing {error : FileError} (hfs : fs.WellFormed) (hintact : IsIntact fs b)
    (hmakes : fs.makeDirectories (Path.ofText b.originalPath).parent = .ok made)
    (hcopies : made.copy (Path.ofText b.copyPath) (Path.ofText b.originalPath) = .error error) :
    made = fs := by
  by_cases hdirectory : fs.get? (fs.place (Path.ofText b.originalPath).parent) = some .directory
  · have hlocate := hfs.locate_named h.named.parent (h.usable.parent h.named) hdirectory
    rw [FileSystem.make_directories_of_directory hlocate hdirectory] at hmakes
    exact (Except.ok.inj hmakes).symm
  · -- Where the directory was made nothing stood, so nothing was in the way of the copy.
    have hnothing : fs.get? (originalSpot fs b) = none := by
      rcases FileSystem.place_above fs h.named with ⟨hsame, hbase⟩ | hlast
      · rw [hsame, hbase] at hdirectory
        exact absurd (hfs.base_directory _) hdirectory
      · rw [originalSpot, hlast]
        exact hfs.nothing_below hdirectory (by simp)
    have hclear : IsClear fs (originalSpot fs b) :=
      ⟨by simp [hnothing], h.no_file_above hfs hmakes⟩
    obtain ⟨bytes, hread, -⟩ := hintact
    obtain ⟨spot, hlocate, hfile⟩ := FileSystem.read_eq_ok_iff.mp hread
    have hother : spot ≠ originalSpot fs b := by
      rintro rfl
      cases hnothing.symm.trans hfile
    obtain ⟨made', copied, hmakes', hcopies', -⟩ :=
      put_back_succeeds hfs hlocate hfile h.named h.usable hother hclear
    obtain rfl : made' = made := Except.ok.inj (hmakes'.symm.trans hmakes)
    cases hcopies'.symm.trans hcopies

/-- Where no directory stands in the place of the original, an intact copy can be put back unless
something is in the way. -/
theorem can_put_back_iff (hfs : fs.WellFormed) (hintact : IsIntact fs b)
    (hfree : fs.get? (originalSpot fs b) ≠ some .directory) :
    CanPutBack fs b ↔ ¬ IsBlocked fs b := by
  obtain ⟨bytes, hread, -⟩ := hintact
  obtain ⟨spot, hlocate, hfile⟩ := FileSystem.read_eq_ok_iff.mp hread
  constructor
  · rintro ⟨made, copied, hmakes, hcopies⟩ (⟨front, other, hfront, hne, hthere⟩ | hsame)
    · exact h.no_file_above hfs hmakes front hfront hne other hthere
    · -- A file is not copied onto itself.
      obtain rfl := Except.ok.inj (hlocate.symm.trans hsame)
      obtain ⟨hmade, hchanges, -⟩ :=
        FileSystem.make_directories_changes hfs h.named.parent.is_plain hmakes
      have hstays := hchanges.file (fun hl => hl) hfile
      have hplace := FileSystem.place_eq hchanges.workingDirectory (Path.ofText b.originalPath)
      have hsource := FileSystem.locate_of_kept hchanges.toKeepsDirectories hlocate
      have htarget : made.locate (Path.ofText b.originalPath) = .ok (originalSpot fs b) := by
        rw [originalSpot, ← hplace] at hstays ⊢
        exact hmade.locate_named h.named h.usable hstays
      have hno : ¬ made.HasDirectory (Path.ofText b.originalPath) := by
        rw [FileSystem.HasDirectory, FileSystem.at?_of_locate htarget, hstays]
        simp
      have hexists : made.Exists (Path.ofText b.copyPath) := by
        rw [FileSystem.Exists, FileSystem.at?_of_locate hsource, hstays]
        rfl
      refine (FileSystem.copy_eq_ok_iff.mp hcopies).1 ⟨hexists, ?_⟩
      rw [FileSystem.copy_destination_of_free hno, hsource, htarget]
  · intro hclear
    have hother : spot ≠ originalSpot fs b := fun heq => hclear (.inr (heq ▸ hlocate))
    have hway : ∀ front, front <+: originalSpot fs b → front ≠ originalSpot fs b →
        ∀ bytes, fs.get? front ≠ some (.file bytes) :=
      fun front hfront hne bytes hthere => hclear (.inl ⟨front, bytes, hfront, hne, hthere⟩)
    obtain ⟨made, copied, hmakes, hcopies, -⟩ :=
      put_back_succeeds hfs hlocate hfile h.named h.usable hother ⟨hfree, hway⟩
    exact ⟨made, copied, hmakes, hcopies⟩

end IsPlaced

/-! ## Restoring one backup -/

namespace IsInOrder

variable (h : IsInOrder store home fs entries)

include h

/-- What is changed outside the store leaves the records in order. -/
theorem of_changes (hfs' : fs'.WellFormed) (hchanges : fs.ChangesOnly fs' files directories)
    (hfiles : ∀ l, files l → ¬ home <+: l) (hdirectories : ∀ l, directories l → ¬ home <+: l) :
    IsInOrder store home fs' entries := by
  have hdraft : home <+: draftSpot home := List.prefix_append _ _
  have hspot : home <+: ledgerSpot home := List.prefix_append _ _
  have hledger := ledger_at_of_changes hchanges fun hl => hfiles _ hl hspot
  obtain ⟨items, hrecords, htold⟩ := h.records
  refine ⟨h.isOpen.of_kept hfs' hchanges.toKeepsDirectories,
    ⟨hchanges.free (fun hl => hdirectories _ hl hdraft) h.ready.draft,
      hchanges.free (fun hl => hdirectories _ hl hspot) h.ready.ledger⟩,
    ⟨items, ?_, htold⟩,
    fun e he hpending => (h.placed e he hpending).of_same hchanges.workingDirectory⟩
  rw [recordsAt, hledger, ← recordsAt, hrecords]

/-- Putting a copy back leaves the records in order. -/
theorem of_put_back {copied : FileSystem} (hplaced : IsPlaced home fs b)
    (hmakes : fs.makeDirectories (Path.ofText b.originalPath).parent = .ok made)
    (hcopies : made.copy (Path.ofText b.copyPath) (Path.ofText b.originalPath) = .ok copied) :
    IsInOrder store home copied entries := by
  have hplain := Path.is_plain_of_text b.originalPath
  obtain ⟨hmade, hmadeChanges, -⟩ :=
    FileSystem.make_directories_changes h.isOpen.wellFormed hplain.parent hmakes
  have hinOrder := h.of_changes hmade hmadeChanges (fun _ => False.elim)
    fun l hl => hplaced.avoids.parent hl
  obtain ⟨target, bytes, htarget, -, -, hcopied, hchanges, -⟩ :=
    copied_back hmade hinOrder.isOpen.directory hplain
      (hplaced.of_same hmadeChanges.workingDirectory).avoids.place hcopies
  exact hinOrder.of_changes hcopied hchanges (fun l hl => hl ▸ htarget) fun _ => False.elim

end IsInOrder

/-- The flag of an entry can be set, and the records are in order again. -/
theorem IsInOrder.set_restored (h : IsInOrder store home host.files entries) (he : e ∈ entries)
    (id : Json) : ∃ host', (store.setRestored id).run host = (.ok (), host') ∧
      IsInOrder store home host'.files (Ledger.markFirst id entries) := by
  obtain ⟨items, hrecords, htold⟩ := h.records
  have hread := run_read_ledger h.isOpen (Disk.reads_reliable _)
  cases hledger : ledgerAt host.files home with
  | error error =>
      rw [recordsAt, hledger] at hrecords
      cases hrecords
  | ok manifest =>
      rw [hledger] at hread
      obtain ⟨manifest', items', hset, hreadable, hrecords', htold'⟩ :=
        Ledger.set_restored_told (readable_of_ledger hledger)
          ((records_at_of_ledger hledger).symm.trans hrecords) htold he id
      obtain ⟨host', hwrite⟩ := write_ledger_succeeds h.isOpen h.ready manifest'
      obtain ⟨files, rfl, hfiles, ⟨error, hr, -⟩ | ⟨-, -, hboth, hgone, hfile⟩⟩ :=
        write_ledger_cases h.isOpen.toStands hwrite
      · cases hr
      have hrun : (store.setRestored id).run host = (.ok (), { host with files }) := by
        unfold setRestored
        rw [run_bind_of_ok hread, run_bind_of_ok ((run_of_except _ host).trans (by rw [hset]))]
        exact hwrite
      have hafter : recordsAt files home = .ok items' :=
        (records_at_of_ledger (ledger_at_written hreadable hfile)).trans hrecords'
      have hready : IsReady home files := ⟨by simp [hgone], by simp [hfile]⟩
      refine ⟨_, hrun, h.isOpen.of_kept hfiles hboth.toKeepsDirectories, hready,
        ⟨items', hafter, htold'⟩, fun e' he' hpending => ?_⟩
      -- What is pending now was pending before.
      obtain ⟨entry, hentry, hbackup, hflag⟩ := Ledger.mem_mark_pending he' hpending
      exact hbackup ▸ (h.placed entry hentry hflag).of_same hboth.workingDirectory

/-- Restoring an id fails and changes nothing, or marks its first entry. It fails where no entry has
the id, or where the first one is pending and its copy is not intact or cannot be put back. -/
theorem IsInOrder.restore_cases (h : IsInOrder store home host.files entries) (id : Json) :
    (∃ error : BackupError, error.Separable ∧
      (store.restore id).run host = (.error error, host) ∧
      ∀ e, (entries.find? fun e => e.HasId id) = some e →
        e.restored = false ∧ ¬ (IsIntact host.files e.backup ∧ CanPutBack host.files e.backup)) ∨
    ∃ host', (store.restore id).run host = (.ok (), host') ∧
      IsInOrder store home host'.files (Ledger.markFirst id entries) ∧
      ∃ e, (entries.find? fun e => e.HasId id) = some e ∧
        (e.restored = true ∨ IsIntact host.files e.backup ∧ CanPutBack host.files e.backup) := by
  obtain ⟨items, hrecords, htold⟩ := h.records
  rw [run_restore_of_told h.isOpen hrecords htold id]
  cases hfind : entries.find? fun e => e.HasId id with
  | none => exact .inl ⟨.unknownBackup (idText id), trivial, rfl, nofun⟩
  | some e =>
      cases hrestored : e.restored with
      | true =>
          refine .inr ⟨host, by simp [hrestored], ?_, e, rfl, .inl hrestored⟩
          rwa [Ledger.mark_first_restored hfind hrestored]
      | false =>
          have he := List.mem_of_find?_eq_some hfind
          have hplaced := h.placed e he hrestored
          have honly : ∀ {P : BackupEntry → Prop}, P e → ∀ e', some e = some e' → P e' :=
            fun hP e' hsame => Option.some.inj hsame ▸ hP
          simp only [hrestored, Bool.false_eq_true, if_false]
          rcases run_restore_record_cases store host id e with ⟨error, hseparable, hrun, hwhy⟩ |
            ⟨made, error, hintact, hmakes, hcopies, hrun⟩ |
            ⟨made, copied, hintact, hmakes, hcopies, hrun⟩
          · refine .inl ⟨error, hseparable, hrun, honly ⟨hrestored, ?_⟩⟩
            rintro ⟨hintact, made, copied, hmakes, -⟩
            obtain ⟨error, herror⟩ := hwhy hintact
            exact nomatch herror.symm.trans hmakes
          · obtain rfl := hplaced.made_nothing h.isOpen.wellFormed hintact hmakes hcopies
            refine .inl ⟨.files error, trivial, hrun, honly ⟨hrestored, ?_⟩⟩
            rintro ⟨-, made', copied, hmakes', hcopies'⟩
            obtain rfl := Except.ok.inj (hmakes.symm.trans hmakes')
            exact nomatch hcopies.symm.trans hcopies'
          · have hback : IsInOrder store home { host with files := copied }.files entries :=
              h.of_put_back hplaced hmakes hcopies
            obtain ⟨host', hset, horder⟩ := hback.set_restored he id
            exact .inr ⟨host', hrun.trans hset, horder, e, rfl,
              .inr ⟨hintact, made, copied, hmakes, hcopies⟩⟩

/-! ## Restoring several -/

/-- What became of several ids: those that were restored, those that failed with the reasons, and
the host at the end. -/
structure Turns where
  restored : List Json
  failures : List (String × String)
  last : Host

/-- Restore ids in turn, each from where the one before it ended. A null id has no turn. -/
def turns (store : Store) (host : Host) : List Json → Turns
  | [] => ⟨[], [], host⟩
  | .null :: rest => turns store host rest
  | id :: rest =>
      match (store.restore id).run host with
      | (.ok (), next) =>
          let later := turns store next rest
          { later with restored := id :: later.restored }
      | (.error error, next) =>
          let later := turns store next rest
          { later with failures := (idText id, error.message) :: later.failures }

/-- Restoring the ids one after the other succeeds with each. -/
inductive RestoresInTurn (store : Store) : Host → List Json → Host → Prop where
  | nil (host : Host) : RestoresInTurn store host [] host
  | cons {host next last : Host} {id : Json} {rest : List Json} :
      (store.restore id).run host = (.ok (), next) → RestoresInTurn store next rest last →
      RestoresInTurn store host (id :: rest) last

theorem turns_of_ok (rest : List Json) (hnull : id ≠ .null)
    (h : (store.restore id).run host = (.ok (), host')) :
    store.turns host (id :: rest) =
      { store.turns host' rest with restored := id :: (store.turns host' rest).restored } := by
  rw [turns]
  · rw [h]
  · exact hnull

theorem turns_of_error {error : BackupError} (rest : List Json) (hnull : id ≠ .null)
    (h : (store.restore id).run host = (.error error, host')) :
    store.turns host (id :: rest) =
      { store.turns host' rest with
        failures := (idText id, error.message) :: (store.turns host' rest).failures } := by
  rw [turns]
  · rw [h]
  · exact hnull

/-- As long as each failure leaves the others to be restored, restoring several ids is restoring
them in turn. The induction is on the ids. -/
theorem run_restore_each {P : Host → Prop}
    (hrestore : ∀ id host host' r, P host → (store.restore id).run host = (r, host') →
      P host' ∧ ∀ error, r = .error error → error.Separable)
    (hhost : P host) (ids : List Json) :
    (store.restoreEach ids).run host =
      (.ok (store.turns host ids).failures, (store.turns host ids).last) := by
  induction ids generalizing host with
  | nil => rfl
  | cons id rest ih =>
      by_cases hnull : id = .null
      · subst hnull
        exact ih hhost
      rw [restore_each_of_ne hnull]
      rcases hrun : (store.restore id).run host with ⟨r, next⟩
      obtain ⟨hnext, hseparable⟩ := hrestore _ _ _ _ hhost hrun
      cases r with
      | ok u =>
          rw [run_bind_of_ok (run_attempt_of_ok hrun), run_bind_of_ok (ih hnext),
            turns_of_ok _ hnull hrun]
          rfl
      | error error =>
          rw [run_bind_of_ok (run_attempt_of_error (hseparable error rfl) hrun),
            run_bind_of_ok (ih hnext), turns_of_error _ hnull hrun]
          rfl

/-- Restoring several ids in turn fails at the end if one of them did. -/
theorem run_restore_many {P : Host → Prop}
    (hrestore : ∀ id host host' r, P host → (store.restore id).run host = (r, host') →
      P host' ∧ ∀ error, r = .error error → error.Separable)
    (hhost : P host) (ids : List Json) :
    (store.restoreMany ids).run host =
      (if (store.turns host ids).failures = [] then .ok ()
        else .error (.someNotRestored (store.turns host ids).failures),
        (store.turns host ids).last) := by
  unfold restoreMany
  rw [run_bind_of_ok (run_restore_each hrestore hhost ids)]
  by_cases hnone : (store.turns host ids).failures = []
  · rw [if_neg (not_not_intro hnone), if_pos hnone]
    rfl
  · rw [if_pos hnone, if_neg hnone]
    rfl

/-- Restoring ids in turn comes to restoring those that do not fail. The induction is on the ids:
one that fails leaves the host as it is, with the records in order. -/
theorem IsInOrder.restores_in_turn (h : IsInOrder store home host.files entries)
    (ids : List Json) :
    RestoresInTurn store host (store.turns host ids).restored (store.turns host ids).last := by
  induction ids generalizing host entries with
  | nil => exact .nil host
  | cons id rest ih =>
      by_cases hnull : id = .null
      · subst hnull
        exact ih h
      obtain ⟨error, -, hrun, -⟩ | ⟨next, hrun, hnext, -⟩ := h.restore_cases id
      · rw [turns_of_error _ hnull hrun]
        exact ih h
      · rw [turns_of_ok _ hnull hrun]
        exact .cons hrun (ih hnext)

/-- Restoring keeps the records in order, and its failures leave others to be restored. -/
theorem in_order_restored (id : Json) (host host' : Host) (r : Except BackupError Unit)
    (h : ∃ entries, IsInOrder store home host.files entries)
    (hrun : (store.restore id).run host = (r, host')) :
    (∃ entries, IsInOrder store home host'.files entries) ∧
      ∀ error, r = .error error → error.Separable := by
  obtain ⟨entries, horder⟩ := h
  obtain ⟨error, hseparable, hrun', -⟩ | ⟨next, hrun', hnext, -⟩ := horder.restore_cases id
  · obtain ⟨rfl, rfl⟩ := Prod.mk.inj (hrun.symm.trans hrun')
    exact ⟨⟨entries, horder⟩, fun other hother => Except.error.inj hother ▸ hseparable⟩
  · obtain ⟨rfl, rfl⟩ := Prod.mk.inj (hrun.symm.trans hrun')
    exact ⟨⟨_, hnext⟩, nofun⟩

/-- Where no directory stands in the place of a file, restoring an id fails exactly if no record has
the id, or if its first record is pending and the copy is not intact or something is in the way. A
restoring that fails changes nothing at all. Restoring several ids leaves what restoring those of
them leaves that do not fail; it fails if one of them did, and gives the reason of each in turn. -/
theorem failures_leave_no_trace (h : IsInOrder store home host.files entries) :
    (∀ id,
      (∀ e, (entries.find? fun e => e.HasId id) = some e → e.restored = false →
        host.files.get? (originalSpot host.files e.backup) ≠ some .directory) →
      ((∃ error, ((store.restore id).run host).1 = .error error) ↔
        (∀ e ∈ entries, ¬ e.HasId id) ∨
          ∃ e, (entries.find? fun e => e.HasId id) = some e ∧ e.restored = false ∧
            (¬ IsIntact host.files e.backup ∨ IsBlocked host.files e.backup))) ∧
    (∀ id error, ((store.restore id).run host).1 = .error error →
      ((store.restore id).run host).2 = host) ∧
    ∀ ids,
      RestoresInTurn store host (store.turns host ids).restored (store.turns host ids).last ∧
      (store.restoreMany ids).run host =
        (if (store.turns host ids).failures = [] then .ok ()
          else .error (.someNotRestored (store.turns host ids).failures),
          (store.turns host ids).last) ∧
      (BackupError.someNotRestored (store.turns host ids).failures).message =
        "\n".intercalate ("Failed to restore some files:" ::
          (store.turns host ids).failures.map fun f => f.1 ++ ": " ++ f.2) := by
  refine ⟨fun id hfree => ?_, fun id error herror => ?_, fun ids =>
    ⟨h.restores_in_turn ids, run_restore_many in_order_restored ⟨entries, h⟩ ids, rfl⟩⟩
  · obtain ⟨error, -, hrun, hwhy⟩ | ⟨next, hrun, -, e, hfind, hwhy⟩ := h.restore_cases id
    · rw [hrun]
      refine iff_of_true ⟨error, rfl⟩ ?_
      cases hfind : entries.find? fun e => e.HasId id with
      | none => exact .inl (by simpa using hfind)
      | some e =>
          obtain ⟨hpending, hnot⟩ := hwhy e hfind
          have hplaced := h.placed e (List.mem_of_find?_eq_some hfind) hpending
          refine .inr ⟨e, rfl, hpending, ?_⟩
          by_cases hintact : IsIntact host.files e.backup
          · refine .inr (by_contra fun hclear => hnot ⟨hintact, ?_⟩)
            exact (hplaced.can_put_back_iff h.isOpen.wellFormed hintact
              (hfree e hfind hpending)).mpr hclear
          · exact .inl hintact
    · rw [hrun]
      refine iff_of_false nofun ?_
      rintro (hnone | ⟨e', hfind', hpending, hrefused⟩)
      · exact hnone e (List.mem_of_find?_eq_some hfind) (by simpa using List.find?_some hfind)
      · obtain rfl := Option.some.inj (hfind.symm.trans hfind')
        obtain ⟨hintact, hback⟩ := hwhy.resolve_left (by simp [hpending])
        have hplaced := h.placed e (List.mem_of_find?_eq_some hfind) hpending
        rcases hrefused with hdamaged | hblocked
        · exact hdamaged hintact
        · exact (hplaced.can_put_back_iff h.isOpen.wellFormed hintact
            (hfree e hfind hpending)).mp hback hblocked
  · obtain ⟨error', -, hrun, -⟩ | ⟨next, hrun, -⟩ := h.restore_cases id
    · rw [hrun]
    · rw [hrun] at herror
      exact nomatch herror

/-- The file `a` is backed up in a store in `s`, and restored together with an unknown id. -/
theorem unknown_id_reported :
    ∃ taken first last,
      (openAt (Path.ofText "s") >>= fun store => store.backup (Path.ofText "a") "strip").run
          oneFile = (.ok "b0", taken) ∧
      (∃ error, ((restore ⟨Path.ofText "s"⟩ (.text "zz")).run taken).1 = .error error) ∧
      ((restore ⟨Path.ofText "s"⟩ (.text "zz")).run taken).2 = taken ∧
      (restore ⟨Path.ofText "s"⟩ (.text "b0")).run taken = (.ok (), first) ∧
      (restoreMany ⟨Path.ofText "s"⟩ [.text "zz", .null, .text "b0"]).run taken =
        (.error (.someNotRestored [("zz", "Backup ID not found: zz")]), last) := by
  obtain ⟨opened, taken, hopen, hbackup⟩ := one_file_backed_up
  have hboth : (openAt (Path.ofText "s") >>= fun store =>
      store.backup (Path.ofText "a") "strip").run oneFile = (.ok "b0", taken) :=
    (run_bind_of_ok hopen).trans hbackup
  obtain ⟨hlocate, hfile, -, hcan, hid⟩ := one_file_can_back_up hopen
  have hsound :=
    sound_of_opened one_file_well_formed (Path.is_plain_of_text "s") one_file_home rfl hopen
  obtain ⟨-, hfiles, ⟨error, hr, -⟩ | ⟨b, bytes, hr, hb, -, -, htaken⟩⟩ :=
    backup_cases hsound.isOpen hcan.fresh (Disk.reads_reliable _) hbackup
  · cases hr
  obtain ⟨hsound', -⟩ := taken_sound hsound hcan.outside (hb ▸ hcan.fresh) hfiles htaken
  have hpath := (outside_of_taken hsound.isOpen.wellFormed hcan.outside htaken).1
  rw [← FileSystem.locate_eq_place hlocate] at hpath
  have hspot : originalSpot taken.files b = ["a"] := by
    rw [originalSpot, hpath]
    exact FileSystem.place_absolute (by decide)
  have hplaced : IsPlaced ["s"] taken.files b :=
    ⟨hpath ▸ by decide, hpath ▸ by decide, hspot ▸ by decide⟩
  have horder := hsound'.in_order htaken.ready fun e he _ => by
    obtain rfl := List.mem_singleton.mp he
    exact hplaced
  have hnone : ∀ e ∈ [] ++ [BackupEntry.ofBackup b], ¬ e.HasId (.text "zz") := by
    intro e he
    obtain rfl := List.mem_singleton.mp he
    rw [BackupEntry.has_id_text, BackupEntry.ofBackup, hb, hid]
    decide
  obtain ⟨hfails, hkeeps, hbatch⟩ := failures_leave_no_trace horder
  have hfail := (hfails (.text "zz") fun e hfind _ =>
    absurd (by simpa using List.find?_some hfind) (hnone e (List.mem_of_find?_eq_some hfind))).mpr
    (.inl hnone)
  obtain ⟨error, herror⟩ := hfail
  -- Nothing is in the way of the file.
  have hthere : taken.files.get? ["a"] = some (.file [1]) := by
    refine htaken.changes.file ?_ hfile
    rintro (h | h | h)
    · exact absurd h (by decide)
    · exact absurd h (by decide)
    · simp [copySpot] at h
  have hclear : IsClear taken.files ["a"] := by
    refine ⟨by simp [hthere], fun front hfront hne bytes => ?_⟩
    obtain rfl : front = [] := by
      simpa [hne] using (List.prefix_concat_iff.mp hfront : front = [] ++ ["a"] ∨ front <+: [])
    simp
  have hstored := stored_of_taken hsound'.isOpen.toStands hsound.isOpen.wellFormed
    (hb ▸ hcan.fresh.name) htaken
  have hfind : ([BackupEntry.ofBackup b].find? fun e => e.HasId (.text "b0")) =
      some (.ofBackup b) := by
    simp [BackupEntry.ofBackup, hb, hid]
  obtain ⟨first, hfirst, -⟩ := restore_succeeds hsound' htaken.ready hfind rfl hstored hpath
    (by decide) (by decide) (FileSystem.place_absolute (by decide)) (by decide) hclear
  have hunknown : (restore ⟨Path.ofText "s"⟩ (.text "zz")).run taken =
      (.error (.unknownBackup "zz"), taken) := by
    rw [run_restore hsound', List.find?_eq_none.mpr (by simpa using hnone)]
    rfl
  have hturns := turns_of_error [.null, .text "b0"] (by simp) hunknown
  have hlater := turns_of_ok [] (by simp) hfirst
  have hmany := (hbatch [.text "zz", .null, .text "b0"]).2.1
  rw [hturns, turns, hlater] at hmany
  exact ⟨taken, first, first, hboth, ⟨error, herror⟩, hkeeps _ _ herror, hfirst, hmany⟩

/-- A backup with the id `b0` and the copy `/s/b0/x`. -/
def someBackup (originalPath : String) (copy : Bytes) : Backup :=
  ⟨"b0", originalPath, "/s/b0/x", "", "", Digest.sha256Hex copy⟩

/-- A host with a file `d` and a store in `s` that has one record, which is pending, and its
copy. -/
def oneCopy (originalPath : String) (copy : Bytes) : Host where
  files := ((((FileSystem.put ⟨[], []⟩ ["d"] (.file [])).put ["s"] .directory).put ["s", "b0"]
    .directory).put ["s", "b0", "x"] (.file copy)).put ["s", "manifest.json"] (.file (Bytes.ofText
      (Json.print (.object (Ledger.manifestOf [.ofBackup (someBackup originalPath copy)])))))
  newId _ := ""
  newTime _ := ""
  idsMade := 0
  timesTaken := 0

/-- The store is open, and the copy of its record is intact. -/
theorem one_copy_intact (originalPath : String) (copy : Bytes) :
    IsOpen ⟨Path.ofText "/s"⟩ ["s"] (oneCopy originalPath copy).files ∧
      ledgerAt (oneCopy originalPath copy).files ["s"] =
        .ok (Ledger.manifestOf [.ofBackup (someBackup originalPath copy)]) ∧
      IsIntact (oneCopy originalPath copy).files (someBackup originalPath copy) := by
  have hfiles : (oneCopy originalPath copy).files.WellFormed := by
    refine FileSystem.well_formed_of_entries rfl fun e he => ?_
    have hlocation : e.1 ∈ [["d"], ["s"], ["s", "b0"], ["s", "b0", "x"], ["s", "manifest.json"]] :=
      List.mem_map_of_mem he
    simp only [List.mem_cons, List.not_mem_nil, or_false] at hlocation
    rcases hlocation with h | h | h | h | h <;> rw [h] <;> exact ⟨rfl, by decide⟩
  have hpath : Path.ofText "/s/b0/x" = ⟨.absolute, ["s", "b0", "x"]⟩ := by decide
  have hlocate : (oneCopy originalPath copy).files.locate ⟨.absolute, ["s", "b0", "x"]⟩ = .ok _ :=
    hfiles.locate_absolute rfl (by decide)
  rw [← hpath] at hlocate
  refine ⟨⟨⟨hfiles, Path.is_plain_of_text "/s", ?_, rfl⟩, by decide⟩, ?_, copy, ?_, rfl⟩
  · show FileSystem.locate _ ⟨.absolute, ["s"]⟩ = .ok ["s"]
    exact hfiles.locate_absolute rfl (by decide)
  · rw [ledger_at_written (Ledger.readable_manifest [.ofBackup (someBackup originalPath copy)]) rfl,
      Ledger.reread_manifest]
  · exact FileSystem.read_eq_ok_iff.mpr ⟨_, hlocate, rfl⟩

/-- A backup of the manifest itself is put in its place, before its flag is set. -/
theorem run_restore_manifest (copy : Bytes) :
    ∃ last : Host, (restore ⟨Path.ofText "/s"⟩ (.text "b0")).run
        (oneCopy "/s/manifest.json" copy) = (setRestored ⟨Path.ofText "/s"⟩ (.text "b0")).run last ∧
      IsOpen ⟨Path.ofText "/s"⟩ ["s"] last.files ∧
      last.files.get? (ledgerSpot ["s"]) = some (.file copy) := by
  obtain ⟨hopen, hledger, hintact⟩ := one_copy_intact "/s/manifest.json" copy
  have hfiles := hopen.wellFormed
  have hcopy : Path.ofText "/s/b0/x" = ⟨.absolute, ["s", "b0", "x"]⟩ := by decide
  have hplace : Path.ofText "/s/manifest.json" = ⟨.absolute, ledgerSpot ["s"]⟩ := by decide
  have hparent : (Path.ofText "/s/manifest.json").parent = Path.ofText "/s" := by decide
  have hfree : (oneCopy "/s/manifest.json" copy).files.get? (ledgerSpot ["s"]) ≠
    some .directory := nofun
  have hmakes : (oneCopy "/s/manifest.json" copy).files.makeDirectories
      (Path.ofText "/s/manifest.json").parent = .ok _ :=
    hparent ▸ FileSystem.make_directories_of_directory hopen.located hopen.directory
  have hsource : (oneCopy "/s/manifest.json" copy).files.locate
      ⟨.absolute, ["s", "b0", "x"]⟩ = .ok _ := hfiles.locate_absolute rfl (by decide)
  have hdestination : (oneCopy "/s/manifest.json" copy).files.locate
      ⟨.absolute, ledgerSpot ["s"]⟩ = .ok _ := hfiles.locate_absolute rfl (by decide)
  have hcopies := FileSystem.copy_succeeds hsource rfl hdestination hfree (by decide)
  rw [← hcopy, ← hplace] at hcopies
  refine ⟨_, run_restore_intact hopen (records_at_of_ledger hledger) rfl rfl hintact hmakes hcopies,
    hopen.of_kept ?_ (FileSystem.put_file_changes hfree).toKeepsDirectories, rfl⟩
  exact @FileSystem.WellFormed.put _ ["s"] "manifest.json" _ hfiles (by decide) rfl hfree

/-- A backup whose copy is intact is not restored if a file stands in the place of the directory of
its original. If its original is the manifest itself, restoring it can fail once the manifest was
overwritten. -/
theorem intact_copy_not_restored :
    (ledgerAt (oneCopy "/d/a" []).files ["s"] =
        .ok (Ledger.manifestOf [.ofBackup (someBackup "/d/a" [])]) ∧
      IsIntact (oneCopy "/d/a" []).files (someBackup "/d/a" []) ∧
      (restore ⟨Path.ofText "/s"⟩ (.text "b0")).run (oneCopy "/d/a" []) =
        (.error (.files ⟨.alreadyExists, "/d", none⟩), oneCopy "/d/a" [])) ∧
    (ledgerAt (oneCopy "/s/manifest.json" [255]).files ["s"] =
        .ok (Ledger.manifestOf [.ofBackup (someBackup "/s/manifest.json" [255])]) ∧
      IsIntact (oneCopy "/s/manifest.json" [255]).files (someBackup "/s/manifest.json" [255]) ∧
      ∃ error host', (restore ⟨Path.ofText "/s"⟩ (.text "b0")).run
          (oneCopy "/s/manifest.json" [255]) = (.error error, host') ∧
        host'.files.get? (ledgerSpot ["s"]) = some (.file [255])) := by
  obtain ⟨hopen, hledger, hintact⟩ := one_copy_intact "/d/a" []
  obtain ⟨-, hledger', hintact'⟩ := one_copy_intact "/s/manifest.json" [255]
  obtain ⟨last, hrun, hopenOver, hover⟩ := run_restore_manifest [255]
  have hblocked : (restore ⟨Path.ofText "/s"⟩ (.text "b0")).run (oneCopy "/d/a" []) =
      (.error (.files ⟨.alreadyExists, "/d", none⟩), oneCopy "/d/a" []) := by
    rw [run_restore_of_records hopen (records_at_of_ledger hledger)]
    exact (run_restore_record_of_intact (e := .ofBackup (someBackup "/d/a" [])) hintact).trans
      (run_bind_of_error (BackupAction.run_changing_of_error rfl))
  -- The manifest that was put back is no text.
  obtain ⟨fault, hfault⟩ : ∃ fault, Bytes.decode [255] = .error fault := ⟨_, rfl⟩
  have hread : (readLedger ⟨Path.ofText "/s"⟩).run last = (.error (.notText fault), last) := by
    rw [run_read_ledger hopenOver (Disk.reads_reliable _), ledgerAt, hover]
    simp only [hfault]
  exact ⟨⟨hledger, hintact, hblocked⟩, hledger', hintact', .notText fault, last,
    hrun.trans (run_bind_of_error hread), hover⟩

end Store

end Excise
