import Excise.Proofs.Backup.Stored
import Mathlib.Data.List.Forall2

/-!
# Records with all their fields

A record has all its fields if it is an object that says the backup and the flag of an entry
(`Ledger.Tells`), in whatever order and whatever else it says. Finding and marking go by what the
records tell (`find_told`, `mark_told`), and what a record tells stays the same when it is written
and read again. So restoring does with such a record what it does with that of the entry
(`Store.run_restore_of_told`).
-/

namespace Excise

namespace Ledger

variable {fields manifest : Fields} {item : Json} {items : List Json} {e : BackupEntry}
  {entries : List BackupEntry} {id : Json}

/-- The fields have those of an entry among them. -/
structure Says (fields : Fields) (e : BackupEntry) : Prop where
  id : fields.get? "id" = some (.text e.backup.id)
  originalPath : fields.get? "original_path" = some (.text e.backup.originalPath)
  copyPath : fields.get? "backup_path" = some (.text e.backup.copyPath)
  createdAt : fields.get? "created_at" = some (.text e.backup.createdAt)
  reason : fields.get? "reason" = some (.text e.backup.reason)
  fileHash : fields.get? "file_hash" = some (.text e.backup.fileHash)
  restored : fields.get? "restored" = some (.bool e.restored)

/-- The record is an object with the fields of an entry. -/
def Tells (item : Json) (e : BackupEntry) : Prop := ∃ fields, item = .object fields ∧ Says fields e

namespace Says

variable (h : Says fields e)

include h

theorem required_id : required fields "id" = .ok (.text e.backup.id) := by
  rw [required, h.id]

theorem required_original :
    requiredPath fields "original_path" = .ok (Path.ofText e.backup.originalPath) := by
  rw [requiredPath, required, h.originalPath]

theorem required_copy :
    requiredPath fields "backup_path" = .ok (Path.ofText e.backup.copyPath) := by
  rw [requiredPath, required, h.copyPath]

theorem required_hash : required fields "file_hash" = .ok (.text e.backup.fileHash) := by
  rw [required, h.fileHash]

theorem is_restored_iff : IsRestored fields ↔ e.restored = true := by
  simp [IsRestored, h.restored, Json.Truthy]

/-- Setting the flag changes nothing else. -/
theorem set_restored : Says (fields.set "restored" (.bool true)) e.marked where
  id := (Table.get?_set_of_ne _ _ (by decide)).trans h.id
  originalPath := (Table.get?_set_of_ne _ _ (by decide)).trans h.originalPath
  copyPath := (Table.get?_set_of_ne _ _ (by decide)).trans h.copyPath
  createdAt := (Table.get?_set_of_ne _ _ (by decide)).trans h.createdAt
  reason := (Table.get?_set_of_ne _ _ (by decide)).trans h.reason
  fileHash := (Table.get?_set_of_ne _ _ (by decide)).trans h.fileHash
  restored := Table.get?_set_self _ _ _

/-- Texts and flags are read as they were written. -/
theorem reread : Says (Json.rereadFields fields) e := by
  constructor
  all_goals rw [get?_reread]
  · rw [h.id]; rfl
  · rw [h.originalPath]; rfl
  · rw [h.copyPath]; rfl
  · rw [h.createdAt]; rfl
  · rw [h.reason]; rfl
  · rw [h.fileHash]; rfl
  · rw [h.restored]; rfl

end Says

/-- The record of an entry tells it. -/
theorem tells_record (e : BackupEntry) : Tells e.record e :=
  ⟨e.fields, rfl, ⟨rfl, rfl, rfl, rfl, rfl, rfl, rfl⟩⟩

theorem told_records (entries : List BackupEntry) :
    List.Forall₂ Tells (entries.map BackupEntry.record) entries := by
  rw [List.forall₂_map_left_iff]
  exact List.forall₂_same.mpr fun e _ => tells_record e

theorem told_reread (h : List.Forall₂ Tells items entries) :
    List.Forall₂ Tells (items.map Json.reread) entries := by
  rw [List.forall₂_map_left_iff]
  refine h.imp fun item e hitem => ?_
  obtain ⟨fields, rfl, hstated⟩ := hitem
  exact ⟨_, rfl, hstated.reread⟩

/-- The record that is found tells the first entry of the id. -/
theorem find_told (h : List.Forall₂ Tells items entries) (id : Json) :
    ∃ found, find? id items = .ok found ∧
      Option.Rel Says found (entries.find? fun e => e.HasId id) := by
  induction h with
  | nil => exact ⟨none, rfl, .none⟩
  | @cons item e items entries hitem _ ih =>
      obtain ⟨fields, rfl, hstated⟩ := hitem
      have hfind : find? id (.object fields :: items) =
          (required fields "id" >>= fun value =>
            if Json.same value id then .ok (some fields) else find? id items) := rfl
      rw [hstated.required_id] at hfind
      by_cases hid : e.HasId id
      · refine ⟨some fields, hfind.trans (if_pos hid), ?_⟩
        rw [List.find?_cons_of_pos (by simpa using hid)]
        exact .some hstated
      · rw [List.find?_cons_of_neg (by simpa using hid)]
        obtain ⟨found, hfound, hrel⟩ := ih
        exact ⟨found, (hfind.trans (if_neg hid)).trans hfound, hrel⟩

/-- Marking sets the flag of the record that tells the first entry of the id. -/
theorem mark_told (h : List.Forall₂ Tells items entries) (id : Json) :
    ∃ marked, mark id items = .ok marked ∧ List.Forall₂ Tells marked (markFirst id entries) ∧
      (Json.AllReadable items → Json.AllReadable marked) := by
  induction h with
  | nil => exact ⟨[], rfl, .nil, fun h => h⟩
  | @cons item e items entries hitem hrest ih =>
      obtain ⟨fields, rfl, hstated⟩ := hitem
      have hmark : mark id (.object fields :: items) =
          (required fields "id" >>= fun value =>
            if Json.same value id then
              .ok (.object (Table.set fields "restored" (.bool true)) :: items)
            else mark id items >>= fun others => .ok (.object fields :: others)) := rfl
      rw [hstated.required_id] at hmark
      rw [markFirst]
      by_cases hid : e.HasId id
      · rw [if_pos hid]
        refine ⟨_, hmark.trans (if_pos hid), .cons ⟨_, rfl, hstated.set_restored⟩ hrest, ?_⟩
        rintro ⟨⟨hnodup, hfields⟩, hitems⟩
        refine ⟨⟨Table.nodup_keys_set hnodup, Json.fields_readable_iff.mpr fun field hfield => ?_⟩,
          hitems⟩
        rcases Table.mem_of_mem_set hfield with rfl | hfield
        · trivial
        · exact Json.fields_readable_iff.mp hfields field hfield
      · rw [if_neg hid]
        obtain ⟨marked, hmarked, htold, hreadable⟩ := ih
        refine ⟨.object fields :: marked, (hmark.trans (if_neg hid)).trans ?_,
          .cons ⟨fields, rfl, hstated⟩ htold, fun h => ⟨h.1, hreadable h.2⟩⟩
        rw [hmarked]
        rfl

/-- The flag of an entry that is told can be set, and the records tell that when they are read
again. -/
theorem set_restored_told (hreadable : Json.IsReadable (.object manifest))
    (hrecords : records manifest = .ok items) (h : List.Forall₂ Tells items entries)
    (he : e ∈ entries) (id : Json) :
    ∃ manifest' items', setRestored manifest id = .ok manifest' ∧
      Json.IsReadable (.object manifest') ∧ records (Json.rereadFields manifest') = .ok items' ∧
      List.Forall₂ Tells items' (markFirst id entries) := by
  obtain ⟨fields, hmem⟩ : ∃ fields, .object fields ∈ items := by
    obtain ⟨i, hi, rfl⟩ := List.getElem_of_mem he
    have hlength := h.length_eq
    obtain ⟨fields, hitem, -⟩ := h.get (by omega) hi
    exact ⟨fields, hitem ▸ List.get_mem _ _⟩
  have harray := array_of_records hrecords hmem
  obtain ⟨marked, hmarked, htold, hkeeps⟩ := mark_told h id
  have hbackups : backups manifest = .array items := by rw [backups, harray]; rfl
  exact ⟨_, _, set_restored_of_array hrecords harray hmarked,
    readable_set hreadable (hkeeps (readable_backups hreadable hbackups)),
    records_reread_set manifest marked, told_reread htold⟩

/-- An entry that is pending after a mark was pending before. -/
theorem mem_mark_pending (h : e ∈ markFirst id entries) (hpending : e.restored = false) :
    ∃ e' ∈ entries, e'.backup = e.backup ∧ e'.restored = false := by
  induction entries with
  | nil => exact absurd h List.not_mem_nil
  | cons first rest ih =>
      rw [markFirst] at h
      split at h
      · rcases List.mem_cons.mp h with rfl | h
        · cases hpending
        · exact ⟨e, List.mem_cons_of_mem _ h, rfl, hpending⟩
      · rcases List.mem_cons.mp h with rfl | h
        · exact ⟨e, List.mem_cons_self, rfl, hpending⟩
        · obtain ⟨e', he', hboth⟩ := ih h
          exact ⟨e', List.mem_cons_of_mem _ he', hboth⟩

/-- Marking an entry that is restored changes nothing. -/
theorem mark_first_restored (hfind : (entries.find? fun e => e.HasId id) = some e)
    (hrestored : e.restored = true) : markFirst id entries = entries := by
  obtain ⟨hid, front, back, rfl, hfront⟩ := find_append_iff.mp hfind
  rw [mark_first_append hid hfront, BackupEntry.marked, ← hrestored]

end Ledger

namespace Store

open Ledger (BackupEntry Says Tells)

variable {store : Store} {home : Location} {host : Host} {fields : Fields} {items : List Json}
  {e : BackupEntry} {entries : List BackupEntry} {id : Json}

/-- Restoring goes by the fields of the entry alone. -/
theorem restore_record_said (h : Says fields e) (store : Store) (id : Json) :
    store.restoreRecord id fields = store.restoreRecord id e.fields := by
  unfold restoreRecord
  rw [h.required_copy, h.required_original, h.required_hash, BackupEntry.required_copy,
    BackupEntry.required_original, BackupEntry.required_hash]

/-- Where the records tell entries, what restoring does depends on the first entry of the id. -/
theorem run_restore_of_told (hopen : store.IsOpen home host.files)
    (hrecords : recordsAt host.files home = .ok items) (htold : List.Forall₂ Tells items entries)
    (id : Json) :
    (store.restore id).run host =
      match entries.find? fun e => e.HasId id with
      | none => (.error (.unknownBackup (idText id)), host)
      | some e =>
          if e.restored then (.ok (), host) else (store.restoreRecord id e.fields).run host := by
  have hfind := run_find hopen id
  obtain ⟨found, hfound, hrel⟩ := Ledger.find_told htold id
  rw [hrecords] at hfind
  have hrun : (store.find? id).run host = (.ok found, host) := by
    rw [hfind, ← hfound]
    rfl
  unfold restore
  rw [run_bind_of_ok hrun]
  generalize (entries.find? fun e => e.HasId id) = first at hrel
  cases hrel with
  | none => rfl
  | @some fields e hstated =>
      have hflag := hstated.is_restored_iff
      cases hrestored : e.restored <;> simp [hflag, hrestored, restore_record_said hstated]

end Store

end Excise
