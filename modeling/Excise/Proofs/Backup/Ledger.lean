import Excise.Backup.Ledger
import Excise.Proofs.Json.Readable

/-!
# Manifests of a store

What a store writes is a list of entries, each a backup with its flag (`Ledger.BackupEntry`), in a
manifest of its own form (`Ledger.manifestOf`). On such lists the operations on records are
operations on entries: `find_entries`, `mark_entries`, `pending_entries`. A manifest that was
written by others is kept as it is, and a backup is added at its end (`add_cases`).
-/

namespace Excise

namespace Ledger

/-- A backup, and whether it was restored. -/
structure BackupEntry where
  backup : Backup
  restored : Bool
deriving DecidableEq

namespace BackupEntry

/-- The fields of the record of an entry. -/
def fields (e : BackupEntry) : Fields :=
  [("id", .text e.backup.id), ("original_path", .text e.backup.originalPath),
    ("backup_path", .text e.backup.copyPath), ("created_at", .text e.backup.createdAt),
    ("reason", .text e.backup.reason), ("file_hash", .text e.backup.fileHash),
    ("restored", .bool e.restored)]

/-- The record of an entry. -/
def record (e : BackupEntry) : Json := .object e.fields

/-- The entry of a new backup. -/
def ofBackup (b : Backup) : BackupEntry := ⟨b, false⟩

/-- The entry with its flag set. -/
def marked (e : BackupEntry) : BackupEntry := { e with restored := true }

/-- The entry has an id. -/
def HasId (e : BackupEntry) (id : Json) : Prop := Json.same (.text e.backup.id) id = true

/-- The id is compared. -/
instance (e : BackupEntry) (id : Json) : Decidable (e.HasId id) :=
  inferInstanceAs (Decidable (_ = true))

variable (e : BackupEntry)

@[simp]
theorem record_of_backup (b : Backup) : (ofBackup b).record = b.record := rfl

@[simp]
theorem reread_record : e.record.reread = e.record := rfl

/-- The record of an entry can be read again. -/
theorem readable_record : e.record.IsReadable := by
  refine ⟨?_, trivial, trivial, trivial, trivial, trivial, trivial, trivial, trivial⟩
  simp [fields, Table.keys]

@[simp]
theorem required_id : required e.fields "id" = .ok (.text e.backup.id) := rfl

@[simp]
theorem required_original :
    requiredPath e.fields "original_path" = .ok (Path.ofText e.backup.originalPath) := rfl

@[simp]
theorem required_copy :
    requiredPath e.fields "backup_path" = .ok (Path.ofText e.backup.copyPath) := rfl

@[simp]
theorem required_hash : required e.fields "file_hash" = .ok (.text e.backup.fileHash) := rfl

@[simp]
theorem is_restored_iff : IsRestored e.fields ↔ e.restored = true := by
  have hflag : e.fields.get? "restored" = some (.bool e.restored) := rfl
  simp [IsRestored, hflag, Json.Truthy]

/-- The flag of a record has its place, so that setting it changes nothing else. -/
theorem set_restored : e.fields.set "restored" (.bool true) = e.marked.fields := by
  simp [fields, marked, Table.set]

@[simp]
theorem has_id_text (id : String) : e.HasId (.text id) ↔ e.backup.id = id := by
  rw [HasId, Json.same_text, Json.text.injEq, eq_comm]

end BackupEntry

variable {entries front back : List BackupEntry} {e : BackupEntry} {id : Json}

/-- The manifest with some entries. -/
def manifestOf (entries : List BackupEntry) : Fields :=
  [("version", .text "1.0"), ("backups", .array (entries.map BackupEntry.record))]

@[simp]
theorem records_manifest (entries : List BackupEntry) :
    records (manifestOf entries) = .ok (entries.map BackupEntry.record) := rfl

theorem add_manifest (entries : List BackupEntry) (b : Backup) :
    add (manifestOf entries) b = .ok (manifestOf (entries ++ [.ofBackup b])) := by
  simp [add, backups, manifestOf, Table.get?, Table.set]

/-- The manifest of a store can be read again, and comes back as it was. -/
theorem readable_manifest (entries : List BackupEntry) :
    Json.IsReadable (.object (manifestOf entries)) := by
  refine ⟨by simp [manifestOf, Table.keys], trivial, ?_, trivial⟩
  refine Json.all_readable_iff.mpr fun item hitem => ?_
  obtain ⟨e, -, rfl⟩ := List.mem_map.mp hitem
  exact e.readable_record

theorem reread_records (entries : List BackupEntry) :
    (entries.map BackupEntry.record).map Json.reread = entries.map BackupEntry.record := by
  simp

theorem reread_manifest (entries : List BackupEntry) :
    Json.rereadFields (manifestOf entries) = manifestOf entries := by
  have hitems : Json.rereadItems (entries.map BackupEntry.record) =
      entries.map BackupEntry.record := by
    rw [Json.reread_items_eq, reread_records]
  simp [manifestOf, Json.rereadFields, Json.reread, hitems]

/-- The first entry of an id is found. -/
theorem find_entries (id : Json) (entries : List BackupEntry) :
    find? id (entries.map BackupEntry.record) =
      .ok ((entries.find? fun e => e.HasId id).map BackupEntry.fields) := by
  induction entries with
  | nil => rfl
  | cons e rest ih =>
      have hfind : find? id ((e :: rest).map BackupEntry.record) =
          if e.HasId id then .ok (some e.fields) else find? id (rest.map BackupEntry.record) := rfl
      rw [hfind, ih, List.find?_cons]
      by_cases hid : e.HasId id
      · rw [if_pos hid]
        simp [hid]
      · rw [if_neg hid]
        simp [hid]

/-- The entries with the flag of the first one of an id set. -/
def markFirst (id : Json) : List BackupEntry → List BackupEntry
  | [] => []
  | e :: rest => if e.HasId id then e.marked :: rest else e :: markFirst id rest

/-- Marking sets the flag of the first entry of an id. -/
theorem mark_entries (id : Json) (entries : List BackupEntry) :
    mark id (entries.map BackupEntry.record) =
      .ok ((markFirst id entries).map BackupEntry.record) := by
  induction entries with
  | nil => rfl
  | cons e rest ih =>
      have hmark : mark id ((e :: rest).map BackupEntry.record) = if e.HasId id then
          .ok (.object (e.fields.set "restored" (.bool true)) :: rest.map BackupEntry.record)
        else mark id (rest.map BackupEntry.record) >>= fun others => .ok (e.record :: others) := rfl
      rw [hmark, ih, BackupEntry.set_restored, markFirst]
      by_cases hid : e.HasId id
      · rw [if_pos hid, if_pos hid]
        rfl
      · rw [if_neg hid, if_neg hid]
        rfl

/-- The first entry of an id is the one that is marked. -/
theorem mark_first_append (hid : e.HasId id) (hfront : ∀ e' ∈ front, ¬ e'.HasId id) :
    markFirst id (front ++ e :: back) = front ++ e.marked :: back := by
  induction front with
  | nil => rw [List.nil_append, markFirst, if_pos hid, List.nil_append]
  | cons e' rest ih =>
      rw [List.cons_append, markFirst, if_neg (hfront e' List.mem_cons_self),
        ih fun e'' he'' => hfront e'' (List.mem_cons_of_mem _ he''), List.cons_append]

/-- The first entry of an id comes after entries that do not have it. -/
theorem find_append_iff : (entries.find? fun e => e.HasId id) = some e ↔
    e.HasId id ∧ ∃ front back, entries = front ++ e :: back ∧ ∀ e' ∈ front, ¬ e'.HasId id := by
  rw [List.find?_eq_some_iff_append]
  simp

/-- The pending records are those of the entries whose flag is not set. -/
theorem pending_entries (entries : List BackupEntry) :
    pending (entries.map BackupEntry.record) =
      .ok ((entries.filter fun e => !e.restored).map BackupEntry.record) := by
  induction entries with
  | nil => rfl
  | cons e rest ih =>
      show (pending (rest.map BackupEntry.record) >>= fun others =>
        Except.ok (if IsRestored e.fields then others else e.record :: others)) = _
      rw [ih]
      show Except.ok _ = _
      cases hrestored : e.restored <;> simp [hrestored]

/-- Setting a flag in the manifest of a store marks an entry. -/
theorem set_restored_manifest (id : Json) (entries : List BackupEntry) :
    setRestored (manifestOf entries) id = .ok (manifestOf (markFirst id entries)) := by
  have hbind : setRestored (manifestOf entries) id =
      (mark id (entries.map BackupEntry.record) >>= fun records =>
        .ok ((manifestOf entries).set "backups" (.array records))) := rfl
  rw [hbind, mark_entries]
  show Except.ok _ = _
  simp [manifestOf, Table.set]

/-! ## Manifests written by others -/

variable {manifest manifest' : Fields} {b : Backup}

theorem get?_reread (manifest : Fields) (key : String) :
    Table.get? (Json.rereadFields manifest) key = (Table.get? manifest key).map Json.reread := by
  induction manifest with
  | nil => rfl
  | cons field rest ih =>
      by_cases hkey : field.1 = key <;> simp [Json.rereadFields, Table.get?, hkey, ih]

/-- A manifest with a list of records as its backups. -/
theorem records_of_array {items : List Json} (h : manifest.get? "backups" = some (.array items)) :
    records manifest = .ok items := by
  rw [records, backups, h]
  rfl

/-- A manifest to which readable records are given can be read again. -/
theorem readable_set {items : List Json} (h : Json.IsReadable (.object manifest))
    (hitems : Json.AllReadable items) :
    Json.IsReadable (.object (manifest.set "backups" (.array items))) := by
  refine ⟨Table.nodup_keys_set h.1, Json.fields_readable_iff.mpr fun field hfield => ?_⟩
  rcases Table.mem_of_mem_set hfield with rfl | hfield
  · exact hitems
  · exact Json.fields_readable_iff.mp h.2 field hfield

/-- The records that a manifest has once it was written and read again. -/
theorem records_reread_set (manifest : Fields) (items : List Json) :
    records (Json.rereadFields (manifest.set "backups" (.array items))) =
      .ok (items.map Json.reread) := by
  refine records_of_array ?_
  rw [get?_reread, Table.get?_set_self, Option.map_some, Json.reread, Json.reread_items_eq]

/-- The items of an array that can be read again can be. -/
theorem readable_backups {items : List Json} (h : Json.IsReadable (.object manifest))
    (hitems : backups manifest = .array items) : Json.AllReadable items := by
  rw [backups] at hitems
  cases hget : manifest.get? "backups" with
  | none =>
      rw [hget] at hitems
      obtain rfl := Json.array.inj hitems
      trivial
  | some value =>
      rw [hget] at hitems
      have hreadable := Json.fields_readable_iff.mp h.2 _ (Table.mem_of_get? hget)
      rw [show value = .array items from hitems] at hreadable
      exact hreadable

/-- A backup is added after the records that were there, which are kept. -/
theorem add_cases (h : add manifest b = .ok manifest') :
    (∃ items, records manifest = .ok items ∧
      records (Json.rereadFields manifest') = .ok (items.map Json.reread ++ [b.record])) ∧
    (Json.IsReadable (.object manifest) → Json.IsReadable (.object manifest')) := by
  unfold add at h
  split at h
  · rename_i items hitems
    obtain rfl := Except.ok.inj h
    refine ⟨⟨items, by rw [records, hitems]; rfl, ?_⟩, fun hreadable => ?_⟩
    · rw [records_reread_set, List.map_append, List.map_singleton]
      rfl
    · refine readable_set hreadable (Json.all_readable_iff.mpr fun item hitem => ?_)
      rcases List.mem_append.mp hitem with hitem | hitem
      · exact Json.all_readable_iff.mp (readable_backups hreadable hitems) item hitem
      · rw [List.mem_singleton.mp hitem]
        exact (BackupEntry.ofBackup b).readable_record
  · exact nomatch h

/-- A manifest with an object among its records has a list of them. -/
theorem array_of_records {items : List Json} {fields : Fields} (h : records manifest = .ok items)
    (hmem : .object fields ∈ items) : manifest.get? "backups" = some (.array items) := by
  rw [records, backups] at h
  cases hget : manifest.get? "backups" with
  | none =>
      rw [hget] at h
      obtain rfl := Except.ok.inj h
      exact absurd hmem List.not_mem_nil
  | some value =>
      rw [hget] at h
      cases value with
      | array items' => rw [show items' = items from Except.ok.inj h]
      | object others =>
          obtain rfl := Except.ok.inj h
          obtain ⟨key, -, hkey⟩ := List.mem_map.mp hmem
          exact nomatch hkey
      | text s =>
          obtain rfl := Except.ok.inj h
          obtain ⟨c, -, hc⟩ := List.mem_map.mp hmem
          exact nomatch hc
      | null => exact nomatch h
      | bool value => exact nomatch h
      | int value => exact nomatch h
      | real value => exact nomatch h

/-- If the records of a manifest are entries, a flag can be set. -/
theorem set_restored_entries (hentries : records manifest = .ok (entries.map BackupEntry.record)) :
    setRestored manifest id = .ok (match manifest.get? "backups" with
      | some (.array _) =>
        manifest.set "backups" (.array ((markFirst id entries).map BackupEntry.record))
      | _ => manifest) := by
  have hbind : setRestored manifest id =
      (records manifest >>= fun items => mark id items >>= fun marked =>
        .ok (match manifest.get? "backups" with
          | some (.array _) => manifest.set "backups" (.array marked)
          | _ => manifest)) := rfl
  rw [hbind, hentries]
  show (mark id (entries.map BackupEntry.record) >>= fun marked => _) = _
  rw [mark_entries]
  rfl

/-- A manifest with a list of records, which can be marked, has the marked ones in their place. -/
theorem set_restored_of_array {items marked : List Json} (hrecords : records manifest = .ok items)
    (harray : manifest.get? "backups" = some (.array items)) (hmark : mark id items = .ok marked) :
    setRestored manifest id = .ok (manifest.set "backups" (.array marked)) := by
  unfold setRestored
  rw [hrecords]
  show (mark id items >>= fun marked => _) = _
  rw [hmark]
  show Except.ok _ = _
  rw [harray]

/-- If the records of a manifest are entries, setting the flag of one marks it. -/
theorem set_restored_cases (hreadable : Json.IsReadable (.object manifest))
    (hentries : records manifest = .ok (entries.map BackupEntry.record)) (he : e ∈ entries)
    (h : setRestored manifest id = .ok manifest') :
    records (Json.rereadFields manifest') = .ok ((markFirst id entries).map BackupEntry.record) ∧
      Json.IsReadable (.object manifest') := by
  have hrecord : .object e.fields ∈ entries.map BackupEntry.record := List.mem_map_of_mem he
  have harray := array_of_records hentries hrecord
  have hset := set_restored_of_array hentries harray (mark_entries id entries)
  obtain rfl := Except.ok.inj (hset.symm.trans h)
  refine ⟨by rw [records_reread_set, reread_records], readable_set hreadable ?_⟩
  refine Json.all_readable_iff.mpr fun item hitem => ?_
  obtain ⟨e', -, rfl⟩ := List.mem_map.mp hitem
  exact e'.readable_record

end Ledger

end Excise
