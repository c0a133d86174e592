import Excise.Files.FileSystem
import Excise.Json.Equality
import Excise.Json.Parser
import Excise.Text.Malformed

/-!
# Manifests

A manifest is an object with a list of records, one per backup, under the key `backups`. Records and
keys that were written by others are kept as they are, so the functions here work on documents: they
find a record by its `id`, list the pending ones, add a record, and mark one as restored. A key that
a record needs and does not have is an error, and so is a part of the wrong type, as soon as it is
looked into (`LedgerPart`).
-/

namespace Excise

/-- What can be of the wrong type: the whole manifest; what should have items, to be gone through or
to be added to; a record whose keys are needed, or whose state is asked for; and a path. -/
inductive LedgerPart where
  | manifest
  | items
  | list
  | record
  | state
  | path
deriving DecidableEq

/-- The words for a part. -/
def LedgerPart.text : LedgerPart → String
  | .manifest => "the manifest is no object"
  | .items => "the backups have no items"
  | .list => "the backups are no list"
  | .record => "a backup is no object"
  | .state => "a backup has no state"
  | .path => "a path is no text"

/-- Why an operation on backups failed. -/
inductive BackupError where
  | missingFile (path : Path)
  | unknownBackup (id : String)
  | missingCopy (path : Path)
  | modifiedCopy (path : Path)
  | someNotRestored (failures : List (String × String))
  | files (error : FileError)
  | missingKey (key : String)
  | notText (fault : Fault)
  | notRead (error : Json.ReadError)
  | malformed (part : LedgerPart)
deriving DecidableEq

namespace BackupError

/-- The message of a failed operation. -/
def message : BackupError → String
  | .missingFile path => s!"File not found: {path.text}"
  | .unknownBackup id => s!"Backup ID not found: {id}"
  | .missingCopy path => s!"File not found in backups: {path.text}"
  | .modifiedCopy path => s!"Backup was modified since it was taken: {path.text}"
  | .someNotRestored failures =>
      String.intercalate "\n"
        ("Failed to restore some files:" :: failures.map fun f => s!"{f.1}: {f.2}")
  | .files error => error.message
  | .missingKey key => Text.quote key
  | .notText fault => fault.message
  | .notRead error => error.message
  | .malformed part => s!"Malformed manifest: {part.text}"

/-- The failure concerns one backup, so that others can still be restored. -/
def Separable : BackupError → Prop
  | .missingKey _ => False
  | .malformed _ => False
  | _ => True

/-- Two kinds of failure are singled out. -/
instance (e : BackupError) : Decidable e.Separable := by
  cases e <;> unfold Separable <;> infer_instance

end BackupError

/-- The fields of an object. -/
abbrev Fields := Table String Json

namespace Ledger

/-- The manifest before the first backup. -/
def empty : Fields := [("version", .text "1.0"), ("backups", .array [])]

/-- The fields of an object, which is a part of the manifest. -/
def fieldsOf (part : LedgerPart) : Json → Except BackupError Fields
  | .object fields => .ok fields
  | _ => .error (.malformed part)

/-- The value of a key that a record needs. -/
def required (record : Fields) (key : String) : Except BackupError Json :=
  match record.get? key with
  | some value => .ok value
  | none => .error (.missingKey key)

/-- The path under a key that a record needs. -/
def requiredPath (record : Fields) (key : String) : Except BackupError Path :=
  match required record key with
  | .ok (.text s) => .ok (Path.ofText s)
  | .ok _ => .error (.malformed .path)
  | .error e => .error e

/-- What stands under `backups`: a list of records, unless it was written by others. -/
def backups (manifest : Fields) : Json := (manifest.get? "backups").getD (.array [])

/-- The items of a value, one after the other: those of an array, the keys of an object, the
characters of a text. -/
def items : Json → Except BackupError (List Json)
  | .array items => .ok items
  | .object fields => .ok ((Table.keys fields).map .text)
  | .text s => .ok (s.toList.map fun c => .text (String.singleton c))
  | _ => .error (.malformed .items)

/-- The records of a manifest. -/
def records (manifest : Fields) : Except BackupError (List Json) := items (backups manifest)

/-- The backup of a record was restored. -/
def IsRestored (record : Fields) : Prop :=
  ∃ flag ∈ record.get? "restored", Json.Truthy flag

/-- The flag, if there is one, is looked up. -/
instance (record : Fields) : Decidable (IsRestored record) :=
  inferInstanceAs (Decidable (∃ flag ∈ record.get? "restored", Json.Truthy flag))

/-- The first record with an id. Every record up to it needs an id. -/
def find? (id : Json) : List Json → Except BackupError (Option Fields)
  | [] => .ok none
  | record :: rest => do
      let fields ← fieldsOf .record record
      let value ← required fields "id"
      if Json.same value id then return some fields else find? id rest

/-- The records with the first one of an id marked as restored. -/
def mark (id : Json) : List Json → Except BackupError (List Json)
  | [] => .ok []
  | record :: rest => do
      let fields ← fieldsOf .record record
      let value ← required fields "id"
      if Json.same value id then
        return .object (fields.set "restored" (.bool true)) :: rest
      else return record :: (← mark id rest)

/-- The records whose backups were not restored yet. -/
def pending : List Json → Except BackupError (List Json)
  | [] => .ok []
  | record :: rest => do
      let fields ← fieldsOf .state record
      let others ← pending rest
      return if IsRestored fields then others else record :: others

/-- What a new record says. -/
structure Backup where
  id : String
  originalPath : String
  copyPath : String
  createdAt : String
  reason : String
  fileHash : String
deriving DecidableEq

/-- The record of a new backup. -/
def Backup.record (b : Backup) : Json :=
  .object [("id", .text b.id), ("original_path", .text b.originalPath),
    ("backup_path", .text b.copyPath), ("created_at", .text b.createdAt),
    ("reason", .text b.reason), ("file_hash", .text b.fileHash), ("restored", .bool false)]

/-- The manifest with one more record at the end. -/
def add (manifest : Fields) (b : Backup) : Except BackupError Fields :=
  match backups manifest with
  | .array records => .ok (manifest.set "backups" (.array (records ++ [b.record])))
  | _ => .error (.malformed .list)

/-- The manifest with the first record of an id marked as restored. One without a list of records
stays as it is. -/
def setRestored (manifest : Fields) (id : Json) : Except BackupError Fields := do
  let marked ← mark id (← records manifest)
  return match manifest.get? "backups" with
    | some (.array _) => manifest.set "backups" (.array marked)
    | _ => manifest

end Ledger

end Excise
