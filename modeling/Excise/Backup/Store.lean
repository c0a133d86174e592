import Excise.Backup.Ledger
import Excise.Digest.Sha256
import Excise.Files.Disk
import Excise.Json.Printer
import Excise.Text.Newline

/-!
# The backup store

A store keeps untouched copies of files in a directory, each under an id of its own, and a manifest
of them. `Store.backup` copies a file aside, and `Store.restore` copies it back if the copy is still
the one that was taken; restoring twice does nothing. `Store.restoreMany` restores several and
attempts every one before it fails. The operations act on a `Host`: the files and the supply of ids
and times. They read and change the files on a `Disk`, which is the reliable one unless another is
named.
-/

namespace Excise

/-- The files, and where new ids and times come from. -/
structure Host where
  files : FileSystem
  newId : Nat → String
  newTime : Nat → String
  idsMade : Nat
  timesTaken : Nat

/-- An operation on backups, whose effects stay where it fails. -/
abbrev BackupAction := ExceptT BackupError (StateM Host)

namespace BackupAction

/-- Look at the files. -/
def files : BackupAction FileSystem := do return (← get).files

/-- The outcome of an operation that reads files. -/
def reading {α : Type} (operation : FileSystem → Except FileError α) : BackupAction α := do
  match operation (← files) with
  | .ok a => return a
  | .error e => throw (.files e)

/-- Carry out a change of the files. What it did before it failed stays. -/
def changing (change : Change) (disk : Disk := .reliable) : BackupAction Unit := do
  let (outcome, files) := disk.carryOut (← files) change
  modify fun host => { host with files }
  match outcome with
  | .ok () => return
  | .error e => throw (.files e)

/-- Make a new id. -/
def makeId : BackupAction String := do
  let host ← get
  set { host with idsMade := host.idsMade + 1 }
  return host.newId host.idsMade

/-- Take the time. -/
def takeTime : BackupAction String := do
  let host ← get
  set { host with timesTaken := host.timesTaken + 1 }
  return host.newTime host.timesTaken

end BackupAction

open BackupAction

/-- A directory with copies and a manifest. -/
structure Store where
  directory : Path
deriving DecidableEq

/-- What a store holds: how many backups, how many of them restored and not, where it is, and the
files that can be restored. -/
structure StoreInfo where
  total : Nat
  pending : Nat
  restored : Nat
  directory : Path
  pendingFiles : List Json

namespace Store

variable (store : Store)

/-- The path of the manifest. -/
def ledgerPath : Path := store.directory.child "manifest.json"

/-- Where a new manifest is written before it takes the place of the old one. -/
def draftPath : Path := store.directory.child "manifest.tmp"

/-- The manifest of a text. A text that is no document counts as the empty manifest; one with too
long an integer does not. -/
def ledgerOfText (text : String) : Except BackupError Fields :=
  match Json.parse (Text.unifyNewlines text) with
  | .error .malformed => .ok Ledger.empty
  | .error e => .error (.notRead e)
  | .ok document => Ledger.fieldsOf .manifest document

/-- Read the manifest. One that cannot be read counts as empty. -/
def readLedger (disk : Disk := .reliable) : BackupAction Fields := do
  match disk.read (← files) store.ledgerPath with
  | .error _ => return Ledger.empty
  | .ok bytes =>
      match Bytes.decode bytes with
      | .error fault => throw (.notText fault)
      | .ok text => ofExcept (ledgerOfText text)

/-- Write the manifest. -/
def writeLedger (manifest : Fields) (disk : Disk := .reliable) : BackupAction Unit := do
  changing (.write store.draftPath (Bytes.ofText (Json.print (.object manifest)))) disk
  changing (.rename store.draftPath store.ledgerPath) disk

/-- Open the store in a directory, which is made with an empty manifest if need be. -/
def openAt (directory : Path) (disk : Disk := .reliable) : BackupAction Store := do
  let store : Store := ⟨directory⟩
  changing (.makeDirectories directory) disk
  if ¬ (← files).Exists store.ledgerPath then store.writeLedger Ledger.empty disk
  return store

/-- The digest of a file. -/
def hashFile (path : Path) (disk : Disk := .reliable) : BackupAction String := do
  return Digest.sha256Hex (← reading fun files => disk.read files path)

/-- The digest of a file whose path is given as it stands. -/
def hashNamed (text : String) : BackupAction String := do
  return Digest.sha256Hex (← reading fun files => files.readNamed text)

/-- Add a record to the manifest. -/
def addRecord (id originalPath copyPath reason fileHash : String) (disk : Disk := .reliable) :
    BackupAction Unit := do
  let manifest ← store.readLedger disk
  let createdAt ← takeTime
  store.writeLedger
    (← ofExcept (Ledger.add manifest ⟨id, originalPath, copyPath, createdAt, reason, fileHash⟩))
    disk

/-- Copy a file into the store and record it. Gives the id of the backup. -/
def backup (path : Path) (reason : String) (disk : Disk := .reliable) : BackupAction String := do
  if ¬ (← reading fun files => files.look path) then throw (.missingFile path)
  let id ← makeId
  let directory := store.directory.child id
  changing (.makeDirectories directory) disk
  let hash ← hashFile path disk
  let copy := directory.child path.name
  changing (.copy path copy) disk
  store.addRecord id ((← files).absolute path).text copy.text reason hash disk
  return id

/-- The backups of the manifest, as they stand there. -/
def all (disk : Disk := .reliable) : BackupAction Json := do
  return Ledger.backups (← store.readLedger disk)

/-- Every record. -/
def records (disk : Disk := .reliable) : BackupAction (List Json) := do
  ofExcept (Ledger.records (← store.readLedger disk))

/-- The records of backups not restored yet. -/
def pending (disk : Disk := .reliable) : BackupAction (List Json) := do
  ofExcept (Ledger.pending (← store.records disk))

/-- The record of an id. -/
def find? (id : Json) (disk : Disk := .reliable) : BackupAction (Option Fields) := do
  ofExcept (Ledger.find? id (← store.records disk))

/-- Mark the backup of an id as restored. -/
def setRestored (id : Json) (disk : Disk := .reliable) : BackupAction Unit := do
  store.writeLedger (← ofExcept (Ledger.setRestored (← store.readLedger disk) id)) disk

/-- The text of an id, which is one unless the record was written by others. -/
def idText (id : Json) : String := id.text?.getD id.print

/-- Copy a backup over the file it was taken from, given its record. -/
def restoreRecord (id : Json) (record : Fields) (disk : Disk := .reliable) :
    BackupAction Unit := do
  let copy ← ofExcept (Ledger.requiredPath record "backup_path")
  let place ← ofExcept (Ledger.requiredPath record "original_path")
  if ¬ (← reading fun files => files.look copy) then throw (.missingCopy copy)
  let hash ← hashFile copy disk
  if (← ofExcept (Ledger.required record "file_hash")).text? ≠ some hash then
    throw (.modifiedCopy copy)
  changing (.makeDirectories place.parent) disk
  changing (.copy copy place) disk
  store.setRestored id disk

/-- Copy a backup over the file it was taken from. One that was restored is left alone. -/
def restore (id : Json) (disk : Disk := .reliable) : BackupAction Unit := do
  match ← store.find? id disk with
  | none => throw (.unknownBackup (idText id))
  | some record => if ¬ Ledger.IsRestored record then store.restoreRecord id record disk

/-- Restore one backup. Gives the reason if that fails and others can still be restored. -/
def attempt (id : Json) (disk : Disk := .reliable) : BackupAction (Option (String × String)) :=
  tryCatch (do store.restore id disk; return none) fun e =>
    if e.Separable then return some (idText id, e.message) else throw e

/-- Restore several backups in turn, leaving out ids that are null. Gives the ids of those that
failed, with the reasons. -/
def restoreEach (ids : List Json) (disk : Disk := .reliable) :
    BackupAction (List (String × String)) :=
  match ids with
  | [] => return []
  | .null :: rest => restoreEach rest disk
  | id :: rest => do
      let failure ← store.attempt id disk
      return failure.toList ++ (← restoreEach rest disk)

/-- Restore several backups, and fail at the end if some could not be. -/
def restoreMany (ids : List Json) (disk : Disk := .reliable) : BackupAction Unit := do
  let failures ← store.restoreEach ids disk
  if failures ≠ [] then throw (.someNotRestored failures)

/-- What the store holds. -/
def info (disk : Disk := .reliable) : BackupAction StoreInfo := do
  let all ← store.records disk
  let pending ← store.pending disk
  let files ← pending.mapM fun record => do
    let fields ← ofExcept (Ledger.fieldsOf .record record)
    ofExcept (Ledger.required fields "original_path")
  return ⟨all.length, pending.length, all.length - pending.length, store.directory, files⟩

end Store

end Excise
