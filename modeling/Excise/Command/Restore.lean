import Excise.Command.Invocation
import Excise.Command.Session

/-!
# Restoring files

`restore` copies backups over the files they were taken from: those named, or all that were not
restored yet. It can list the backups instead.
-/

namespace Excise.Command

open CommandAction

/-- The head of the table of backups. -/
def backupHeader : List String := ["ID", "File", "Created", "Restored"]

/-- The message of a value in a cell of the table: a text is marked up, and null is shown as
nothing. -/
def cell : Json → CommandAction Message
  | .null => return []
  | .text s => return [.marked s]
  | _ => throw (.failed .notShown)

/-- The values of a record in the table: the id, the path of the file, and the time. -/
def backupValues (fields : Fields) : Except BackupError (Json × String × Json) := do
  let id ← Ledger.required fields "id"
  let path ← Ledger.required fields "original_path"
  match path.text? with
  | none => throw (.malformed .path)
  | some path => return (id, path, ← Ledger.required fields "created_at")

/-- The cells of a record in the table. The path is shown as it is. -/
def backupCells (record : Json) : CommandAction (List Message) := do
  let fields ← orFail (ofExcept (Ledger.fieldsOf .record record))
  let (id, path, created) ← orFail (ofExcept (backupValues fields))
  return [← cell id, [.quoted path], ← cell created,
    [.words (if Ledger.IsRestored fields then "yes" else "no")]]

/-- List the backups. -/
def listBackups (store : Store) (disk : Disk := .reliable) : CommandAction Unit := do
  let rows ← (← orFail (store.records disk)).mapM backupCells
  let title := [.words "Backups in ", .quoted store.directory.text]
  print (.table title backupHeader rows)
  let info ← orFail (store.info disk)
  print (.line [.words s!"{info.pending} pending, {info.restored} restored"])

/-- The ids of the backups not restored yet. -/
def pendingIds (store : Store) (disk : Disk := .reliable) : BackupAction (List Json) := do
  (← store.pending disk).mapM fun record => do
    ofExcept (Ledger.required (← ofExcept (Ledger.fieldsOf .record record)) "id")

/-- Restore backups, reporting at the end if some could not be. -/
def restoreIds (store : Store) (ids : List Json) (disk : Disk := .reliable) :
    CommandAction Unit := do
  match ← attempt (store.restoreMany ids disk) with
  | .ok () => print (.line [.words s!"✓ Restored {ids.length} file(s)"])
  | .error (.someNotRestored failures) =>
      abort [.quoted (BackupError.someNotRestored failures).message]
  | .error e => throw (.failed (.backup e))

/-- Restore files from their backups. -/
def restore (reader : SettingsReader) (options : RestoreOptions) (disk : Disk := .reliable) :
    CommandAction Unit := do
  match ← loadSettings reader none with
  | .error e => throw (.failed (.settings e))
  | .ok _ =>
      let directory := Path.ofText (Settings.backupDirectory (← environment))
      let store ← orFail (Store.openAt directory disk)
      if options.listOnly then listBackups store disk
      else
        let ids ← if options.ids = [] then orFail (pendingIds store disk)
          else pure (options.ids.map .text)
        if ids.isEmpty then print (.line [.words "Nothing to restore."])
        else restoreIds store ids disk

end Excise.Command
