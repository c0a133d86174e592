import Excise.Backup.Store
import Excise.Settings.Basic
import Excise.Settings.Reader

/-!
# Sessions

A command runs in a `Session`: the files and the supply of backup ids, the environment, the standard
input, and what was printed so far (`Report`), which a screen shows in its own way. It ends by
itself, with an exit code, or with a failure that it does not handle (`Stop`).
`CommandAction.loadSettings` makes the configuration of a command.
-/

namespace Excise.Command

/-- A piece of a message: words of the program, a text that is shown as it is, or a text in the
markup that messages are written in. -/
inductive Piece where
  | words (text : String)
  | quoted (text : String)
  | marked (text : String)
deriving DecidableEq

/-- A message, piece by piece. -/
abbrev Message := List Piece

/-- Something that a command prints. Lines, tables, differences and plain text go to the standard
output, errors and notes to the standard error. -/
inductive Report where
  | line (message : Message)
  | table (title : Message) (header : List String) (rows : List (List Message))
  | difference (text : String)
  | plain (text : String)
  | error (message : Message)
  | note (text : String)
deriving DecidableEq

/-- A failure that a command does not handle. -/
inductive Failure where
  | settings (error : SettingsError)
  | notShown
  | badMarkup
  | notText (fault : Fault)
  | files (error : FileError)
  | backup (error : BackupError)
deriving DecidableEq

/-- The message of a failure. -/
def Failure.message : Failure → String
  | .settings error => error.message
  | .notShown => "A cell of the table is no text"
  | .badMarkup => "A cell of the table closes a style that is not open"
  | .notText fault => fault.message
  | .files error => error.message
  | .backup error => error.message

/-- How a command ends early. -/
inductive Stop where
  | exit (code : Nat)
  | failed (failure : Failure)
deriving DecidableEq

/-- What a command runs in. -/
structure Session where
  host : Host
  settings : SettingsState
  input : String
  printed : List Report

/-- A command or a part of one, whose effects stay where it ends early. -/
abbrev CommandAction := ExceptT Stop (StateM Session)

namespace CommandAction

/-- Print something. -/
def print (report : Report) : CommandAction Unit :=
  modify fun s => { s with printed := s.printed ++ [report] }

/-- End with an exit code. -/
def exit {α : Type} (code : Nat) : CommandAction α := throw (.exit code)

/-- Print an error and end with exit code 1. -/
def abort {α : Type} (message : Message) : CommandAction α := do
  print (.error (.words "Error: " :: message))
  exit 1

/-- Look at the files. -/
def files : CommandAction FileSystem := do return (← get).host.files

/-- Whether something stands at a path. -/
def look (path : Path) : CommandAction Bool := do
  match (← files).look path with
  | .ok found => return found
  | .error e => throw (.failed (.files e))

/-- The outcome of an operation on backups. -/
def attempt {α : Type} (action : BackupAction α) : CommandAction (Except BackupError α) := do
  let s ← get
  let (outcome, host) := action.run s.host
  set { s with host }
  return outcome

/-- Carry out an operation on backups whose failure ends the command. -/
def orFail {α : Type} (action : BackupAction α) : CommandAction α := do
  match ← attempt action with
  | .ok a => return a
  | .error e => throw (.failed (.backup e))

/-- Change a file. What was written before that failed stays. -/
def write (path : Path) (text : String) (disk : Disk := .reliable) :
    CommandAction (Except FileError Unit) := do
  let s ← get
  let (outcome, files) := disk.carryOut s.host.files (.write path (Bytes.ofText text))
  set { s with host := { s.host with files } }
  return outcome

/-- The configuration of a command: one of its own if a target is given, and else the shared one. -/
def loadSettings (reader : SettingsReader) (explicitTarget : Option String) :
    CommandAction (Except SettingsError Settings) := do
  let s ← get
  let additions :=
    reader.ofPath s.settings.env s.host.files (Path.ofText Settings.standardFile)
  let (settings, state) :=
    match explicitTarget with
    | some _ => s.settings.make additions explicitTarget
    | none => s.settings.get additions
  set { s with settings := state }
  return settings

/-- The environment. -/
def environment : CommandAction Environment := do return (← get).settings.env

/-- The target of a command that reports why there is none and ends. -/
def loadTarget (reader : SettingsReader) (explicitTarget : Option String) :
    CommandAction Target := do
  match ← loadSettings reader explicitTarget with
  | .error e => abort [.quoted e.message]
  | .ok settings =>
      match Target.ofName? (settings.target (← environment)) with
      | none => abort [.quoted SettingsError.blankTarget.message]
      | some target => return target

end CommandAction

/-- The text of a file as sources are read: UTF-8, with each line terminator as a line feed. -/
def sourceText (bytes : Bytes) : Except Fault String := (Bytes.decode bytes).map Text.unifyNewlines

end Excise.Command
