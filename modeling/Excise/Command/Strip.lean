import Excise.Command.Invocation
import Excise.Command.Session
import Excise.Diff.Unified
import Excise.Files.Discovery
import Excise.Transform

/-!
# Stripping files

`strip` transforms the files named and those below the directories named, reports what changes, and
after a confirmation overwrites them in place. Before a file is changed it is copied into the backup
store. Nothing is written for a dry run, for a check, or without confirmation.
-/

namespace Excise.Command

open CommandAction

/-- A file that was read, with its text and what became of it. -/
structure Processed where
  path : Path
  before : String
  result : Transformed
deriving DecidableEq

/-- What was found at the files to work on: those read, and those that could not be read. -/
structure Reading where
  processed : List Processed
  unreadable : List Path
deriving DecidableEq

namespace Processed

/-- The words for what became of a file. -/
def status (p : Processed) : String :=
  match p.result.skipped with
  | some reason => s!"skipped ({reason.text})"
  | none => if p.result.changed then "changed" else "clean"

/-- The cells of a file in the table. -/
def cells (p : Processed) : List Message :=
  [[.quoted p.path.text], [.words (toString p.result.tally.statements)],
    [.words (toString p.result.tally.items)], [.words (toString p.result.tally.replacements)],
    [.words p.status]]

/-- The difference that the transformation makes to a file. -/
def difference (p : Processed) : String :=
  Diff.unified s!"a/{p.path.text}" s!"b/{p.path.text}" p.before p.result.code

end Processed

/-- The head of the table of files. -/
def tableHeader : List String := ["File", "Statements", "Items", "Replaced", "Status"]

/-- Read and transform one file, or say why it cannot be read as a source. -/
def processFile (grammar : Grammar) (target : Target) (fs : FileSystem) (path : Path)
    (disk : Disk := .reliable) : Except String Processed :=
  match disk.read fs path with
  | .error e => .error e.message
  | .ok bytes =>
      match sourceText bytes with
      | .error fault => .error fault.message
      | .ok text => .ok ⟨path, text, transformFile grammar target path text⟩

/-- Read and transform files, reporting those that cannot be read. -/
def processFiles (grammar : Grammar) (target : Target) (paths : List Path)
    (disk : Disk := .reliable) : CommandAction Reading :=
  match paths with
  | [] => return ⟨[], []⟩
  | path :: rest => do
      let fs ← files
      match processFile grammar target fs path disk with
      | .ok p =>
          let reading ← processFiles grammar target rest disk
          return { reading with processed := p :: reading.processed }
      | .error reason =>
          print (.error [.words "Skipping ", .quoted path.text, .words ": ", .quoted reason])
          let reading ← processFiles grammar target rest disk
          return { reading with unreadable := path :: reading.unreadable }

/-- The answer to a question among lines of input: the first that is an answer counts, and an empty
line is a no. -/
def answer? : List String → Option Bool
  | [] => none
  | line :: rest =>
      let word := String.ofList ((Text.trim line).toList.map Char.toLower)
      if word ∈ ["y", "yes"] then some true
      else if word ∈ ["n", "no", ""] then some false
      else answer? rest

/-- The lines of the standard input. -/
def inputLines (input : String) : List String :=
  let lines := Text.pieces '\n' (Text.unifyNewlines input)
  if lines.getLast? = some "" then lines.dropLast else lines

/-- Ask whether to go on. Input that ends without an answer ends the command. -/
def confirm (question : String) : CommandAction Bool := do
  print (.plain s!"{question} [y/N]: ")
  match answer? (inputLines (← get).input) with
  | some answer => return answer
  | none => exit 1

/-- The error is one of the file system's own. -/
def IsFileFailure : BackupError → Prop
  | .missingFile _ => True
  | .files _ => True
  | _ => False

/-- Two kinds of failure are singled out. -/
instance : DecidablePred IsFileFailure
  | .missingFile _ => isTrue trivial
  | .files _ => isTrue trivial
  | .unknownBackup _ | .missingCopy _ | .modifiedCopy _ | .someNotRestored _ | .missingKey _
  | .notText _ | .notRead _ | .malformed _ => isFalse id

/-- Back up a file, if there is a store. -/
def backUp (store : Option Store) (path : Path) (disk : Disk := .reliable) :
    CommandAction (Except BackupError (Option String)) := do
  match store with
  | none => return .ok none
  | some store => return (← attempt (store.backup path "strip" disk)).map some

/-- Report a file that could not be overwritten. -/
def reportFailure (path : Path) (reason : String) : CommandAction Bool := do
  print (.error [.words "Failed to write ", .quoted path.text, .words ": ", .quoted reason])
  return false

/-- Back up and overwrite one file. Says whether that succeeded. -/
def overwrite (store : Option Store) (p : Processed) (disk : Disk := .reliable) :
    CommandAction Bool := do
  match ← backUp store p.path disk with
  | .error e =>
      if IsFileFailure e then reportFailure p.path e.message else throw (.failed (.backup e))
  | .ok id =>
      match ← write p.path p.result.code disk with
      | .error e => reportFailure p.path e.message
      | .ok () =>
          let suffix := id.elim "" fun id => s!" (backup {id})"
          print (.line [.words "✓ ", .quoted p.path.text, .words suffix])
          return true

/-- Back up and overwrite files in turn. Says whether all of that succeeded. -/
def overwriteAll (store : Option Store) (changed : List Processed) (disk : Disk := .reliable) :
    CommandAction Bool :=
  match changed with
  | [] => return true
  | p :: rest => do
      let done ← overwrite store p disk
      let others ← overwriteAll store rest disk
      return done && others

/-- Report what changes. -/
def report (options : StripOptions) (verbose : Bool) (target : Target) (count : Nat)
    (reading : Reading) (changed : List Processed) : CommandAction Unit := do
  if verbose then
    for p in reading.processed do
      for message in p.result.log do print (.note message)
  if changed ≠ [] ∨ options.showDiff then
    let title := [.words "Uses of '", .quoted target.name, .words "'"]
    print (.table title tableHeader (reading.processed.map Processed.cells))
  if options.showDiff then
    for p in changed do
      if p.difference ≠ "" then print (.difference p.difference)
  let verb := if options.dryRun ∨ options.check then "would" else "to"
  print (.line [.words s!"{changed.length} of {count} file(s) {verb} change."])

/-- End with exit code 1 if a condition holds. -/
def exitIf (condition : Bool) : CommandAction Unit := if condition then exit 1 else return

/-- Open the backup store, unless no backups are wanted. -/
def openStore (options : StripOptions) (directory : Path) (disk : Disk := .reliable) :
    CommandAction (Option Store) := do
  if options.noBackup then return none
  return some (← orFail (Store.openAt directory disk))

/-- Overwrite what changes, after a confirmation. -/
def carryOut (options : StripOptions) (directory : Path) (reading : Reading)
    (changed : List Processed) (disk : Disk := .reliable) : CommandAction Unit := do
  if options.check then exitIf (changed ≠ [] ∨ reading.unreadable ≠ [])
  else if options.dryRun ∨ changed = [] then exitIf (reading.unreadable ≠ [])
  else
    let confirmed ← if options.yes then pure true
      else confirm s!"Rewrite {changed.length} file(s)?"
    if ¬ confirmed then
      print (.line [.words "Aborted."])
      exit 1
    let store ← openStore options directory disk
    let done ← overwriteAll store changed disk
    exitIf (¬ done ∨ reading.unreadable ≠ [])

/-- The first of some paths at which nothing stands. -/
def firstMissing? : List Path → CommandAction (Option Path)
  | [] => return none
  | path :: rest => do if ← look path then firstMissing? rest else return some path

/-- Strip the sources that were found. -/
def stripSources (grammar : Grammar) (target : Target) (options : StripOptions) (verbose : Bool)
    (directory : Path) (sources : List Path) (disk : Disk := .reliable) : CommandAction Unit := do
  if sources = [] then print (.line [.words "No JavaScript/TypeScript files found."])
  else
    let reading ← processFiles grammar target sources disk
    let changed := reading.processed.filter fun p => p.result.changed
    report options verbose target sources.length reading changed
    carryOut options directory reading changed disk

/-- Strip files in place. -/
def strip (grammar : Grammar) (reader : SettingsReader) (options : StripOptions) (verbose : Bool)
    (disk : Disk := .reliable) : CommandAction Unit := do
  let target ← loadTarget reader options.target
  match ← firstMissing? options.paths with
  | some path => abort [.words "Path does not exist: ", .quoted path.text]
  | none =>
      let directory := Path.ofText (Settings.backupDirectory (← environment))
      let sources := (← files).sourceFiles options.paths directory
      stripSources grammar target options verbose directory sources disk

end Excise.Command
