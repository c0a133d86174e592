import Excise.Backup.Moment
import Excise.Command.Run
import Excise.Syntax.Document
import Std.Data.HashMap
import Std.Time.DateTime

/-!
# The program

The program carries out a command line on the files of the machine. It reads the files that the
command can reach into a `FileSystem`, runs the command, prints, and writes back what changed. The
trees of the sources are read from a document that a parser has left in the working directory, or
where the variable `UNDEBUG_TREES` says.
-/

namespace Excise.Program

/-- The variables that the commands look at. -/
def variableNames : List String := [Settings.targetVariable, Settings.backupVariable]

/-- The document with the trees, unless the environment names another. -/
def standardTrees : String := ".undebug_trees.json"

/-- The text of the path of a location. -/
def pathText (location : Location) : String := "/" ++ String.intercalate "/" location

/-- The location of the text of an absolute path. -/
def locationOf (text : String) : Location := (Path.ofText text).parts

/-- What stands below a directory. Directories of excluded names are not looked into. -/
partial def entriesBelow (location : Location) : IO (Array (Location × Content)) := do
  let directory ← IO.FS.realPath (pathText location)
  let mut found := #[]
  for entry in ← directory.readDir do
    let below := location ++ [entry.fileName]
    match (← entry.path.symlinkMetadata).type with
    | .dir =>
        found := found.push (below, .directory)
        if entry.fileName ∉ excludedNames then found := found ++ (← entriesBelow below)
    | .file => found := found.push (below, .file (← IO.FS.readBinFile entry.path).data.toList)
    | _ => pure ()
  return found

/-- The file system with the directories above a location. -/
def putAbove (fs : FileSystem) (location : Location) : FileSystem :=
  (List.range location.length).foldl (fun fs n => fs.put (location.take n) .directory) fs

/-- The file system with what stands at a path, if it was left out of the working directory. -/
def addNamed (fs : FileSystem) (name : String) : IO FileSystem := do
  let path := (← IO.currentDir) / name
  if !(← path.pathExists) then return fs
  let location := locationOf (← IO.FS.realPath path).toString
  let inner := location.drop fs.workingDirectory.length
  if fs.workingDirectory <+: location ∧ ∀ part ∈ inner, part ∉ excludedNames then return fs
  let above := putAbove fs location
  if ← path.isDir then
    let below ← entriesBelow location
    let whole := above.put location .directory
    return below.foldl (fun fs e => fs.put e.1 e.2) whole
  return above.put location (.file (← IO.FS.readBinFile path).data.toList)

/-- The files that a command line can reach: those below the working directory, and those named. -/
def readFiles (names : List String) : IO FileSystem := do
  let location := locationOf (← IO.currentDir).toString
  let found ← entriesBelow location
  let fs : FileSystem := ⟨location, found.toList⟩
  names.foldlM addNamed ((putAbove fs location).put location .directory)

/-- Write what a command changed. -/
def writeChanges (before after : FileSystem) : IO Unit := do
  let old := Std.HashMap.ofList before.entries
  let new := Std.HashMap.ofList after.entries
  for (location, content) in after.entries do
    match content with
    | .directory => if old[location]? ≠ some .directory then IO.FS.createDirAll (pathText location)
    | .file bytes =>
        if old[location]? ≠ some content then
          IO.FS.writeBinFile (pathText location) ⟨bytes.toArray⟩
  for (location, content) in before.entries do
    if content ≠ .directory ∧ ¬ location ∈ new then IO.FS.removeFile (pathText location)

/-- The present moment. -/
def now : IO Moment := do
  let t := Std.Time.PlainDateTime.ofWallTime ((← Std.Time.Timestamp.now).toWallTime .zero)
  return ⟨t.date.year.toInt.toNat, t.date.month.val.toNat, t.date.day.val.toNat,
    t.time.hour.val.toNat, t.time.minute.val.toNat, t.time.second.val.toNat,
    t.time.nanosecond.val.toNat / 1000⟩

/-- The variables of the environment. -/
def readEnvironment : IO Environment := do
  variableNames.filterMapM fun name => do return (← IO.getEnv name).map fun value => (name, value)

/-- The parser that the document of trees describes; without a document no tree is known. -/
def readGrammar (fs : FileSystem) : IO Grammar := do
  let name := (← IO.getEnv "UNDEBUG_TREES").getD standardTrees
  let document := (fs.read (Path.ofText name)).toOption.bind Bytes.text?
  return (document.bind Grammar.ofDocument?).getD (Grammar.ofSources [])

/-- The standard input, if a command line reads it. -/
def readInput (words : List String) : IO String := do
  match Command.Invocation.ofWords words with
  | .error _ => return ""
  | .ok invocation =>
      if invocation.ReadsInput then return Text.unifyNewlines (← readAll (← IO.getStdin))
      else return ""
where
  readAll (stream : IO.FS.Stream) : IO String := do
    let mut text := ""
    repeat
      let line ← stream.getLine
      if line.isEmpty then break
      text := text ++ line
    return text

/-- Print what a command printed. -/
def display (printed : List Command.Printed) : IO Unit := do
  for p in printed do
    if p.IsDiagnostic then IO.eprint p.text else IO.print p.text

/-- Carry out a command line. Gives the exit code. -/
def run (words : List String) : IO UInt32 := do
  let before ← readFiles words
  let host := Host.ofMoment before (← now) (← IO.rand 0 0xFFFFFF)
  let session : Command.Session := ⟨host, ⟨← readEnvironment, none, 0⟩, ← readInput words, []⟩
  let (outcome, after) := Command.run (← readGrammar before) words session
  display outcome.printed
  writeChanges before after.host.files
  if let some failure := outcome.failure then IO.eprintln failure.message
  return outcome.exitCode.toUInt32

end Excise.Program

/-- Carry out the command line. -/
def main (words : List String) : IO UInt32 := Excise.Program.run words
