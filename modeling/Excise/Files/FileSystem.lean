import Excise.Files.Path
import Excise.Table
import Excise.Text.Bytes
import Excise.Text.Quoted

/-!
# File systems

A file system is a working directory and what stands at each location; a location is the list of
components from the root. A path is followed component by component (`FileSystem.locate`), each step
out of a directory that must be there, so that `a/..` needs `a`. The operations are those of a
store of files: look, read, write, copy, rename, make directories, remove. Each failure says its
cause and the path as it was given (`FileError`).
-/

namespace Excise

/-- A place in a file system, as the components from the root. -/
abbrev Location := List String

/-- What stands at a location. -/
inductive Content where
  | file (bytes : Bytes)
  | directory
deriving DecidableEq

/-- The working directory, and what stands at each location. The root is always a directory. -/
structure FileSystem where
  workingDirectory : Location
  entries : Table Location Content
deriving DecidableEq

/-- Why an operation on files failed. -/
inductive FileCause where
  | notFound
  | alreadyExists
  | notDirectory
  | isDirectory
  | sameFile
  | nullCharacter
  | nameTooLong
deriving DecidableEq

/-- A failed operation: the cause, the text of the path, and that of the other path of an operation
on two. -/
structure FileError where
  cause : FileCause
  path : String
  other : Option String
deriving DecidableEq

/-- The words for a cause, with its number. -/
def FileCause.text : FileCause → String
  | .notFound => "[Errno 2] No such file or directory"
  | .alreadyExists => "[Errno 17] File exists"
  | .notDirectory => "[Errno 20] Not a directory"
  | .isDirectory => "[Errno 21] Is a directory"
  | .sameFile => "same file"
  | .nullCharacter => "embedded null byte"
  | .nameTooLong => "[Errno 36] File name too long"

/-- The message of a failed operation. -/
def FileError.message (e : FileError) : String :=
  match e.cause, e.other with
  | .nullCharacter, _ => e.cause.text
  | .sameFile, some other => s!"{Text.quote e.path} and {Text.quote other} are the same file"
  | cause, some other => s!"{cause.text}: {Text.quote e.path} -> {Text.quote other}"
  | cause, none => s!"{cause.text}: {Text.quote e.path}"

namespace FileSystem

variable (fs : FileSystem)

/-- The location that relative paths start from, and absolute ones. -/
def base (path : Path) : Location :=
  if path.root = .relative then fs.workingDirectory else []

/-- What stands at a location. -/
def get? (location : Location) : Option Content :=
  if location = [] then some .directory else fs.entries.get? location

/-- Put something at a location. -/
def put (location : Location) (content : Content) : FileSystem :=
  { fs with entries := fs.entries.set location content }

/-- The most bytes of a component. -/
def nameLimit : Nat := 255

/-- The most bytes of a path. -/
def pathLimit : Nat := 4095

/-- One step of a path: to the directory above, or to a component below. -/
def step (location : Location) (component : String) : Except FileCause Location :=
  match fs.get? location with
  | some .directory =>
      if nameLimit < component.utf8ByteSize then .error .nameTooLong
      else .ok (if component = ".." then location.dropLast else location ++ [component])
  | some (.file _) => .error .notDirectory
  | none => .error .notFound

/-- Follow components from a location. -/
def follow (location : Location) (components : List String) : Except FileCause Location :=
  components.foldlM fs.step location

/-- The location of a path, at which nothing need stand. A path with a null character is none. -/
def locate (path : Path) : Except FileCause Location :=
  if ∃ part ∈ path.parts, '\x00' ∈ part.toList then .error .nullCharacter
  else if pathLimit < path.text.utf8ByteSize then .error .nameTooLong
  else fs.follow (fs.base path) path.parts

/-- What stands at a path. -/
def at? (path : Path) : Option Content :=
  match fs.locate path with
  | .ok location => fs.get? location
  | .error _ => none

/-- Something stands at the path. -/
def Exists (path : Path) : Prop := (fs.at? path).isSome

/-- The path is followed. -/
instance (path : Path) : Decidable (fs.Exists path) := inferInstanceAs (Decidable (_ = true))

/-- Whether something stands at a path. A name that is too long cannot be looked up. -/
def look (path : Path) : Except FileError Bool :=
  match fs.locate path with
  | .error .nameTooLong => .error ⟨.nameTooLong, path.text, none⟩
  | _ => .ok (fs.Exists path)

/-- A file stands at the path. -/
def HasFile (path : Path) : Prop := ∃ bytes, fs.at? path = some (.file bytes)

/-- The path is followed. -/
instance (path : Path) : Decidable (fs.HasFile path) :=
  match h : fs.at? path with
  | some (.file bytes) => .isTrue ⟨bytes, h⟩
  | some .directory => .isFalse (by simp [HasFile, h])
  | none => .isFalse (by simp [HasFile, h])

/-- A directory stands at the path. -/
def HasDirectory (path : Path) : Prop := fs.at? path = some .directory

/-- The path is followed. -/
instance (path : Path) : Decidable (fs.HasDirectory path) := inferInstanceAs (Decidable (_ = _))

/-- The path from the root to what stands at a path, without dots. -/
def absolute (path : Path) : Path :=
  match fs.locate path with
  | .ok location => ⟨.absolute, location⟩
  | .error _ => ⟨.absolute, fs.base path ++ path.parts⟩

/-- The content of a file. -/
def read (path : Path) : Except FileError Bytes :=
  match fs.locate path with
  | .error cause => .error ⟨cause, path.text, none⟩
  | .ok location =>
      match fs.get? location with
      | some (.file bytes) => .ok bytes
      | some .directory => .error ⟨.isDirectory, path.text, none⟩
      | none => .error ⟨.notFound, path.text, none⟩

/-- The content of a file whose path is given as it stands. The empty text is no path, and a text
that ends like that of a directory does not name a file. -/
def readNamed (text : String) : Except FileError Bytes :=
  if text = "" then .error ⟨.notFound, text, none⟩
  else if pathLimit < text.utf8ByteSize then .error ⟨.nameTooLong, text, none⟩
  else
    match fs.read (Path.ofText text) with
    | .error e => .error { e with path := text }
    | .ok bytes =>
        if Path.NamesDirectory text then .error ⟨.notDirectory, text, none⟩ else .ok bytes

/-- The file system after a file was written. The directory must be there. -/
def write (path : Path) (bytes : Bytes) : Except FileError FileSystem :=
  match fs.locate path with
  | .error cause => .error ⟨cause, path.text, none⟩
  | .ok location =>
      match fs.get? location with
      | some .directory => .error ⟨.isDirectory, path.text, none⟩
      | some (.file _) => .ok (fs.put location (.file bytes))
      | none => .ok (fs.put location (.file bytes))

/-- The file system with one more directory, if there was none. The one above must be there. -/
def makeDirectory (path : Path) : Except FileError FileSystem :=
  match fs.locate path with
  | .error cause => .error ⟨cause, path.text, none⟩
  | .ok location =>
      match fs.get? location with
      | some .directory => .ok fs
      | some (.file _) => .error ⟨.alreadyExists, path.text, none⟩
      | none => .ok (fs.put location .directory)

/-- The file system with a directory at a path and all directories above it. The components of the
path are given from the last to the first. -/
def makeDirectoriesFrom (root : PathRoot) : List String → FileSystem → Except FileError FileSystem
  | [], fs => fs.makeDirectory ⟨root, []⟩
  | component :: above, fs =>
      let path : Path := ⟨root, (component :: above).reverse⟩
      match fs.makeDirectory path with
      | .ok made => .ok made
      | .error e =>
          if e.cause = .notFound then
            match makeDirectoriesFrom root above fs with
            | .ok made => made.makeDirectory path
            | .error e => .error e
          else .error e

/-- The file system with a directory at a path and all directories above it. -/
def makeDirectories (path : Path) : Except FileError FileSystem :=
  makeDirectoriesFrom path.root path.parts.reverse fs

/-- The file system after a file was written, with all directories above it. -/
def writeBelow (path : Path) (bytes : Bytes) : Except FileError FileSystem :=
  match fs.makeDirectories path.parent with
  | .error e => .error e
  | .ok made => made.write path bytes

/-- The file system without what stands at a location and below it. -/
def remove (location : Location) : FileSystem :=
  { fs with entries := fs.entries.filter fun e => ¬ location <+: e.1 }

/-- The file system after a file took the place of another. -/
def rename (source destination : Path) : Except FileError FileSystem :=
  match fs.locate source, fs.locate destination with
  | .error cause, _ => .error ⟨cause, source.text, some destination.text⟩
  | _, .error cause => .error ⟨cause, source.text, some destination.text⟩
  | .ok old, .ok new =>
      match fs.get? old, fs.get? new with
      | some (.file bytes), some (.file _) => .ok ((fs.remove old).put new (.file bytes))
      | some (.file bytes), none => .ok ((fs.remove old).put new (.file bytes))
      | some (.file _), some .directory => .error ⟨.isDirectory, source.text, some destination.text⟩
      | some .directory, _ => .error ⟨.isDirectory, source.text, some destination.text⟩
      | none, _ => .error ⟨.notFound, source.text, some destination.text⟩

/-- Where a copy of a file goes: into a directory that stands at the destination, under its own
name, and else to the destination. -/
def copyDestination (source destination : Path) : Path :=
  if fs.HasDirectory destination then destination.child source.name else destination

/-- The text of the path that a copy goes to. In a directory the name follows the text of the
directory, so that in the working directory it follows a dot. -/
def copyText (source destination : Path) : String :=
  if fs.HasDirectory destination then Path.below destination.text source.name else destination.text

/-- The file system after a file was copied. -/
def copy (source destination : Path) : Except FileError FileSystem :=
  let target := fs.copyDestination source destination
  let text := fs.copyText source destination
  if fs.Exists source ∧ (fs.locate source).toOption = (fs.locate target).toOption then
    .error ⟨.sameFile, source.text, some text⟩
  else
    match fs.read source with
    | .error e => .error e
    | .ok bytes => (fs.write target bytes).mapError fun e => { e with path := text }

/-- The files below a location, as the components from there, with their content. -/
def filesBelow (location : Location) : List (List String × Bytes) :=
  fs.entries.filterMap fun e =>
    match e.2 with
    | .directory => none
    | .file bytes =>
        if location <+: e.1 ∧ location ≠ e.1 then some (e.1.drop location.length, bytes) else none

end FileSystem

end Excise
