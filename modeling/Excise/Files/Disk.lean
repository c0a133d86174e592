import Excise.Files.FileSystem

/-!
# Changes and the disk

The program changes files in four ways (`Change`). A reliable disk reads every file that is there
and carries out every change, unless what stands at its paths is in the way. Another disk may refuse
to read a file, or stop a change before it begins or on the way: then a file has only the first
bytes of its new content, and of the directories above a path only the first were made
(`Change.part`). An interrupted program leaves what it leaves on a disk that stops every change from
then on.
-/

namespace Excise

/-- A change of the files. -/
inductive Change where
  | write (path : Path) (bytes : Bytes)
  | makeDirectories (path : Path)
  | copy (source destination : Path)
  | rename (source destination : Path)
deriving DecidableEq

namespace Change

variable (fs : FileSystem)

/-- The file system after a change, unless what stands at its paths is in the way. -/
def whole : Change → Except FileError FileSystem
  | .write path bytes => fs.write path bytes
  | .makeDirectories path => fs.makeDirectories path
  | .copy source destination => fs.copy source destination
  | .rename source destination => fs.rename source destination

/-- The file system after the first steps of a change, which are the bytes written or the
directories made. A renaming has no steps. -/
def part (steps : Nat) : Change → FileSystem
  | .write path bytes => (fs.write path (bytes.take steps)).toOption.getD fs
  | .makeDirectories path =>
      (fs.makeDirectories ⟨path.root, path.parts.take steps⟩).toOption.getD fs
  | .copy source destination =>
      match fs.copy source destination, fs.read source with
      | .ok _, .ok bytes =>
          (fs.write (fs.copyDestination source destination) (bytes.take steps)).toOption.getD fs
      | _, _ => fs
  | .rename _ _ => fs

end Change

/-- Why a change was stopped, and after how many steps, if it was begun. What the error says is of
no account. -/
structure Stoppage where
  error : FileError
  steps : Option Nat
deriving DecidableEq

/-- A disk: which files it refuses to read, and which changes it stops, as the files stand. -/
structure Disk where
  refusal? : FileSystem → Path → Option FileError
  stoppage? : FileSystem → Change → Option Stoppage

namespace Disk

/-- The disk that refuses and stops nothing. -/
def reliable : Disk := ⟨fun _ _ => none, fun _ _ => none⟩

variable (disk : Disk) (fs : FileSystem)

/-- The content of a file. -/
def read (path : Path) : Except FileError Bytes :=
  match disk.refusal? fs path with
  | some e => .error e
  | none => fs.read path

/-- Carry out a change as far as the disk lets it, and say whether it was carried out. -/
def carryOut (change : Change) : Except FileError Unit × FileSystem :=
  match disk.stoppage? fs change with
  | some stoppage => (.error stoppage.error, stoppage.steps.elim fs fun steps =>
      change.part fs steps)
  | none =>
      match change.whole fs with
      | .ok after => (.ok (), after)
      | .error e => (.error e, fs)

end Disk

end Excise
