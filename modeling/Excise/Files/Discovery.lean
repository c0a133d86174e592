import Excise.Files.FileSystem
import Excise.Language

/-!
# Finding source files

`sourceFiles` collects the files to work on from the paths named: a file that is named is taken as
it is, and below a directory every file of a supported type is, unless a directory on the way has an
excluded name. The result is in order and names no path twice.
-/

namespace Excise

/-- The names of directories that hold no sources of the project. -/
def excludedNames : List String :=
  ["node_modules", ".git", "dist", "build", "coverage", "venv", ".venv", "env", ".virtualenv",
    "__pycache__"]

namespace FileSystem

variable (fs : FileSystem)

/-- The files below a path, as the components from there. -/
def walk (path : Path) : List (List String) :=
  match fs.locate path with
  | .error _ => []
  | .ok location =>
      if fs.get? location = some .directory then (fs.filesBelow location).map (·.1) else []

/-- The file below a directory is a source of the project. -/
def IsSource (excluded : List String) (components : List String) : Prop :=
  (∀ c ∈ components, c ∉ excluded) ∧ (Language.ofPath? ⟨.relative, components⟩).isSome

/-- The components and the extension are looked up. -/
instance (excluded components : List String) : Decidable (IsSource excluded components) :=
  inferInstanceAs (Decidable (_ ∧ _))

/-- The files that one named path stands for. -/
def sourcesAt (excluded : List String) (path : Path) : List Path :=
  if fs.HasFile path then [path]
  else ((fs.walk path).filter fun components => IsSource excluded components).map
    fun components => ⟨path.root, path.parts ++ components⟩

/-- Keep the first of each run of equal paths. -/
def dropRepeats : List Path → List Path
  | [] => []
  | p :: rest => if rest.head? = some p then dropRepeats rest else p :: dropRepeats rest

/-- The source files that the paths stand for, in order and without repetition. -/
def sourceFiles (paths : List Path) (backupDirectory : Path) : List Path :=
  dropRepeats
    ((paths.flatMap (fs.sourcesAt (backupDirectory.name :: excludedNames))).mergeSort
      fun a b => a.Precedes b)

end FileSystem

end Excise
