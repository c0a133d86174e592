import Excise.Files.FileSystem
import Excise.Settings.Environment
import Excise.Text.Malformed

/-!
# Reading a file of settings

The format of a file of settings is not the program's own: a `SettingsReader` says which variables
the bytes of a file set.
-/

namespace Excise

/-- How a file of settings is read: the variables that its bytes set, in order, or where they are no
text. A value may be made of those of other variables, so the environment counts. No variable has an
empty name. -/
structure SettingsReader where
  additions : Environment → Bytes → Except Fault Environment
  named : ∀ env bytes found, additions env bytes = .ok found → ∀ v ∈ found, v.1 ≠ ""

/-- The variables that the file of settings at a path sets. One that is not there sets none. -/
def SettingsReader.ofPath (reader : SettingsReader) (env : Environment) (files : FileSystem)
    (path : Path) : Except Fault Environment :=
  match files.read path with
  | .error _ => .ok []
  | .ok bytes => reader.additions env bytes

end Excise
