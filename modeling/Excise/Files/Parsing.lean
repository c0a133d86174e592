import Excise.Files.FileSystem
import Excise.Language

/-!
# Parsing files

`treeOfFile?` parses the bytes of a file as they are, line terminators included. A file that is not
there has no tree.
-/

namespace Excise

/-- The tree of a file in a language. -/
def treeOfFile? (grammar : Grammar) (language : Language) (files : FileSystem) (path : Path) :
    Option Parsed :=
  ((files.read path).toOption).map (grammar language)

end Excise
