import Excise.Files.Path
import Excise.Syntax.Tree

/-!
# Languages

The grammars whose trees can be analysed, by name (`Language.ofName?`) and by the extension of a
file (`Language.ofPath?`). A `Grammar` stands for a parser: it gives a tree for every source in
every language, and says whether the source had syntax errors.
-/

namespace Excise

/-- A language with a grammar. -/
inductive Language where
  | javascript
  | typescript
  | tsx
deriving DecidableEq

namespace Language

/-- The name of a language. -/
def name : Language → String
  | .javascript => "javascript"
  | .typescript => "typescript"
  | .tsx => "tsx"

/-- Every language. -/
def all : List Language := [.javascript, .typescript, .tsx]

/-- The language of a name, which is written exactly so. -/
def ofName? (name : String) : Option Language := all.find? fun l => l.name = name

/-- The message for a name that is no language. -/
def unsupportedMessage (name : String) : String := s!"Unsupported language: {name}"

/-- The extensions of each language. -/
def extensions : List (String × Language) :=
  [(".js", .javascript), (".mjs", .javascript), (".cjs", .javascript), (".jsx", .javascript),
    (".ts", .typescript), (".mts", .typescript), (".cts", .typescript), (".tsx", .tsx)]

/-- The language of a file, by its extension. -/
def ofPath? (path : Path) : Option Language := extensions.lookup path.extension

end Language

/-- A tree for a source, and whether there were syntax errors. -/
structure Parsed where
  tree : Tree
  hasErrors : Bool

/-- A parser for every language. -/
abbrev Grammar := Language → Bytes → Parsed

end Excise
