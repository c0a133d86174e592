import Excise.Syntax.Tree

/-!
# Imports and string literals

An import statement names a module by a string literal (`Tree.moduleSpecifier?`) and introduces
local names (`Tree.importedNames`): a default name, a namespace, listed names under their aliases,
or the name of an `import … = require(…)`. `unquote?` reads a plain string literal.
-/

namespace Excise

/-- The text between the quotes of a literal that opens and closes with the same quote. -/
def unquote? (literal : String) : Option String :=
  match literal.toList with
  | [] => none
  | q :: rest =>
      if (q = '\x22' ∨ q = '\x27') ∧ rest.getLast? = some q then some (String.ofList rest.dropLast)
      else none

namespace Tree

variable (t : Tree)

/-- The value of a plain string literal; no other node has one. -/
def literalText? (n : Node) : Option String :=
  if t.kind n = "string" then unquote? (t.text n) else none

/-- The node with the module's name: the source of the statement, or else the first string of a
`require` clause in it. -/
def moduleSpecifier? (n : Node) : Option Node :=
  (t.childByField? n "source").or
    (((t.namedChildrenOfKind n "import_require_clause").flatMap fun clause =>
      t.namedChildrenOfKind clause "string").head?)

/-- The local name of one entry in a list of imported names: its alias, or else its own name. -/
def specifierName? (n : Node) : Option Node :=
  ((t.childByField? n "alias").or (t.childByField? n "name")).filter fun i =>
    t.kind i = "identifier"

/-- The local names in one part of an import clause. -/
def clausePartNames (n : Node) : List Node :=
  if t.kind n = "identifier" then [n]
  else if t.kind n = "namespace_import" then t.namedChildrenOfKind n "identifier"
  else if t.kind n = "named_imports" then
    (t.namedChildrenOfKind n "import_specifier").filterMap t.specifierName?
  else []

/-- The local names of one clause of an import. -/
def clauseNames (n : Node) : List Node :=
  if t.kind n = "import_require_clause" then (t.namedChildrenOfKind n "identifier").head?.toList
  else if t.kind n = "import_clause" then (t.namedChildren n).flatMap t.clausePartNames
  else []

/-- The nodes that name what an import statement introduces. -/
def importedNames (n : Node) : List Node :=
  (t.namedChildren n).flatMap t.clauseNames

/-- The statement imports the module. -/
def ImportsModule (target : String) (n : Node) : Prop :=
  (t.moduleSpecifier? n).bind t.literalText? = some target

/-- The module of an import is read and compared. -/
instance (target : String) (n : Node) : Decidable (t.ImportsModule target n) :=
  inferInstanceAs (Decidable (_ = _))

end Tree

end Excise
