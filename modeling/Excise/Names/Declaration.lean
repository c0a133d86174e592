import Excise.Names.Scope
import Excise.Syntax.Import
import Excise.Syntax.Pattern

/-!
# Declarations

A construct declares names: a function its own, a declarator those of its pattern, a parameter list
those of its parameters, and so on. `Tree.declarationsAt` lists what one construct declares, with
the scope that each name is placed in, and `Tree.declarations` collects the whole tree in
pre-order. The root and a `program` declare nothing themselves.
-/

namespace Excise

/-- How a name comes to be declared; `keyword` holds the declaration's own word, such as `const`. -/
inductive BindingKind where
  | keyword (word : String)
  | functionName
  | className
  | parameter
  | imported
  | caught
deriving DecidableEq

/-- The word for a kind of binding. -/
def BindingKind.text : BindingKind → String
  | .keyword word => word
  | .functionName => "function"
  | .className => "class"
  | .parameter => "param"
  | .imported => "import"
  | .caught => "catch"

/-- A node that declares a name, the scope that the name is placed in, and how it is declared. -/
structure Declaration where
  identifier : Node
  scope : Node
  kind : BindingKind
deriving DecidableEq

namespace Tree

/-- The kinds of function whose name is declared outside it. -/
def declaredFunctionKinds : List String :=
  ["function_declaration", "generator_function_declaration"]

/-- The kinds of function whose name is seen inside it only. -/
def functionExpressionKinds : List String :=
  ["function_expression", "function", "generator_function"]

/-- The kinds of class whose name is declared outside it. -/
def declaredClassKinds : List String := ["class_declaration", "abstract_class_declaration"]

variable (t : Tree)

/-- The declarations of some nodes in one scope; a node that names no variable declares none. -/
def declare (identifiers : List Node) (scope : Node) (kind : BindingKind) : List Declaration :=
  (identifiers.filter t.IsBindingIdentifier).map (⟨·, scope, kind⟩)

/-- The identifiers in the names of the declarators of a declaration. -/
def declaratorIdentifiers (n : Node) : List Node :=
  (t.namedChildrenOfKind n "variable_declarator").flatMap fun d =>
    t.boundIdentifiersIn (t.childByField? d "name")

/-- The declarations of a function: its name, outside or inside, and the single parameter of an
arrow function that has no parameter list. -/
def functionDeclarations (n : Node) : List Declaration :=
  if t.kind n ∈ declaredFunctionKinds then
    t.declare (t.childByField? n "name").toList (t.scopeAround n) .functionName
  else if t.kind n ∈ functionExpressionKinds then
    t.declare (t.childByField? n "name").toList n .functionName
  else if t.kind n = "arrow_function" then
    t.declare (t.childByField? n "parameter").toList n .parameter
  else []

/-- The declarations of a loop over a collection, which says by a word of its own where they go. -/
def loopDeclarations (n : Node) : List Declaration :=
  match t.childByField? n "kind" with
  | none => []
  | some word =>
      t.declare (t.boundIdentifiersIn (t.childByField? n "left"))
        (if t.text word = "var" then t.hoistScope n else n) (.keyword (t.text word))

/-- The word of a block-scoped declaration. -/
def lexicalWord (n : Node) : String := ((t.childByField? n "kind").map t.text).getD "let"

/-- What one construct declares. -/
def declarationsAt (n : Node) : List Declaration :=
  if t.OpensOutermostScope n then []
  else if t.kind n ∈ functionKinds then t.functionDeclarations n
  else if t.kind n ∈ declaredClassKinds then
    t.declare (t.childByField? n "name").toList (t.scopeAround n) .className
  else if t.kind n = "class" then t.declare (t.childByField? n "name").toList n .className
  else if t.kind n = "catch_clause" then
    t.declare (t.boundIdentifiersIn (t.childByField? n "parameter")) n .caught
  else if t.kind n = "for_in_statement" then t.loopDeclarations n
  else if t.kind n = "formal_parameters" then
    t.declare ((t.namedChildren n).flatMap t.boundIdentifiers) (t.scopeAround n) .parameter
  else if t.kind n = "variable_declaration" then
    t.declare (t.declaratorIdentifiers n) (t.hoistScope (t.scopeAround n)) (.keyword "var")
  else if t.kind n = "lexical_declaration" then
    t.declare (t.declaratorIdentifiers n) (t.scopeAround n) (.keyword (t.lexicalWord n))
  else if t.kind n = "import_statement" then t.declare (t.importedNames n) 0 .imported
  else []

/-- Everything that the tree declares, in pre-order of the declaring constructs. -/
def declarations : List Declaration := t.nodes.flatMap t.declarationsAt

end Tree

end Excise
