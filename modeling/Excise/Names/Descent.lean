import Excise.Names.Declaration
import Excise.Table

/-!
# Descending a tree

The scopes of a tree are opened and its names declared in one descent with a stack of nodes, each
with the scopes around it (`Tree.descend`). A node that opens a scope hands it down to its children,
the others hand down what they were given. The innermost of the scopes around a node, the function
scope among them that a `var` goes to, and the scope of the whole program are all that a declaration
needs. Afterwards the scopes around a node are those of the closest node above it that opened one
(`Tree.scopesAround`).
-/

namespace Excise

/-- A scope that was opened: the node that opens it, and whether a `var` goes to it. -/
structure OpenScope where
  node : Node
  isFunction : Bool
deriving DecidableEq

/-- A descent: the nodes that wait, the top of the stack first, each with the scopes around it from
the innermost on; the node of the program's scope; the scopes around whatever is in a node that
opened one; and what was declared. -/
structure Descent where
  stack : List (Node × List OpenScope)
  programScope : Option Node
  opened : Table Node (List OpenScope)
  declarations : List Declaration

/-- The innermost of some scopes. -/
def innermost? (scopes : List OpenScope) : Option Node := scopes.head?.map OpenScope.node

/-- The scope that a `var` goes to: the innermost function scope, or the outermost scope. -/
def functionScope? : List OpenScope → Option Node
  | [] => none
  | s :: rest => if s.isFunction ∨ rest = [] then some s.node else functionScope? rest

namespace Tree

variable (t : Tree)

/-- The declarations of some nodes in a scope, if there is one. -/
def declareAt (identifiers : List Node) (scope : Option Node) (kind : BindingKind) :
    List Declaration :=
  scope.elim [] fun s => t.declare identifiers s kind

/-- The scopes around what is in a node that opens a scope, given those around the node. -/
def openedBy? (n : Node) (scopes : List OpenScope) : Option (List OpenScope) :=
  if t.kind n = "program" ∨ scopes = [] then some [⟨n, true⟩]
  else if t.kind n ∈ functionKinds then some (⟨n, true⟩ :: scopes)
  else if t.kind n ∈ declaredClassKinds then none
  else if t.kind n = "class" then
    if (t.childByField? n "name").isSome then some (⟨n, false⟩ :: scopes) else none
  else if t.kind n ∈ blockKinds then some (⟨n, false⟩ :: scopes)
  else none

/-- What a node declares, given the scopes around it and around what is in it, and the scope of the
program. -/
def declaredAt (n : Node) (scopes inner : List OpenScope) (programScope : Option Node) :
    List Declaration :=
  let name := (t.childByField? n "name").toList
  if t.kind n = "program" ∨ scopes = [] then []
  else if t.kind n ∈ functionKinds then
    if t.kind n ∈ declaredFunctionKinds then t.declareAt name (innermost? scopes) .functionName
    else if t.kind n ∈ functionExpressionKinds then
      t.declareAt name (innermost? inner) .functionName
    else if t.kind n = "arrow_function" then
      t.declareAt (t.childByField? n "parameter").toList (innermost? inner) .parameter
    else []
  else if t.kind n ∈ declaredClassKinds then t.declareAt name (innermost? scopes) .className
  else if t.kind n = "class" then t.declareAt name (innermost? inner) .className
  else if t.kind n = "catch_clause" then
    t.declareAt (t.boundIdentifiersIn (t.childByField? n "parameter")) (innermost? inner) .caught
  else if t.kind n = "for_in_statement" then
    match t.childByField? n "kind" with
    | none => []
    | some word =>
        t.declareAt (t.boundIdentifiersIn (t.childByField? n "left"))
          (if t.text word = "var" then functionScope? inner else innermost? inner)
          (.keyword (t.text word))
  else if t.kind n = "formal_parameters" then
    t.declareAt ((t.namedChildren n).flatMap t.boundIdentifiers) (innermost? scopes) .parameter
  else if t.kind n = "variable_declaration" then
    t.declareAt (t.declaratorIdentifiers n) (functionScope? scopes) (.keyword "var")
  else if t.kind n = "lexical_declaration" then
    t.declareAt (t.declaratorIdentifiers n) (innermost? scopes) (.keyword (t.lexicalWord n))
  else if t.kind n = "import_statement" then t.declareAt (t.importedNames n) programScope .imported
  else []

/-- Visit the node on top of the stack. Its children take its place, each with the scopes around
it. -/
def descend (d : Descent) : Descent :=
  match d.stack with
  | [] => d
  | (n, scopes) :: rest =>
      let inner := (t.openedBy? n scopes).getD scopes
      let programScope :=
        if t.kind n = "program" ∨ scopes = [] then d.programScope.or (some n) else d.programScope
      { stack := (t.children n).reverse.foldl (fun stack c => (c, inner) :: stack) rest
        programScope
        opened := (t.openedBy? n scopes).elim d.opened (d.opened.set n)
        declarations := d.declarations ++ t.declaredAt n scopes inner programScope }

/-- The descent before the first visit: the root waits, with no scope around it. -/
def descentStart : Descent := ⟨[(0, [])], none, [], []⟩

/-- The scopes around a node: those of the closest node above it that opened one, and else that of
the program alone. -/
def scopesAround (d : Descent) (n : Node) : List OpenScope :=
  ((t.ancestors n).findSome? d.opened.get?).getD (d.programScope.toList.map (⟨·, true⟩))

end Tree

end Excise
