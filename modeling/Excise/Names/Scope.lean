import Excise.Syntax.Tree

/-!
# Scopes

A scope is named by the node that opens it: the root, a `program`, a function or function-like
signature, a block, or a class expression that names itself. `Tree.scopeChain` lists the scopes
around a node, innermost first; it ends with the first `program`, since nothing declared outside a
program is seen inside. `Tree.hoistScope` is the scope that a `var` written in a scope belongs to.
-/

namespace Excise.Tree

/-- The kinds of node that open a function scope, to which `var` declarations are hoisted. A
signature has parameters and no body. -/
def functionKinds : List String :=
  ["program", "function_declaration", "generator_function_declaration", "function_expression",
    "function", "generator_function", "arrow_function", "method_definition", "class_static_block",
    "function_signature", "method_signature", "abstract_method_signature", "function_type",
    "call_signature", "construct_signature"]

/-- The kinds of node that open a block scope. -/
def blockKinds : List String :=
  ["statement_block", "for_statement", "for_in_statement", "catch_clause", "switch_body"]

variable (t : Tree) (n : Node)

/-- The node begins a scope of its own, which nothing outside it can be seen from. -/
def OpensOutermostScope : Prop := n = 0 ∨ t.kind n = "program"

/-- Two finite comparisons decide it. -/
instance : Decidable (t.OpensOutermostScope n) := inferInstanceAs (Decidable (_ ∨ _))

/-- The node opens a scope that `var` declarations are hoisted to. -/
def OpensFunctionScope : Prop := n = 0 ∨ t.kind n ∈ functionKinds

/-- Finite comparisons decide it. -/
instance : Decidable (t.OpensFunctionScope n) := inferInstanceAs (Decidable (_ ∨ _))

/-- The node is a class expression with a name, which is seen inside the class only. -/
def IsNamedClassExpression : Prop :=
  t.kind n = "class" ∧ (t.childByField? n "name").isSome

/-- The kind and one field decide it. -/
instance : Decidable (t.IsNamedClassExpression n) := inferInstanceAs (Decidable (_ ∧ _))

/-- The node opens a scope. -/
def OpensScope : Prop :=
  t.OpensFunctionScope n ∨ t.kind n ∈ blockKinds ∨ t.IsNamedClassExpression n

/-- Each of the three cases is decidable. -/
instance : Decidable (t.OpensScope n) := inferInstanceAs (Decidable (_ ∨ _ ∨ _))

/-- The part of a list of nodes up to and with the first that begins an outermost scope. -/
def throughOutermost : List Node → List Node
  | [] => []
  | s :: rest => if t.OpensOutermostScope s then [s] else s :: throughOutermost rest

/-- The scopes around a node, innermost first. -/
def scopeChain : List Node := t.throughOutermost ((t.ancestors n).filter t.OpensScope)

/-- The innermost scope around a node. -/
def scopeAround : Node := (t.scopeChain n).head?.getD 0

/-- The scope directly around a scope; an outermost scope has none. -/
def parentScope? : Option Node :=
  if t.OpensOutermostScope n then none else (t.scopeChain n).head?

/-- The scope that a `var` declared in scope `n` belongs to: the scope itself if it is a function
scope, and else the closest function scope around it. -/
def hoistScope : Node :=
  if t.OpensFunctionScope n then n
  else ((t.scopeChain n).find? fun s => t.OpensFunctionScope s).getD n

end Excise.Tree
