import Excise.Syntax.Tree

/-!
# Binding patterns

A pattern is what stands where a name is declared or written: a plain identifier, an object or array
pattern, a default, a rest element, or a parameter around one of these. `Tree.boundParts` gives the
parts of a pattern that bind in their turn, never a key or a default value, and
`Tree.boundIdentifiers` collects the identifiers at the end of them in pre-order. A walk with a
stack of nodes finds them one visit at a time (`Tree.visit`).
-/

namespace Excise

/-- A walk over a pattern: the nodes that wait, the top of the stack first, and what was found. -/
structure PatternWalk where
  stack : List Node
  found : List Node

namespace Tree

/-- The kinds of node that name the variable that they bind. -/
def bindingKinds : List String := ["identifier", "shorthand_property_identifier_pattern"]

variable (t : Tree)

/-- A node names a variable where it stands in a binding position. -/
def IsBindingIdentifier (n : Node) : Prop := t.kind n ∈ bindingKinds

/-- The kind of a node is looked up in a finite list. -/
instance (n : Node) : Decidable (t.IsBindingIdentifier n) :=
  inferInstanceAs (Decidable (_ ∈ _))

/-- The parts of a pattern that bind: the value of a pair, the left side of a default, the pattern
of a parameter, and every named part of an object, array or rest pattern. -/
def boundParts (n : Node) : List Node :=
  if t.kind n = "pair_pattern" then (t.childByField? n "value").toList
  else if t.kind n ∈ ["assignment_pattern", "object_assignment_pattern"] then
    (t.childByField? n "left").toList
  else if t.kind n ∈ ["required_parameter", "optional_parameter"] then
    (t.childByField? n "pattern").toList
  else if t.kind n ∈ ["object_pattern", "array_pattern", "rest_pattern"] then t.namedChildren n
  else []

/-- The identifiers that a pattern binds, looked for through so many levels. -/
def boundWithin : Nat → Node → List Node
  | 0, _ => []
  | levels + 1, n =>
      if t.IsBindingIdentifier n then [n] else (t.boundParts n).flatMap (boundWithin levels)

/-- The identifiers that a pattern binds, in pre-order. A tree is nowhere deeper than it has nodes,
so the levels suffice. -/
def boundIdentifiers (n : Node) : List Node := t.boundWithin t.size n

/-- The identifiers that an optional pattern binds; no pattern binds none. -/
def boundIdentifiersIn (pattern : Option Node) : List Node :=
  pattern.elim [] t.boundIdentifiers

/-- Visit the node on top of the stack: an identifier is found, and any other node makes way for its
binding parts, which are pushed from the last to the first. -/
def visit (w : PatternWalk) : PatternWalk :=
  match w.stack with
  | [] => w
  | n :: rest =>
      if t.IsBindingIdentifier n then ⟨rest, w.found ++ [n]⟩
      else ⟨(t.boundParts n).reverse.foldl (fun stack q => q :: stack) rest, w.found⟩

end Tree

end Excise
