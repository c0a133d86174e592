import Excise.Syntax.Tree

/-!
# Chains of uses

A value is used through a chain: calls of it, accesses to its members, and wrappers such as
parentheses that pass it on. `Tree.usageChain` climbs from a node as long as its parent is a link of
the chain.
-/

namespace Excise

/-- How a parent passes a value on: by calling it, by reading a member of it, or unchanged. -/
inductive Link where
  | call
  | access
  | wrapper
deriving DecidableEq

/-- The top of a chain of uses, with its links from the inside out. -/
structure Chain where
  top : Node
  links : List Link
deriving DecidableEq

/-- Whether a call calls the value itself or a member of it. -/
inductive CallStyle where
  | direct
  | method
deriving DecidableEq

namespace Chain

variable (c : Chain)

/-- The chain calls something on the way. -/
def Calls : Prop := Link.call ∈ c.links

/-- Membership in a list of links is decidable. -/
instance : Decidable c.Calls := inferInstanceAs (Decidable (_ ∈ _))

/-- The first link that is no wrapper. -/
def firstStep? : Option Link := c.links.find? (· ≠ Link.wrapper)

/-- A chain that begins with an access calls a member; any other calls the value itself. -/
def style : CallStyle := if c.firstStep? = some .access then .method else .direct

end Chain

namespace Tree

/-- The kinds of node whose value is that of their first named child. -/
def wrapperKinds : List String :=
  ["parenthesized_expression", "await_expression", "non_null_expression", "as_expression",
    "satisfies_expression"]

variable (t : Tree)

/-- How `parent` passes the value of `n` on, if it does. -/
def link? (n parent : Node) : Option Link :=
  if t.kind parent = "call_expression" ∧ t.FieldIs n parent "function" then some .call
  else if t.kind parent = "new_expression" ∧ t.FieldIs n parent "constructor" then some .call
  else if t.kind parent ∈ ["member_expression", "subscript_expression"] ∧
      t.FieldIs n parent "object" then some .access
  else if t.kind parent ∈ wrapperKinds ∧ (t.namedChildren parent).head? = some n then some .wrapper
  else none

/-- The chain that starts at `n`, given the nodes around `n`. -/
def chainThrough : Node → List Node → Chain
  | n, [] => ⟨n, []⟩
  | n, parent :: rest =>
      match t.link? n parent with
      | none => ⟨n, []⟩
      | some link =>
          let c := chainThrough parent rest
          ⟨c.top, link :: c.links⟩

/-- The chain of uses that starts at a node. -/
def usageChain (n : Node) : Chain := t.chainThrough n (t.ancestors n)

end Tree

end Excise
