import Excise.Syntax.Tree
import Excise.Table

/-!
# Removal plans

A plan says what should happen to some nodes of a tree: delete a statement, remove an item of a
list, or put a text in the place of an expression. Each node stands in at most one of its three
tables, and a stronger entry displaces a weaker one: deletion, then item removal, then replacement.
`Plan.record` adds an entry. The tables keep the order in which nodes came in, and an entry that is
made again keeps its place.
-/

namespace Excise

/-- One thing to do to a node. -/
inductive Entry where
  | delete (node : Node)
  | removeItem (node : Node)
  | replace (node : Node) (text : String)
deriving DecidableEq

/-- The node that an entry is about. -/
def Entry.node : Entry → Node
  | .delete n => n
  | .removeItem n => n
  | .replace n _ => n

/-- Statements to delete, items to remove from their lists, and expressions to replace with a text,
each table in the order in which its nodes came in. -/
structure Plan where
  deletions : List Node
  items : List Node
  replacements : Table Node String
deriving DecidableEq

namespace Plan

/-- The plan that does nothing. -/
def empty : Plan := ⟨[], [], []⟩

/-- Add a node at the end of a table, unless it is there. -/
def insertNode (table : List Node) (n : Node) : List Node :=
  if n ∈ table then table else table ++ [n]

variable (p : Plan)

/-- Add an entry. A deletion displaces the node's other entries; an item removal displaces a
replacement and yields to a deletion; a replacement yields to both. -/
def record : Entry → Plan
  | .delete n => ⟨insertNode p.deletions n, p.items.filter (· ≠ n), p.replacements.erase n⟩
  | .removeItem n =>
      if n ∈ p.deletions then p
      else ⟨p.deletions, insertNode p.items n, p.replacements.erase n⟩
  | .replace n text =>
      if n ∈ p.deletions ∨ n ∈ p.items then p
      else ⟨p.deletions, p.items, p.replacements.set n text⟩

/-- Add the entry if there is one. -/
def recordOptional (entry : Option Entry) : Plan := entry.elim p p.record

/-- Add entries in order. -/
def recordAll (entries : List Entry) : Plan := entries.foldl record p

/-- The number of nodes that something is to happen to. -/
def size : Nat := p.deletions.length + p.items.length + p.replacements.length

/-- The plan does nothing. -/
def IsEmpty : Prop := p.size = 0

/-- The size is compared. -/
instance : Decidable p.IsEmpty := inferInstanceAs (Decidable (_ = 0))

end Plan

end Excise
