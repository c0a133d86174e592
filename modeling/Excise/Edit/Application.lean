import Excise.Edit.Line
import Excise.Edit.Sweep
import Excise.Plan.Demand

/-!
# Carrying out a plan

`Plan.edits` turns the entries of a plan into edits of the source: cuts for the items of lists,
deletions of statements, and replacements of expressions. A list that loses all its items takes its
owning statement with it. `Plan.apply` sweeps the edits and carries out what is left.
-/

namespace Excise

/-- A source after a plan was carried out, with counts and reports. -/
structure Application where
  source : Bytes
  tally : Tally
  log : List EditEvent
deriving DecidableEq

namespace Tree

/-- The kinds of node whose children form a list of statements; elsewhere a statement fills a place
of its own. -/
def statementSequenceKinds : List String :=
  ["program", "statement_block", "switch_case", "switch_default"]

/-- The statement that does nothing. -/
def emptyStatement : Bytes := [0x3B]

variable (t : Tree)

/-- The edit that deletes a statement. One that fills a place of its own leaves the empty
statement. -/
def deleteStatement (n : Node) : Edit :=
  if ∃ p ∈ t.parent? n, t.kind p ∉ statementSequenceKinds then
    ⟨t.start n, t.stop n, emptyStatement, .statement, 1⟩
  else
    let extent := lineExtent t.source (t.start n) (t.stop n)
    ⟨extent.1, extent.2, [], .statement, 1⟩

/-- The edits that cut the marked items out of a list, of which at least one stays. An item before
one that stays goes up to the next item, with the comma between; the items after the last one that
stays go from its end, with the comma before. -/
def cutItems (marked : List Node) : List Node → List Edit
  | [] => []
  | item :: rest =>
      if item ∈ marked then
        if ∃ i ∈ rest, i ∉ marked then
          ⟨t.start item, (rest.head?.map t.start).getD 0, [], .item, 1⟩ :: cutItems marked rest
        else []
      else if rest ≠ [] ∧ ∀ i ∈ rest, i ∈ marked then
        [⟨t.stop item, (rest.getLast?.map t.stop).getD 0, [], .item, rest.length⟩]
      else cutItems marked rest

end Tree

/-- A list some items of which are marked for removal. -/
structure MarkedList where
  container : Node
  marked : List Node
deriving DecidableEq

namespace MarkedList

variable (t : Tree) (l : MarkedList)

/-- The items of the list: the named children of the kind of the first marked item. -/
def items : List Node :=
  l.marked.head?.elim [] fun n => t.namedChildrenOfKind l.container (t.kind n)

/-- All items are marked. -/
def IsFull : Prop := ∀ i ∈ l.items t, i ∈ l.marked

/-- The items are looked up one by one. -/
instance : Decidable (l.IsFull t) := inferInstanceAs (Decidable (∀ i ∈ l.items t, i ∈ l.marked))

end MarkedList

namespace Plan

variable (t : Tree) (p : Plan)

/-- The nodes with marked items, in the order of their first items. -/
def containers : List Node := (p.items.filterMap t.parent?).foldl insertNode []

/-- The lists with marked items. -/
def markedLists : List MarkedList :=
  (p.containers t).map fun c => ⟨c, p.items.filter fun i => t.parent? i = some c⟩

/-- The statements to delete: the plan's own, and those that own a list that loses all its items. -/
def statements : List Node :=
  (((p.markedLists t).filter fun l => l.IsFull t).map fun l => t.listOwner l.container).foldl
    insertNode p.deletions

/-- The edits that a plan asks for. -/
def edits : List Edit :=
  (((p.markedLists t).filter fun l => ¬ l.IsFull t).flatMap fun l =>
      t.cutItems l.marked (l.items t)) ++
    (p.statements t).map t.deleteStatement ++
    p.replacements.map fun e =>
      ⟨t.start e.1, t.stop e.1, Bytes.ofText e.2, .replacement, 1⟩

/-- Carry out a plan on the source of the tree. -/
def apply : Application :=
  let s := sweep (p.edits t)
  ⟨spliceAll t.source s.kept, .ofEdits s.kept, s.log⟩

end Plan

end Excise
