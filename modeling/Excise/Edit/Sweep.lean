import Excise.Edit.Basic

/-!
# Disjoint edits

Edits may nest and overlap. `sweep` goes through them from left to right, longer ranges first, and
keeps a list of disjoint ones: an edit inside the last one kept is dropped, since its node went with
the node around it; an edit that overlaps it joins it if both only delete, and is dropped otherwise.
-/

namespace Excise

/-- An edit that is not carried out, and why: it lies inside another, or overlaps one. -/
inductive EditEvent where
  | detached (kind : EditKind) (start : Nat)
  | overlapping (kind : EditKind) (start : Nat) (previous : EditKind)
deriving DecidableEq

/-- The text of a report. -/
def EditEvent.message : EditEvent → String
  | .detached kind start => s!"skipping {kind.text} edit at {start}: already detached"
  | .overlapping kind start previous =>
      s!"skipping {kind.text} edit at {start}: overlaps {previous.text} edit"

/-- The edits to carry out, and a report on each that is not. -/
structure Sweep where
  kept : List Edit
  log : List EditEvent
deriving DecidableEq

/-- The order in which edits are examined: by start, and of one start the longest first. -/
def Edit.Before (a b : Edit) : Prop := a.start < b.start ∨ a.start = b.start ∧ b.stop ≤ a.stop

/-- Starts and ends are compared. -/
instance (a b : Edit) : Decidable (a.Before b) := inferInstanceAs (Decidable (_ ∨ _))

/-- The edit as it is after it took in one that reaches beyond it. -/
def Edit.join (a b : Edit) : Edit := { a with stop := b.stop, count := a.count + b.count }

/-- Both edits only delete. -/
def Edit.BothDelete (a b : Edit) : Prop := a.text = [] ∧ b.text = []

/-- The texts are compared with the empty one. -/
instance (a b : Edit) : Decidable (a.BothDelete b) := inferInstanceAs (Decidable (_ ∧ _))

/-- Go through edits in order, `last` being the last one kept. -/
def sweepFrom (last : Edit) : List Edit → Sweep
  | [] => ⟨[last], []⟩
  | e :: rest =>
      if last.stop ≤ e.start then
        let s := sweepFrom e rest
        { s with kept := last :: s.kept }
      else if e.stop ≤ last.stop then
        let s := sweepFrom last rest
        { s with log := .detached e.kind e.start :: s.log }
      else if last.BothDelete e then sweepFrom (last.join e) rest
      else
        let s := sweepFrom last rest
        { s with log := .overlapping e.kind e.start last.kind :: s.log }

/-- Go through edits that are in order. -/
def sweepSorted : List Edit → Sweep
  | [] => ⟨[], []⟩
  | e :: rest => sweepFrom e rest

/-- The disjoint edits to carry out for a list of edits. -/
def sweep (edits : List Edit) : Sweep := sweepSorted (edits.mergeSort fun a b => a.Before b)

end Excise
