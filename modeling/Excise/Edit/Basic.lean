import Excise.Text.Bytes

/-!
# Edits

An edit puts a text in the place of a range of bytes. `Edit.splice` carries out one edit, and
`spliceAll` a list of them from the back of the source to the front, so that the offsets of the
edits still to come stay valid. `Tally` counts what edits of each kind removed.
-/

namespace Excise

/-- What an edit does: it removes a statement, cuts items out of a list, or replaces an
expression. -/
inductive EditKind where
  | statement
  | item
  | replacement
deriving DecidableEq

/-- The word for a kind of edit. -/
def EditKind.text : EditKind → String
  | .statement => "statement"
  | .item => "item"
  | .replacement => "replace"

/-- A range of bytes, the text to put in its place, and how many things go with it. -/
structure Edit where
  start : Nat
  stop : Nat
  text : Bytes
  kind : EditKind
  count : Nat
deriving DecidableEq

/-- How many statements and list items were removed, and how many expressions replaced. -/
structure Tally where
  statements : Nat
  items : Nat
  replacements : Nat
deriving DecidableEq

namespace Tally

/-- Nothing was removed. -/
def zero : Tally := ⟨0, 0, 0⟩

/-- The number of things removed or replaced. -/
def total (s : Tally) : Nat := s.statements + s.items + s.replacements

/-- Count an edit that is carried out. -/
def add (s : Tally) (e : Edit) : Tally :=
  match e.kind with
  | .statement => { s with statements := s.statements + 1 }
  | .item => { s with items := s.items + e.count }
  | .replacement => { s with replacements := s.replacements + 1 }

/-- Count the edits that are carried out. -/
def ofEdits (edits : List Edit) : Tally := edits.foldl add zero

end Tally

/-- Put the text of an edit in the place of its range. A range that ends before it starts is
empty. -/
def Edit.splice (source : Bytes) (e : Edit) : Bytes :=
  source.take e.start ++ e.text ++ source.drop (max e.start e.stop)

/-- Carry out edits from the last start to the first; edits with one start keep their order. -/
def spliceAll (source : Bytes) (edits : List Edit) : Bytes :=
  (edits.mergeSort fun a b => b.start ≤ a.start).foldl Edit.splice source

end Excise
