import Excise.Text.Bytes

/-!
# The line around a statement

Deleting a statement also takes blanks around it. One alone on its line takes the whole line, with
its terminator; one that opens a line shared with other code keeps the indentation and takes the
blanks after it; any other takes the blanks before it. `lineExtent` gives the range to delete.
-/

namespace Excise

/-- The byte is a space or a tab. -/
def IsBlankByte (b : UInt8) : Prop := b = Bytes.space ∨ b = Bytes.tab

/-- Two bytes are compared. -/
instance (b : UInt8) : Decidable (IsBlankByte b) := inferInstanceAs (Decidable (_ ∨ _))

/-- The byte ends a line. -/
def IsTerminatorByte (b : UInt8) : Prop := b = Bytes.carriageReturn ∨ b = Bytes.lineFeed

/-- Two bytes are compared. -/
instance (b : UInt8) : Decidable (IsTerminatorByte b) := inferInstanceAs (Decidable (_ ∨ _))

/-- The number of blanks at the front. -/
def blanksAtFront (b : Bytes) : Nat := (b.takeWhile IsBlankByte).length

/-- The number of blanks at the back. -/
def blanksAtBack (b : Bytes) : Nat := blanksAtFront b.reverse

/-- Blanks alone stand between the last line feed, or the beginning, and the end. -/
def EndsInIndentation (b : Bytes) : Prop :=
  ∀ c ∈ (b.reverse.dropWhile IsBlankByte).head?, c = Bytes.lineFeed

/-- The last byte that is no blank, if there is one, decides it. -/
instance (b : Bytes) : Decidable (EndsInIndentation b) :=
  inferInstanceAs (Decidable (∀ c ∈ (b.reverse.dropWhile IsBlankByte).head?, c = Bytes.lineFeed))

/-- Blanks alone stand between the front and the first line terminator, or the end. -/
def BeginsWithLineEnd (b : Bytes) : Prop :=
  ∀ c ∈ (b.dropWhile IsBlankByte).head?, IsTerminatorByte c

/-- The first byte that is no blank, if there is one, decides it. -/
instance (b : Bytes) : Decidable (BeginsWithLineEnd b) :=
  inferInstanceAs (Decidable (∀ c ∈ (b.dropWhile IsBlankByte).head?, IsTerminatorByte c))

/-- The length of the line terminator at the front, if there is one: a carriage return, a line feed,
or both in this order. -/
def terminatorLength : Bytes → Nat
  | [] => 0
  | c :: rest =>
      if c = Bytes.carriageReturn then if rest.head? = some Bytes.lineFeed then 2 else 1
      else if c = Bytes.lineFeed then 1
      else 0

/-- The range to delete for a statement at `start` up to `stop`. -/
def lineExtent (source : Bytes) (start stop : Nat) : Nat × Nat :=
  let before := source.take start
  let after := source.drop stop
  if EndsInIndentation before ∧ BeginsWithLineEnd after then
    (start - blanksAtBack before,
      stop + blanksAtFront after + terminatorLength (after.dropWhile IsBlankByte))
  else if EndsInIndentation before then (start, stop + blanksAtFront after)
  else (start - blanksAtBack before, stop)

end Excise
