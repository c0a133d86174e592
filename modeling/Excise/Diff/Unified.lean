import Excise.Diff.Matching
import Excise.Text.Newline

/-!
# Unified differences

`unified` shows how a text became another: hunks of lines that went, marked with a minus, lines that
came, marked with a plus, and up to three lines of context around them. Lines keep their ends, so a
last line without one runs into what follows it. Equal texts have no difference at all.
-/

namespace Excise.Diff

/-- A stretch of both texts that is equal in them, or differs. -/
structure Stretch where
  equal : Bool
  window : Window
deriving DecidableEq

/-- The stretches that runs of equal lines divide two texts into, from given positions on. -/
def stretchesFrom (leftSize rightSize : Nat) : Nat → Nat → List Run → List Stretch
  | i, j, [] =>
      if i < leftSize ∨ j < rightSize then [⟨false, ⟨i, leftSize, j, rightSize⟩⟩] else []
  | i, j, run :: rest =>
      (if i < run.left ∨ j < run.right then [⟨false, ⟨i, run.left, j, run.right⟩⟩] else []) ++
        ⟨true, ⟨run.left, run.left + run.size, run.right, run.right + run.size⟩⟩ ::
        stretchesFrom leftSize rightSize (run.left + run.size) (run.right + run.size) rest

/-- The number of equal lines shown around what differs. -/
def contextSize : Nat := 3

/-- The last lines of an equal stretch. -/
def Window.lastLines (w : Window) : Window :=
  ⟨max w.leftFrom (w.leftTo - contextSize), w.leftTo,
    max w.rightFrom (w.rightTo - contextSize), w.rightTo⟩

/-- The first lines of an equal stretch. -/
def Window.firstLines (w : Window) : Window :=
  ⟨w.leftFrom, min w.leftTo (w.leftFrom + contextSize),
    w.rightFrom, min w.rightTo (w.rightFrom + contextSize)⟩

/-- Shorten an equal stretch at the beginning to the context of what follows. -/
def trimFirst : List Stretch → List Stretch
  | [] => []
  | s :: rest => (if s.equal then ⟨true, s.window.lastLines⟩ else s) :: rest

/-- Shorten an equal stretch at the end to the context of what comes before. -/
def trimLast : List Stretch → List Stretch
  | [] => []
  | [s] => [if s.equal then ⟨true, s.window.firstLines⟩ else s]
  | s :: rest => s :: trimLast rest

/-- Divide stretches into hunks, given the current hunk so far in reverse: an equal stretch longer
than the context on both of its sides ends one and begins the next. -/
def hunksFrom (hunk : List Stretch) : List Stretch → List (List Stretch)
  | [] => [hunk.reverse]
  | s :: rest =>
      if s.equal ∧ 2 * contextSize < s.window.leftTo - s.window.leftFrom then
        (⟨true, s.window.firstLines⟩ :: hunk).reverse ::
          hunksFrom [⟨true, s.window.lastLines⟩] rest
      else hunksFrom (s :: hunk) rest

/-- The hunks of two texts: those that hold a difference. -/
def hunks (left right : Array String) : List (List Stretch) :=
  let stretches := stretchesFrom left.size right.size 0 0 (matchingRuns left right)
  (hunksFrom [] (trimLast (trimFirst stretches))).filter fun hunk => ∃ s ∈ hunk, ¬ s.equal

/-- The range of lines of a hunk in its heading: the first line and the number of lines, or the line
before it if there are none, and the line alone if there is one. -/
def rangeText (start stop : Nat) : String :=
  if stop - start = 1 then s!"{start + 1}"
  else if stop ≤ start then s!"{start},0"
  else s!"{start + 1},{stop - start}"

/-- The heading of a hunk. -/
def heading (hunk : List Stretch) : String :=
  match hunk.head?, hunk.getLast? with
  | some first, some last =>
      let old := rangeText first.window.leftFrom last.window.leftTo
      let new := rangeText first.window.rightFrom last.window.rightTo
      s!"@@ -{old} +{new} @@\n"
  | _, _ => ""

/-- Lines with a mark in front of each. -/
def marked (mark : String) (lines : List String) : String :=
  String.join (lines.map fun line => mark ++ line)

/-- The lines of a stretch. -/
def stretchText (left right : Array String) (s : Stretch) : String :=
  let old := leftLines left s.window.leftFrom s.window.leftTo
  let new := leftLines right s.window.rightFrom s.window.rightTo
  if s.equal then marked " " old else marked "-" old ++ marked "+" new

/-- The lines of a hunk under its heading. -/
def hunkText (left right : Array String) (hunk : List Stretch) : String :=
  heading hunk ++ String.join (hunk.map (stretchText left right))

/-- The difference of two texts under the names of their files; nothing if they are equal. -/
def unified (oldName newName before after : String) : String :=
  let left := (Text.splitLines before).toArray
  let right := (Text.splitLines after).toArray
  match hunks left right with
  | [] => ""
  | hunks => s!"--- {oldName}\n+++ {newName}\n" ++ String.join (hunks.map (hunkText left right))

end Excise.Diff
