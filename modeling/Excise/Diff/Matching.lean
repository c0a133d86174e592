/-!
# Matching lines

How two lists of lines correspond: `matchingRuns` gives the runs of equal lines that a difference
keeps, from the first to the last. It takes the longest run, the first of equally long ones, and
goes on before and after it. In a long text, lines that occur very often start no run; they only
extend one.
-/

namespace Excise.Diff

/-- A run of equal lines: where it begins on the left and on the right, and its length. -/
structure Run where
  left : Nat
  right : Nat
  size : Nat
deriving DecidableEq

/-- A stretch of lines on both sides, from the first bounds up to and without the second. -/
structure Window where
  leftFrom : Nat
  leftTo : Nat
  rightFrom : Nat
  rightTo : Nat
deriving DecidableEq

/-- The number of equal lines at the front. -/
def commonPrefix : List String → List String → Nat
  | a :: as, b :: bs => if a = b then commonPrefix as bs + 1 else 0
  | _, _ => 0

/-- The positions of each line that starts runs on the right. In a text of at least two hundred
lines a line that makes up more than about a hundredth of them starts none. -/
def positions (right : Array String) (line : String) : List Nat :=
  let all := (List.range right.size).filter fun j => right[j]? = some line
  if 200 ≤ right.size ∧ right.size / 100 + 1 < all.length then [] else all

variable (left right : Array String)

/-- The lines of the stretch on the left from `start` on. -/
def leftLines (start stop : Nat) : List String := (left.toList.take stop).drop start

/-- The lengths of the runs that end at the current line of the left, by where they end on the
right, and the longest run so far. -/
structure Scan where
  lengths : List (Nat × Nat)
  best : Run

/-- Extend the runs that ended at the line before by a position of the line `i` on the right. -/
def scanPosition (before : List (Nat × Nat)) (i : Nat) (scan : Scan) (j : Nat) : Scan :=
  let size := (if j = 0 then 0 else (before.lookup (j - 1)).getD 0) + 1
  ⟨(j, size) :: scan.lengths,
    if scan.best.size < size then ⟨i + 1 - size, j + 1 - size, size⟩ else scan.best⟩

/-- Go on to the line `i` of the left. -/
def scanLine (w : Window) (scan : Scan) (i : Nat) : Scan :=
  let here := (positions right (left[i]?.getD "")).filter fun j => w.rightFrom ≤ j ∧ j < w.rightTo
  here.foldl (scanPosition scan.lengths i) ⟨[], scan.best⟩

/-- The longest run in a window that some line starts; it has no lines if there is none. -/
def seedRun (w : Window) : Run :=
  ((List.range' w.leftFrom (w.leftTo - w.leftFrom)).foldl (scanLine left right w)
    ⟨[], ⟨w.leftFrom, w.rightFrom, 0⟩⟩).best

/-- The run with the equal lines right before it and right after it in a window. -/
def widen (w : Window) (run : Run) : Run :=
  let back := commonPrefix (leftLines left w.leftFrom run.left).reverse
    (leftLines right w.rightFrom run.right).reverse
  let ahead := commonPrefix (leftLines left (run.left + run.size) w.leftTo)
    (leftLines right (run.right + run.size) w.rightTo)
  ⟨run.left - back, run.right - back, back + run.size + ahead⟩

/-- The runs in a window. Every level of the search takes a run, so the shorter side bounds them. -/
def runsIn : Nat → Window → List Run
  | 0, _ => []
  | limit + 1, w =>
      let run := widen left right w (seedRun left right w)
      if run.size = 0 then []
      else
        (if w.leftFrom < run.left ∧ w.rightFrom < run.right then
          runsIn limit ⟨w.leftFrom, run.left, w.rightFrom, run.right⟩ else []) ++
        run ::
        (if run.left + run.size < w.leftTo ∧ run.right + run.size < w.rightTo then
          runsIn limit ⟨run.left + run.size, w.leftTo, run.right + run.size, w.rightTo⟩ else [])

/-- Join runs that follow each other without a gap on either side. -/
def joinRuns : List Run → List Run
  | [] => []
  | run :: rest =>
      match joinRuns rest with
      | [] => [run]
      | next :: others =>
          if run.left + run.size = next.left ∧ run.right + run.size = next.right then
            ⟨run.left, run.right, run.size + next.size⟩ :: others
          else run :: next :: others

/-- The runs of equal lines of two texts. -/
def matchingRuns : List Run :=
  joinRuns (runsIn left right (left.size + 1) ⟨0, left.size, 0, right.size⟩)

end Excise.Diff
