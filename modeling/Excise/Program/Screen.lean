/-!
# Text on a screen

A screen shows tabs as spaces up to the next tab stop (`expandTabs`) and leaves out the controls
that would sound a bell or move the cursor. Messages have a tab stop at every eighth column
(`onScreen`), source code at every fourth (`codeOnScreen`).
-/

namespace Excise.Program

/-- Widen tabs, given the column. A line feed goes back to the first column. -/
def expandTabsFrom (size column : Nat) : List Char → List Char
  | [] => []
  | c :: rest =>
      if c = '\t' then
        let width := size - column % size
        List.replicate width ' ' ++ expandTabsFrom size (column + width) rest
      else c :: expandTabsFrom size (if c = '\n' then 0 else column + 1) rest

/-- Put spaces up to the next tab stop in the place of each tab. -/
def expandTabs (size : Nat) (s : List Char) : List Char := expandTabsFrom size 0 s

/-- The controls that a screen does not show: the bell, the backspace, and those that move to
another line or to the start of one. -/
def cursorControls : List Char := ['\x07', '\x08', '\x0B', '\x0C', '\r']

/-- The text without the controls that a screen does not show. -/
def withoutControls (s : List Char) : List Char := s.filter (· ∉ cursorControls)

/-- A message on a screen. -/
def onScreen (s : String) : String := String.ofList (expandTabs 8 (withoutControls s.toList))

/-- Source code on a screen. -/
def codeOnScreen (s : String) : String := String.ofList (withoutControls (expandTabs 4 s.toList))

theorem not_mem_expandTabs {size : Nat} (s : List Char) : '\t' ∉ expandTabs size s := by
  suffices h : ∀ column, '\t' ∉ expandTabsFrom size column s from h 0
  induction s with
  | nil => simp [expandTabsFrom]
  | cons c rest ih =>
    intro column
    by_cases h : c = '\t'
    · simp [expandTabsFrom, h, ih]
    · simp [expandTabsFrom, h, ih, Ne.symm h]

end Excise.Program
