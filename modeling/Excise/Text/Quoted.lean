import Excise.Text.Printable

/-!
# Quoted text

`quote` shows a text between quotes, as messages do: in single quotes unless it holds a single quote
and no double quote. The quote itself and backslashes are escaped, and characters that are not
printable are written by their codes, in two, four or eight hexadecimal digits.
-/

namespace Excise.Text

/-- The hexadecimal digit of a number below sixteen. -/
def hexDigit (n : Nat) : Char :=
  if n < 10 then Char.ofNat (0x30 + n) else Char.ofNat (0x61 + (n - 10))

/-- The last hexadecimal digits of a number, so many of them. -/
def hexDigits : Nat → Nat → List Char
  | 0, _ => []
  | count + 1, n => hexDigits count (n / 16) ++ [hexDigit (n % 16)]

@[simp]
theorem length_hexDigits (count n : Nat) : (hexDigits count n).length = count := by
  induction count generalizing n with
  | zero => rfl
  | succ count ih => simp [hexDigits, ih]

/-- The control characters that are escaped by a letter. -/
def letterEscapes : List (Char × Char) := [('\n', 'n'), ('\r', 'r'), ('\t', 't')]

/-- A character by its code. -/
def codeEscape (c : Char) : List Char :=
  if c.toNat < 0x100 then ['\\', 'x'] ++ hexDigits 2 c.toNat
  else if c.toNat < 0x10000 then ['\\', 'u'] ++ hexDigits 4 c.toNat
  else ['\\', 'U'] ++ hexDigits 8 c.toNat

/-- A character as it stands between quotes. -/
def quotedChar (quote c : Char) : List Char :=
  match letterEscapes.lookup c with
  | some letter => ['\\', letter]
  | none =>
      if c ∈ [quote, '\\'] then ['\\', c]
      else if IsPrintable c then [c]
      else codeEscape c

/-- The quote that a text is put into. -/
def quoteMark (s : String) : Char :=
  if '\x27' ∈ s.toList ∧ '\x22' ∉ s.toList then '\x22' else '\x27'

/-- The text between quotes. -/
def quote (s : String) : String :=
  String.ofList
    (quoteMark s :: (s.toList.flatMap (quotedChar (quoteMark s)) ++ [quoteMark s]))

end Excise.Text
