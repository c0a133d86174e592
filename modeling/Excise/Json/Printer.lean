import Excise.Json.Value
import Excise.Text.Quoted

/-!
# Printing JSON

Documents are printed with one item to a line and two spaces to a level (`Json.print`). Empty arrays
and objects stay on one line. Texts are written as they are, apart from quotes, backslashes and
control characters. Real numbers are written positionally unless their exponent is below −4 or above
15, and keep at least one decimal place there.
-/

namespace Excise.Json

/-- A character as it stands in a text of a document. -/
def writeChar (c : Char) : List Char :=
  match letterEscapes.lookup c with
  | some letter => ['\\', letter]
  | none =>
      if c.toNat < 0x20 then ['\\', 'u'] ++ Text.hexDigits 4 c.toNat else [c]

/-- A text between its quotes. -/
def writeText (s : String) : List Char := '\x22' :: (s.toList.flatMap writeChar ++ ['\x22'])

/-- An integer in decimal. -/
def writeInt (i : Int) : List Char :=
  (if i < 0 then ['-'] else []) ++ Nat.toDigits 10 i.natAbs

/-- Digits with the point after the first so many of them, with zeros where there are none. -/
def writePositional (digits : List Char) (point : Int) : List Char :=
  if point ≤ 0 then ['0', '.'] ++ List.replicate (-point).toNat '0' ++ digits
  else
    let whole := point.toNat
    digits.take whole ++ List.replicate (whole - digits.length) '0' ++ ['.'] ++
      if whole < digits.length then digits.drop whole else ['0']

/-- Digits with the point after the first and an exponent of at least two digits. -/
def writeScientific (digits : List Char) (exponent : Int) : List Char :=
  let power := Nat.toDigits 10 exponent.natAbs
  digits.take 1 ++ (if digits.length = 1 then [] else '.' :: digits.drop 1) ++
    ['e', if exponent < 0 then '-' else '+'] ++ List.replicate (2 - power.length) '0' ++ power

/-- A real number by its shortest digits. -/
def writeReal : Decimal.Real → List Char
  | .undefined => "NaN".toList
  | .infinite negative => (if negative then ['-'] else []) ++ "Infinity".toList
  | .finite negative n exponent =>
      let digits := Nat.toDigits 10 n
      let point := digits.length + exponent
      (if negative then ['-'] else []) ++
        if -4 < point ∧ point ≤ 16 then writePositional digits point
        else writeScientific digits (point - 1)

/-- The start of a line at a level. -/
def newLine (level : Nat) : List Char := '\n' :: List.replicate (2 * level) ' '

mutual

/-- A value at a level. -/
def write (level : Nat) : Json → List Char
  | .null => "null".toList
  | .bool b => if b then "true".toList else "false".toList
  | .int i => writeInt i
  | .real r => writeReal r
  | .text s => writeText s
  | .array [] => ['[', ']']
  | .array (item :: items) =>
      '[' :: newLine (level + 1) ++ write (level + 1) item ++ writeItems (level + 1) items ++
        newLine level ++ [']']
  | .object [] => ['\x7b', '\x7d']
  | .object ((key, value) :: fields) =>
      '\x7b' :: newLine (level + 1) ++ writeText key ++ [':', ' '] ++ write (level + 1) value ++
        writeFields (level + 1) fields ++ newLine level ++ ['\x7d']

/-- The items of an array after the first. -/
def writeItems (level : Nat) : List Json → List Char
  | [] => []
  | item :: items => ',' :: newLine level ++ write level item ++ writeItems level items

/-- The fields of an object after the first. -/
def writeFields (level : Nat) : List (String × Json) → List Char
  | [] => []
  | (key, value) :: fields =>
      ',' :: newLine level ++ writeText key ++ [':', ' '] ++ write level value ++
        writeFields level fields

end

/-- The text of a document. -/
def print (j : Json) : String := String.ofList (write 0 j)

end Excise.Json
