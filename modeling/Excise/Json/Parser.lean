import Excise.Json.Value

/-!
# Reading JSON

`Json.parse` reads a document. Besides the standard's values it takes the words `NaN`, `Infinity`
and `-Infinity`. An integer may have so many digits and no more (`digitLimit`). Each reader returns
the value and what follows it, or the first reason why there is none (`ReadError`).
-/

namespace Excise.Json

/-- Why a document cannot be read. -/
inductive ReadError where
  | malformed
  | longInteger (digits : Nat)
deriving DecidableEq

/-- What was read, and what follows it. -/
abbrev ReadResult (α : Type) := Except ReadError (α × List Char)

/-- The most digits of an integer. -/
def digitLimit : Nat := 4300

/-- The message of a document that cannot be read. -/
def ReadError.message : ReadError → String
  | .malformed => "Malformed document"
  | .longInteger digits =>
      s!"Exceeds the limit ({digitLimit} digits) for integer string conversion: value has " ++
        s!"{digits} digits; use sys.set_int_max_str_digits() to increase the limit"

/-- Blanks between the parts of a document. -/
def IsSpace (c : Char) : Prop := c ∈ [' ', '\t', '\n', '\r']

/-- Four characters are compared. -/
instance (c : Char) : Decidable (IsSpace c) := inferInstanceAs (Decidable (_ ∈ _))

/-- What follows the blanks at the front. -/
def skipSpace (cs : List Char) : List Char := cs.dropWhile IsSpace

/-- The value of a hexadecimal digit. -/
def hexValue? (c : Char) : Option Nat :=
  if '0' ≤ c ∧ c ≤ '9' then some (c.toNat - 0x30)
  else if 'a' ≤ c ∧ c ≤ 'f' then some (c.toNat - 0x61 + 10)
  else if 'A' ≤ c ∧ c ≤ 'F' then some (c.toNat - 0x41 + 10)
  else none

/-- The value of four hexadecimal digits. -/
def hexValue4? (a b c d : Char) : Option Nat := do
  let a ← hexValue? a
  let b ← hexValue? b
  let c ← hexValue? c
  let d ← hexValue? d
  return a * 4096 + b * 256 + c * 16 + d

/-- The character of an escape of one letter. A slash may be escaped and need not be. -/
def escaped? (letter : Char) : Option Char :=
  if letter = '/' then some '/'
  else (letterEscapes.find? fun e => e.2 = letter).map (·.1)

/-- The code unit is the first of a pair. -/
def IsHighSurrogate (n : Nat) : Prop := 0xD800 ≤ n ∧ n < 0xDC00

/-- Numbers are compared. -/
instance (n : Nat) : Decidable (IsHighSurrogate n) := inferInstanceAs (Decidable (_ ∧ _))

/-- The code unit is the second of a pair. -/
def IsLowSurrogate (n : Nat) : Prop := 0xDC00 ≤ n ∧ n < 0xE000

/-- Numbers are compared. -/
instance (n : Nat) : Decidable (IsLowSurrogate n) := inferInstanceAs (Decidable (_ ∧ _))

/-- The character of a code unit that stands alone; half a pair has none. -/
def unitChar (n : Nat) : Char :=
  if IsHighSurrogate n ∨ IsLowSurrogate n then '\uFFFD' else Char.ofNat n

/-- The character of a pair of code units. -/
def pairChar (high low : Nat) : Char :=
  Char.ofNat (0x10000 + (high - 0xD800) * 0x400 + (low - 0xDC00))

/-- The characters of a text up to its closing quote, and what follows. -/
def readText : List Char → ReadResult (List Char)
  | [] => .error .malformed
  | '\\' :: 'u' :: a :: b :: c :: d :: '\\' :: 'u' :: e :: f :: g :: h :: rest =>
      match hexValue4? a b c d with
      | none => .error .malformed
      | some high =>
          match hexValue4? e f g h with
          | none => .error .malformed
          | some low =>
              if IsHighSurrogate high ∧ IsLowSurrogate low then
                (readText rest).map fun r => (pairChar high low :: r.1, r.2)
              else
                (readText ('\\' :: 'u' :: e :: f :: g :: h :: rest)).map fun r =>
                  (unitChar high :: r.1, r.2)
  | '\\' :: 'u' :: a :: b :: c :: d :: rest =>
      match hexValue4? a b c d with
      | none => .error .malformed
      | some unit => (readText rest).map fun r => (unitChar unit :: r.1, r.2)
  | '\\' :: c :: rest =>
      match escaped? c with
      | none => .error .malformed
      | some char => (readText rest).map fun r => (char :: r.1, r.2)
  | c :: rest =>
      if c = '\x22' then .ok ([], rest)
      else if c = '\\' ∨ c.toNat < 0x20 then .error .malformed
      else (readText rest).map fun r => (c :: r.1, r.2)

/-- The character is a decimal digit. -/
def IsDigit (c : Char) : Prop := '0' ≤ c ∧ c ≤ '9'

/-- Characters are compared. -/
instance (c : Char) : Decidable (IsDigit c) := inferInstanceAs (Decidable (_ ∧ _))

/-- The number that decimal digits stand for. -/
def digitsValue (cs : List Char) : Nat := cs.foldl (fun n c => 10 * n + (c.toNat - 0x30)) 0

/-- The digits at the front, and what follows. -/
def readDigits (cs : List Char) : List Char × List Char :=
  (cs.takeWhile IsDigit, cs.dropWhile IsDigit)

/-- The digits after a point, if there are any, and what follows. -/
def readFraction (cs : List Char) : Option (List Char) × List Char :=
  match cs with
  | '.' :: rest =>
      let (digits, rest') := readDigits rest
      if digits = [] then (none, cs) else (some digits, rest')
  | _ => (none, cs)

/-- A sign at the front, as whether it is a minus, and what follows. -/
def readSign : List Char → Bool × List Char
  | '-' :: rest => (true, rest)
  | '+' :: rest => (false, rest)
  | cs => (false, cs)

/-- An exponent, if there is one, and what follows. -/
def readExponent (cs : List Char) : Option Int × List Char :=
  match cs with
  | c :: rest =>
      if c = 'e' ∨ c = 'E' then
        let (negative, rest') := readSign rest
        let (digits, rest'') := readDigits rest'
        if digits = [] then (none, cs)
        else (some (if negative then -(digitsValue digits : Int) else digitsValue digits), rest'')
      else (none, cs)
  | [] => (none, cs)

/-- The digits of a whole number, which has no zeros in front. -/
def readWhole (cs : List Char) : ReadResult (List Char) :=
  match cs with
  | [] => .error .malformed
  | c :: rest =>
      if c = '0' then .ok (['0'], rest)
      else if IsDigit c then .ok (readDigits cs)
      else .error .malformed

/-- A number after its sign: an integer, or a real number if it has a fraction or an exponent. -/
def readNumber (negative : Bool) (cs : List Char) : ReadResult Json :=
  match readWhole cs with
  | .error e => .error e
  | .ok (whole, rest) =>
      let (fraction, rest) := readFraction rest
      let (exponent, rest) := readExponent rest
      if fraction.isNone ∧ exponent.isNone then
        if digitLimit < whole.length then .error (.longInteger whole.length)
        else .ok (.int (if negative then -(digitsValue whole : Int) else digitsValue whole), rest)
      else
        let places := fraction.getD []
        .ok (.real (.ofDecimal negative (digitsValue (whole ++ places))
          (exponent.getD 0 - places.length)), rest)

/-- A value that holds no other, and what follows. -/
def readScalar : List Char → ReadResult Json
  | 'n' :: 'u' :: 'l' :: 'l' :: rest => .ok (.null, rest)
  | 't' :: 'r' :: 'u' :: 'e' :: rest => .ok (.bool true, rest)
  | 'f' :: 'a' :: 'l' :: 's' :: 'e' :: rest => .ok (.bool false, rest)
  | 'N' :: 'a' :: 'N' :: rest => .ok (.real .undefined, rest)
  | 'I' :: 'n' :: 'f' :: 'i' :: 'n' :: 'i' :: 't' :: 'y' :: rest =>
      .ok (.real (.infinite false), rest)
  | '-' :: 'I' :: 'n' :: 'f' :: 'i' :: 'n' :: 'i' :: 't' :: 'y' :: rest =>
      .ok (.real (.infinite true), rest)
  | '-' :: rest => readNumber true rest
  | '\x22' :: rest => (readText rest).map fun r => (.text (String.ofList r.1), r.2)
  | cs => readNumber false cs

/-- The key of a field with the colon after it, and what follows. -/
def readKey (cs : List Char) : ReadResult String :=
  match cs with
  | '\x22' :: rest =>
      match readText rest with
      | .error e => .error e
      | .ok (key, rest) =>
          match skipSpace rest with
          | ':' :: rest => .ok (String.ofList key, skipSpace rest)
          | _ => .error .malformed
  | _ => .error .malformed

mutual

/-- A value, and what follows. The first number bounds the steps. -/
def readValue : Nat → List Char → ReadResult Json
  | 0, _ => .error .malformed
  | limit + 1, '[' :: rest =>
      match skipSpace rest with
      | ']' :: rest => .ok (.array [], rest)
      | rest => (readItems limit rest).map fun r => (.array r.1, r.2)
  | limit + 1, '\x7b' :: rest =>
      match skipSpace rest with
      | '\x7d' :: rest => .ok (.object [], rest)
      | rest => (readFields limit rest).map fun r => (ofFields r.1, r.2)
  | _ + 1, cs => readScalar cs

/-- The items of an array up to its closing bracket, and what follows. -/
def readItems : Nat → List Char → ReadResult (List Json)
  | 0, _ => .error .malformed
  | limit + 1, cs =>
      match readValue limit cs with
      | .error e => .error e
      | .ok (item, rest) =>
          match skipSpace rest with
          | ',' :: rest => (readItems limit (skipSpace rest)).map fun r => (item :: r.1, r.2)
          | ']' :: rest => .ok ([item], rest)
          | _ => .error .malformed

/-- The fields of an object up to its closing brace, and what follows. -/
def readFields : Nat → List Char → ReadResult (List (String × Json))
  | 0, _ => .error .malformed
  | limit + 1, cs =>
      match readKey cs with
      | .error e => .error e
      | .ok (key, rest) =>
          match readValue limit rest with
          | .error e => .error e
          | .ok (value, rest) =>
              match skipSpace rest with
              | ',' :: rest =>
                  (readFields limit (skipSpace rest)).map fun r => ((key, value) :: r.1, r.2)
              | '\x7d' :: rest => .ok ([(key, value)], rest)
              | _ => .error .malformed

end

/-- Read a document. Every step takes a character, so twice the length bounds them. -/
def parse (s : String) : Except ReadError Json :=
  match readValue (2 * s.length + 2) (skipSpace s.toList) with
  | .error e => .error e
  | .ok (value, rest) => if skipSpace rest = [] then .ok value else .error .malformed

end Excise.Json
