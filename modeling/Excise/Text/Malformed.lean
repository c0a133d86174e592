import Excise.Text.Bytes
import Excise.Text.Quoted

/-!
# Bytes that are not UTF-8

A character is encoded by a leading byte, which says how many bytes follow and in which ranges they
lie (`Bytes.following?`). `Bytes.fault?` looks for the first place where bytes are no such sequence:
a byte that cannot lead, a byte that cannot follow, or the end of the bytes within a sequence. A
fault spans the bytes of the sequence that were read before it. `Bytes.decode` gives the text of
bytes or their first fault.
-/

namespace Excise

/-- What is wrong with a sequence of bytes. -/
inductive FaultKind where
  | invalidStart
  | invalidContinuation
  | endOfData
deriving DecidableEq, Inhabited

/-- The words for what is wrong. -/
def FaultKind.text : FaultKind → String
  | .invalidStart => "invalid start byte"
  | .invalidContinuation => "invalid continuation byte"
  | .endOfData => "unexpected end of data"

/-- A sequence that is not UTF-8: where it begins, its leading byte, how many bytes it spans, and
what is wrong. -/
structure Fault where
  position : Nat
  lead : Nat
  count : Nat
  kind : FaultKind
deriving DecidableEq, Inhabited

namespace Fault

/-- The bytes of a fault in words. -/
def span (f : Fault) : String :=
  if f.count = 1 then
    s!"byte 0x{String.ofList (Text.hexDigits 2 f.lead)} in position {f.position}"
  else s!"bytes in position {f.position}-{f.position + f.count - 1}"

/-- The message of a fault. -/
def message (f : Fault) : String := s!"'utf-8' codec can't decode {f.span}: {f.kind.text}"

end Fault

namespace Bytes

/-- The range of most bytes that follow a leading byte. -/
def tailRange : Nat × Nat := (0x80, 0xBF)

/-- The ranges of the bytes that follow a byte, if it can lead a sequence. They leave out sequences
that are longer than need be, surrogates, and what lies past the last code point. -/
def following? (lead : Nat) : Option (List (Nat × Nat)) :=
  if lead < 0x80 then some []
  else if lead < 0xC2 then none
  else if lead < 0xE0 then some [tailRange]
  else if lead = 0xE0 then some [(0xA0, 0xBF), tailRange]
  else if lead = 0xED then some [(0x80, 0x9F), tailRange]
  else if lead < 0xF0 then some [tailRange, tailRange]
  else if lead = 0xF0 then some [(0x90, 0xBF), tailRange, tailRange]
  else if lead < 0xF4 then some [tailRange, tailRange, tailRange]
  else if lead = 0xF4 then some [(0x80, 0x8F), tailRange, tailRange]
  else none

/-- The first fault, given the position, the leading byte of the sequence, how many of its bytes
were read, and the ranges of those that must follow. -/
def faultFrom (position lead count : Nat) : List (Nat × Nat) → Bytes → Option Fault
  | [], [] => none
  | _ :: _, [] => some ⟨position - count, lead, count, .endOfData⟩
  | range :: ranges, b :: rest =>
      if range.1 ≤ b.toNat ∧ b.toNat ≤ range.2 then
        faultFrom (position + 1) lead (count + 1) ranges rest
      else some ⟨position - count, lead, count, .invalidContinuation⟩
  | [], b :: rest =>
      match following? b.toNat with
      | some ranges => faultFrom (position + 1) b.toNat 1 ranges rest
      | none => some ⟨position, b.toNat, 1, .invalidStart⟩

/-- The first fault of bytes that are not UTF-8. -/
def fault? (bytes : Bytes) : Option Fault := faultFrom 0 0 0 [] bytes

/-- The text that bytes encode, or their first fault. -/
def decode (bytes : Bytes) : Except Fault String :=
  match text? bytes with
  | some s => .ok s
  | none => .error ((fault? bytes).getD default)

end Bytes

end Excise
