/-!
# Shortest decimals

A real number of a document is a binary floating-point number of 64 bits. `Real.ofDecimal` rounds a
decimal to the nearest of them and keeps it by the fewest decimal digits that read back to it, the
nearest such digits to its exact value. The digits are found by exact arithmetic: on the grid of one
digit, two digits and so on, the two neighbours of the value are compared with the interval of
numbers that round to it.
-/

namespace Excise.Decimal

/-- A real number: a decimal without trailing zeros, or one of the values past all decimals. -/
inductive Real where
  | finite (negative : Bool) (digits : Nat) (exponent : Int)
  | infinite (negative : Bool)
  | undefined
deriving DecidableEq

/-- A positive binary floating-point number, `significand · 2 ^ exponent`. It is `narrow` if the
next number below it is half as far away as the next one above. -/
structure Binary where
  significand : Nat
  exponent : Int
  narrow : Bool

namespace Binary

/-- The number of the given exponent and fraction fields. -/
def ofFields (exponent fraction : Nat) : Binary :=
  if exponent = 0 then ⟨fraction, -1074, false⟩
  else ⟨Nat.pow 2 52 + fraction, (exponent : Int) - 1075, fraction = 0 ∧ 1 < exponent⟩

variable (x : Binary)

/-- A natural number of quarters of the last binary place, as a numerator beside `decimal`. -/
def quarters (n : Nat) (grid : Int) : Nat :=
  n * Nat.pow 2 (x.exponent - 2).toNat * Nat.pow 10 (-grid).toNat

/-- A number of steps of the decimal grid, as a numerator beside `quarters`. -/
def decimal (n : Nat) (grid : Int) : Nat :=
  n * Nat.pow 10 grid.toNat * Nat.pow 2 (2 - x.exponent).toNat

/-- The decimal `n · 10 ^ grid` rounds to the number: it lies between the midpoints to the
neighbours, or on one of them where the significand is even. -/
def ReadsBack (n : Nat) (grid : Int) : Prop :=
  let low := x.quarters (4 * x.significand - if x.narrow then 1 else 2) grid
  let high := x.quarters (4 * x.significand + 2) grid
  if x.significand % 2 = 0 then low ≤ x.decimal n grid ∧ x.decimal n grid ≤ high
  else low < x.decimal n grid ∧ x.decimal n grid < high

/-- The comparisons are of natural numbers. -/
instance (n : Nat) (grid : Int) : Decidable (x.ReadsBack n grid) := by
  unfold ReadsBack
  infer_instance

/-- The number of decimal places before the point: the least scale above the number. -/
def scale : Int :=
  ((((List.range 700).map fun (i : Nat) => (i : Int) - 350).find? fun k =>
    x.quarters (4 * x.significand) k < x.decimal 1 k).getD 350)

/-- The decimal of one grid that reads back, the nearer if both neighbours do, and the even one if
they are equally near. -/
def onGrid? (grid : Int) : Option Nat :=
  let value := x.quarters (4 * x.significand) grid
  let below := value / x.decimal 1 grid
  let sum := x.decimal (2 * below + 1) grid
  if x.ReadsBack below grid ∧ x.ReadsBack (below + 1) grid then
    if 2 * value < sum ∨ 2 * value = sum ∧ below % 2 = 0 then some below else some (below + 1)
  else if x.ReadsBack below grid then some below
  else if x.ReadsBack (below + 1) grid then some (below + 1)
  else none

end Binary

/-- The digits without trailing zeros, which go into the exponent; at most so many are taken off. -/
def stripZeros : Nat → Nat → Int → Nat × Int
  | 0, digits, exponent => (digits, exponent)
  | limit + 1, digits, exponent =>
      if digits ≠ 0 ∧ digits % 10 = 0 then stripZeros limit (digits / 10) (exponent + 1)
      else (digits, exponent)

/-- The fewest digits that read back to a positive number, with their exponent. Seventeen always
suffice. -/
def Binary.shortest (x : Binary) : Nat × Int :=
  let grids := (List.range 17).map fun (n : Nat) => x.scale - (n + 1)
  match grids.findSome? fun grid => (x.onGrid? grid).map fun digits => (digits, grid) with
  | some (digits, grid) => stripZeros 20 digits grid
  | none => (0, 0)

/-- The real number with the given bits. -/
def Real.ofBits (bits : Nat) : Real :=
  let negative : Bool := bits / Nat.pow 2 63 % 2 = 1
  let exponent := bits / Nat.pow 2 52 % Nat.pow 2 11
  let fraction := bits % Nat.pow 2 52
  if exponent = 2047 then if fraction = 0 then .infinite negative else .undefined
  else if exponent = 0 ∧ fraction = 0 then .finite negative 0 0
  else
    let (digits, grid) := (Binary.ofFields exponent fraction).shortest
    .finite negative digits grid

/-- The real number nearest to `± digits · 10 ^ exponent`. Decimals far out of range are settled
without computing the power. -/
def Real.ofDecimal (negative : Bool) (digits : Nat) (exponent : Int) : Real :=
  let places : Int := (Nat.toDigits 10 digits).length + exponent
  if digits = 0 ∨ places < -400 then .finite negative 0 0
  else if 400 < places then .infinite negative
  else
    let x := OfScientific.ofScientific digits (exponent < 0 : Bool) exponent.natAbs
    let magnitude := Real.ofBits (Float.toBits x).toNat
    match magnitude with
    | .finite _ digits exponent => .finite negative digits exponent
    | .infinite _ => .infinite negative
    | .undefined => .undefined

/-- The number is zero. -/
def Real.IsZero : Real → Prop
  | .finite _ digits _ => digits = 0
  | _ => False

/-- A digit is compared. -/
instance (r : Real) : Decidable r.IsZero :=
  match r with
  | .finite _ _ _ => inferInstanceAs (Decidable (_ = _))
  | .infinite _ => inferInstanceAs (Decidable False)
  | .undefined => inferInstanceAs (Decidable False)

end Excise.Decimal
