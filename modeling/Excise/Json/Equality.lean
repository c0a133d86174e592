import Excise.Json.Value

/-!
# Equal values

Two values are equal if they say the same: numbers of any type are compared by value, with true as
one and false as zero, and objects without regard to the order of their fields (`Json.same`). An
undefined number is equal to nothing, itself included.
-/

namespace Excise

namespace Decimal.Real

/-- The real number of an integer. -/
def ofInt (i : Int) : Real :=
  let (digits, exponent) := stripZeros (Nat.toDigits 10 i.natAbs).length i.natAbs 0
  .finite (i < 0) digits exponent

/-- The numbers have the same value; the zeros do, whatever their sign. -/
def Equals (a b : Real) : Prop := a.IsZero ∧ b.IsZero ∨ a = b ∧ a ≠ .undefined

/-- The numbers are compared. -/
instance (a b : Real) : Decidable (a.Equals b) := inferInstanceAs (Decidable (_ ∨ _))

theorem Equals.symm {a b : Real} (h : a.Equals b) : b.Equals a := by
  rcases h with ⟨ha, hb⟩ | ⟨rfl, h⟩
  · exact .inl ⟨hb, ha⟩
  · exact .inr ⟨rfl, h⟩

theorem not_equals_undefined (a : Real) : ¬ a.Equals .undefined := by
  rintro (⟨-, h⟩ | ⟨rfl, h⟩)
  · exact h
  · exact h rfl

end Decimal.Real

namespace Json

/-- The number that a value counts as, if it is one. -/
def number? : Json → Option Decimal.Real
  | .bool b => some (.finite false b.toNat 0)
  | .int i => some (.ofInt i)
  | .real r => some r
  | _ => none

/-- Two numbers have the same value. -/
def sameNumber (x y : Json) : Bool :=
  match x.number?, y.number? with
  | some a, some b => a.Equals b
  | _, _ => false

mutual

/-- Two values say the same. -/
def same : Json → Json → Bool
  | .null, .null => true
  | .text s, .text t => s = t
  | .array xs, .array ys => sameItems xs ys
  | .object fs, .object gs => fs.length = gs.length && sameFields fs gs
  | x, y => sameNumber x y

/-- Two lists of values say the same, item by item. -/
def sameItems : List Json → List Json → Bool
  | [], [] => true
  | x :: xs, y :: ys => same x y && sameItems xs ys
  | _, _ => false

/-- Each field is the same in an object of other fields. -/
def sameFields : List (String × Json) → List (String × Json) → Bool
  | [], _ => true
  | (key, value) :: fields, others =>
      (match Table.get? others key with
        | some other => same value other
        | none => false) && sameFields fields others

end

/-- A text is the same as itself and as nothing else. -/
@[simp]
theorem same_text (s : String) (j : Json) : same (.text s) j = true ↔ j = .text s := by
  cases j <;> simp [same, sameNumber, number?, eq_comm]

end Json

end Excise
