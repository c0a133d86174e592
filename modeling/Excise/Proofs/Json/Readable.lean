import Excise.Proofs.Json.RoundTrip
import Mathlib.Data.List.TakeWhile
import Mathlib.Tactic.Ring

/-!
# What was read can be read again

Whatever the reader takes can be printed and read once more (`readable_of_parse`): it keeps the last
of the fields of a key, it refuses an integer with too many digits, and the shortest digits of a
real number that is not zero are not zero either.
-/

namespace Excise

namespace Decimal

variable {x : Binary} {digits limit : Nat} {grid exponent : Int}

/-- Leaving out trailing zeros leaves a digit that is none. -/
theorem strip_zeros_ne (h : digits ≠ 0) : (stripZeros limit digits exponent).1 ≠ 0 := by
  induction limit generalizing digits exponent with
  | zero => exact h
  | succ limit ih =>
      unfold stripZeros
      split
      · rename_i hzero
        exact ih (by omega)
      · exact h

/-- Zero does not read back to a positive number. -/
theorem not_reads_back_zero (h : 0 < x.significand) : ¬ x.ReadsBack 0 grid := by
  have hpositive : ∀ n, 0 < n → 0 < x.quarters n grid := fun n hn =>
    Nat.mul_pos (Nat.mul_pos hn (Nat.pow_pos (by decide))) (Nat.pow_pos (by decide))
  have hzero : x.decimal 0 grid = 0 := by simp [Binary.decimal]
  have hlow : 0 < x.quarters (4 * x.significand - if x.narrow then 1 else 2) grid := by
    refine hpositive _ ?_
    split <;> omega
  intro hread
  simp only [Binary.ReadsBack, hzero] at hread
  by_cases heven : x.significand % 2 = 0
  · rw [if_pos heven] at hread
    exact absurd hread.1 (Nat.not_le.mpr hlow)
  · rw [if_neg heven] at hread
    exact Nat.not_lt_zero _ hread.1

/-- The digits found on a grid for a positive number are not zero. -/
theorem on_grid_ne (h : 0 < x.significand) (hdigits : x.onGrid? grid = some digits) :
    digits ≠ 0 := by
  rintro rfl
  have hzero : ¬ x.ReadsBack 0 grid := not_reads_back_zero h
  simp only [Binary.onGrid?] at hdigits
  split at hdigits
  · rename_i hboth
    split at hdigits
    · exact hzero (Option.some.inj hdigits ▸ hboth.1)
    · exact absurd (Option.some.inj hdigits) (Nat.succ_ne_zero _)
  · split at hdigits
    · rename_i hbelow
      exact hzero (Option.some.inj hdigits ▸ hbelow)
    · split at hdigits
      · exact absurd (Option.some.inj hdigits) (Nat.succ_ne_zero _)
      · exact nomatch hdigits

/-- The shortest digits of a positive number are zero only where there are none. -/
theorem shortest_reduced (h : 0 < x.significand) : x.shortest.1 = 0 → x.shortest.2 = 0 := by
  simp only [Binary.shortest]
  split
  · rename_i found digits grid hfound
    intro hzero
    obtain ⟨grid', -, hgrid⟩ := List.exists_of_findSome?_eq_some hfound
    obtain ⟨digits', hdigits, heq⟩ := Option.map_eq_some_iff.mp hgrid
    obtain ⟨rfl, rfl⟩ := Prod.mk.inj heq
    exact absurd hzero (strip_zeros_ne (on_grid_ne h hdigits))
  · exact fun _ => rfl

end Decimal

namespace Json

open Decimal

/-- The number with given bits is reduced. -/
theorem reduced_of_bits (bits : Nat) : IsReduced (Real.ofBits bits) := by
  simp only [Real.ofBits]
  split
  · split <;> trivial
  · split
    · exact fun _ => rfl
    · rename_i hinfinite hzero
      refine shortest_reduced ?_
      unfold Binary.ofFields
      split
      · rename_i hexponent
        exact Nat.pos_of_ne_zero fun hfraction => hzero ⟨hexponent, hfraction⟩
      · exact Nat.add_pos_left (Nat.pow_pos (by decide)) _

/-- The number of a decimal is reduced. -/
theorem reduced_of_decimal (negative : Bool) (digits : Nat) (exponent : Int) :
    IsReduced (Real.ofDecimal negative digits exponent) := by
  simp only [Real.ofDecimal]
  split
  · exact fun _ => rfl
  · split
    · trivial
    · split
      · rename_i hmagnitude
        have hreduced := reduced_of_bits
          (OfScientific.ofScientific digits (exponent < 0 : Bool) exponent.natAbs : Float).toBits.toNat
        rw [hmagnitude] at hreduced
        exact hreduced
      · trivial
      · trivial

/-- Digits stand for a number of no more digits. -/
theorem digits_value_lt {ds : List Char} (h : ∀ c ∈ ds, IsDigit c) :
    digitsValue ds < 10 ^ ds.length := by
  have hfold : ∀ (ds : List Char) (n : Nat), (∀ c ∈ ds, IsDigit c) →
      ds.foldl (fun n c => 10 * n + (c.toNat - 0x30)) n < (n + 1) * 10 ^ ds.length := by
    intro ds
    induction ds with
    | nil => simp
    | cons c ds ih =>
        intro n h
        have hc : c.toNat - 0x30 < 10 := by
          obtain ⟨-, hle⟩ := h c List.mem_cons_self
          have hnat : c.toNat ≤ '9'.toNat := Char.le_def.mp hle
          have hnine : '9'.toNat = 57 := rfl
          omega
        have hrest := ih (10 * n + (c.toNat - 0x30)) fun d hd => h d (List.mem_cons_of_mem _ hd)
        calc ds.foldl (fun n c => 10 * n + (c.toNat - 0x30)) (10 * n + (c.toNat - 0x30))
            < (10 * n + (c.toNat - 0x30) + 1) * 10 ^ ds.length := hrest
          _ ≤ (10 * (n + 1)) * 10 ^ ds.length := Nat.mul_le_mul_right _ (by omega)
          _ = (n + 1) * 10 ^ (c :: ds).length := by
              rw [List.length_cons, Nat.pow_succ]
              ring
  simpa [digitsValue] using hfold ds 0 h

/-- The digits of a whole number are digits, and at least one. -/
theorem whole_digits {cs whole rest : List Char} (h : readWhole cs = .ok (whole, rest)) :
    whole ≠ [] ∧ ∀ c ∈ whole, IsDigit c := by
  cases cs with
  | nil => cases h
  | cons c cs =>
      simp only [readWhole] at h
      split at h
      · obtain ⟨rfl, -⟩ := Prod.mk.inj (Except.ok.inj h)
        exact ⟨by simp, by simp [IsDigit]⟩
      · split at h
        · rename_i hdigit
          obtain ⟨rfl, -⟩ := Prod.mk.inj (Except.ok.inj h)
          refine ⟨by simp [hdigit], fun d hd => ?_⟩
          exact of_decide_eq_true (List.mem_takeWhile_imp (p := fun b => decide (IsDigit b)) hd)
        · cases h

/-- A number that was read can be read again. -/
theorem readable_of_number {negative : Bool} {cs rest : List Char} {j : Json}
    (h : readNumber negative cs = .ok (j, rest)) : j.IsReadable := by
  unfold readNumber at h
  split at h
  · exact nomatch h
  · rename_i whole rest' hwhole
    obtain ⟨hne, hdigits⟩ := whole_digits hwhole
    simp only at h
    split at h
    · split at h
      · exact nomatch h
      · rename_i hshort
        obtain ⟨rfl, -⟩ := Prod.mk.inj (Except.ok.inj h)
        have habs : (if negative then -(digitsValue whole : Int) else digitsValue whole).natAbs =
            digitsValue whole := by
          cases negative <;> simp
        have hlength : (Nat.toDigits 10 (digitsValue whole)).length ≤ whole.length :=
          (Nat.length_toDigits_le_iff (by decide) (List.length_pos_iff.mpr hne)).mpr
            (digits_value_lt hdigits)
        show (Nat.toDigits 10 _).length ≤ digitLimit
        rw [habs]
        exact hlength.trans (Nat.not_lt.mp hshort)
    · obtain ⟨rfl, -⟩ := Prod.mk.inj (Except.ok.inj h)
      exact reduced_of_decimal _ _ _

/-- What was read further on is there. -/
theorem map_eq_ok {α β : Type} {r : ReadResult α} {f : α × List Char → β × List Char}
    {result : β × List Char} (h : r.map f = .ok result) : ∃ a, r = .ok a ∧ f a = result := by
  cases r with
  | error e => exact nomatch h
  | ok a => exact ⟨a, rfl, Except.ok.inj h⟩

/-- A value that was read and holds no other can be read again. -/
theorem readable_of_scalar {cs rest : List Char} {j : Json}
    (h : readScalar cs = .ok (j, rest)) : j.IsReadable := by
  unfold readScalar at h
  split at h
  case h_7 => exact readable_of_number h
  case h_9 => exact readable_of_number h
  case h_8 =>
    obtain ⟨r, -, heq⟩ := map_eq_ok h
    obtain ⟨rfl, -⟩ := Prod.mk.inj heq
    trivial
  all_goals
    obtain ⟨rfl, -⟩ := Prod.mk.inj (Except.ok.inj h)
    trivial

/-- The object of fields that can be read again can be. -/
theorem readable_of_fields {fields : List (String × Json)} (h : FieldsReadable fields) :
    (ofFields fields).IsReadable := by
  obtain ⟨hnodup, hmem⟩ := Table.of_list_entries fields
  exact ⟨hnodup, fields_readable_iff.mpr
    fun field hfield => fields_readable_iff.mp h field (hmem field hfield)⟩

/-- What is read within a number of steps can be read again. -/
structure ReadsReadable (limit : Nat) : Prop where
  value : ∀ cs j rest, readValue limit cs = .ok (j, rest) → j.IsReadable
  items : ∀ cs items rest, readItems limit cs = .ok (items, rest) → AllReadable items
  fields : ∀ cs fields rest, readFields limit cs = .ok (fields, rest) → FieldsReadable fields

namespace ReadsReadable

variable {limit : Nat} {cs rest : List Char} (ih : ReadsReadable limit)

include ih

theorem next_value {j : Json} (h : readValue (limit + 1) cs = .ok (j, rest)) : j.IsReadable := by
  unfold readValue at h
  split at h
  case h_1 => contradiction
  case h_2 limit' rest' hlimit =>
    obtain rfl := Nat.succ.inj hlimit
    split at h
    · obtain ⟨rfl, -⟩ := Prod.mk.inj (Except.ok.inj h)
      trivial
    · obtain ⟨r, hread, heq⟩ := map_eq_ok h
      obtain ⟨rfl, -⟩ := Prod.mk.inj heq
      exact ih.items _ _ _ hread
  case h_3 limit' rest' hlimit =>
    obtain rfl := Nat.succ.inj hlimit
    split at h
    · obtain ⟨rfl, -⟩ := Prod.mk.inj (Except.ok.inj h)
      exact ⟨List.nodup_nil, trivial⟩
    · obtain ⟨r, hread, heq⟩ := map_eq_ok h
      obtain ⟨rfl, -⟩ := Prod.mk.inj heq
      exact readable_of_fields (ih.fields _ _ _ hread)
  case h_4 => exact readable_of_scalar h

theorem next_items {items : List Json} (h : readItems (limit + 1) cs = .ok (items, rest)) :
    AllReadable items := by
  unfold readItems at h
  cases hread : readValue limit cs with
  | error e =>
      simp only [hread] at h
      cases h
  | ok r =>
      simp only [hread] at h
      have hitem := ih.value _ _ _ hread
      split at h
      · obtain ⟨r', hread', heq⟩ := map_eq_ok h
        obtain ⟨rfl, -⟩ := Prod.mk.inj heq
        exact ⟨hitem, ih.items _ _ _ hread'⟩
      · obtain ⟨rfl, -⟩ := Prod.mk.inj (Except.ok.inj h)
        exact ⟨hitem, trivial⟩
      · cases h

theorem next_fields {fields : List (String × Json)}
    (h : readFields (limit + 1) cs = .ok (fields, rest)) : FieldsReadable fields := by
  unfold readFields at h
  cases hkey : readKey cs with
  | error e =>
      simp only [hkey] at h
      cases h
  | ok k =>
      cases hread : readValue limit k.2 with
      | error e =>
          simp only [hkey, hread] at h
          cases h
      | ok r =>
          simp only [hkey, hread] at h
          have hfield := ih.value _ _ _ hread
          split at h
          · obtain ⟨r', hread', heq⟩ := map_eq_ok h
            obtain ⟨rfl, -⟩ := Prod.mk.inj heq
            exact ⟨hfield, ih.fields _ _ _ hread'⟩
          · obtain ⟨rfl, -⟩ := Prod.mk.inj (Except.ok.inj h)
            exact ⟨hfield, trivial⟩
          · cases h

end ReadsReadable

/-- Whatever is read can be read again. -/
theorem reads_readable (limit : Nat) : ReadsReadable limit := by
  induction limit with
  | zero =>
      refine ⟨fun cs j rest h => ?_, fun cs items rest h => ?_, fun cs fields rest h => ?_⟩
      all_goals cases h
  | succ limit ih =>
      exact ⟨fun _ _ _ h => ih.next_value h, fun _ _ _ h => ih.next_items h,
        fun _ _ _ h => ih.next_fields h⟩

/-- A document that was read can be read again after it was printed. -/
theorem readable_of_parse {s : String} {j : Json} (h : parse s = .ok j) : j.IsReadable := by
  unfold parse at h
  cases hread : readValue (2 * s.length + 2) (skipSpace s.toList) with
  | error e =>
      rw [hread] at h
      exact nomatch h
  | ok r =>
      simp only [hread] at h
      split at h
      · obtain rfl := Except.ok.inj h
        exact (reads_readable _).value _ _ _ hread
      · exact nomatch h

end Json

end Excise
