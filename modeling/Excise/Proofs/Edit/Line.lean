import Excise.Edit.Line

/-!
# What a deleted line takes with it

The range to delete for a statement reaches over blanks before it and over blanks and one line
terminator after it (`line_extent_bounds`), so it holds the statement and bytes of these kinds alone
(`blank_before_statement`, `blank_after_statement`), all of them in the source
(`line_extent_le_length`).
-/

namespace Excise

variable {source b : Bytes} {c : UInt8} {start stop i : Nat}

/-- The byte at an offset is a space or a tab. -/
def IsBlankAt (source : Bytes) (i : Nat) : Prop := ∃ c ∈ source[i]?, IsBlankByte c

/-- The byte at an offset is a carriage return or a line feed. -/
def IsTerminatorAt (source : Bytes) (i : Nat) : Prop := ∃ c ∈ source[i]?, IsTerminatorByte c

/-- A blank at the front is one more. -/
@[simp]
theorem blanks_at_front_of_blank (h : IsBlankByte c) :
    blanksAtFront (c :: b) = blanksAtFront b + 1 := by
  unfold blanksAtFront
  rw [List.takeWhile_cons_of_pos (by simpa using h), List.length_cons]

/-- Another byte at the front ends the blanks. -/
@[simp]
theorem blanks_at_front_of_not_blank (h : ¬ IsBlankByte c) : blanksAtFront (c :: b) = 0 := by
  unfold blanksAtFront
  rw [List.takeWhile_cons_of_neg (by simpa using h), List.length_nil]

/-- The bytes up to the end of the blanks at the front are blanks. -/
theorem blank_of_lt_blanks_at_front (h : i < blanksAtFront b) : IsBlankAt b i := by
  induction b generalizing i with
  | nil => exact absurd h (Nat.not_lt_zero i)
  | cons c rest ih =>
      by_cases hc : IsBlankByte c
      · rw [blanks_at_front_of_blank hc] at h
        cases i with
        | zero => exact ⟨c, rfl, hc⟩
        | succ i => exact ih (Nat.lt_of_succ_lt_succ h)
      · rw [blanks_at_front_of_not_blank hc] at h
        exact absurd h (Nat.not_lt_zero i)

/-- The bytes from the beginning of the blanks at the back are blanks. -/
theorem blank_of_blanks_at_back (hi : i < b.length) (h : b.length - blanksAtBack b ≤ i) :
    IsBlankAt b i := by
  have hmirror : b.length - 1 - i < blanksAtFront b.reverse := by
    unfold blanksAtBack at h
    omega
  obtain ⟨c, hc, hblank⟩ := blank_of_lt_blanks_at_front hmirror
  refine ⟨c, ?_, hblank⟩
  rw [List.getElem?_reverse (by omega)] at hc
  have hindex : b.length - 1 - (b.length - 1 - i) = i := by omega
  rwa [hindex] at hc

/-- Taking the blanks off the front drops as many bytes as they are. -/
theorem drop_while_blank (b : Bytes) : b.dropWhile IsBlankByte = b.drop (blanksAtFront b) := by
  induction b with
  | nil => rfl
  | cons c rest ih =>
      by_cases hc : IsBlankByte c
      · rw [blanks_at_front_of_blank hc, List.dropWhile_cons_of_pos (by simpa using hc),
          ih, List.drop_succ_cons]
      · rw [blanks_at_front_of_not_blank hc, List.dropWhile_cons_of_neg (by simpa using hc),
          List.drop_zero]

/-- The bytes of a line terminator end a line. -/
theorem terminator_of_lt_terminator_length (h : i < terminatorLength b) : IsTerminatorAt b i := by
  cases b with
  | nil => exact absurd h (Nat.not_lt_zero i)
  | cons c rest =>
      rw [terminatorLength] at h
      split at h
      case isTrue hreturn =>
        cases i with
        | zero => exact ⟨c, rfl, .inl hreturn⟩
        | succ i =>
            split at h
            case isTrue hfeed =>
              obtain rfl : i = 0 := by omega
              refine ⟨Bytes.lineFeed, ?_, .inr rfl⟩
              rwa [List.head?_eq_getElem?] at hfeed
            case isFalse => omega
      case isFalse =>
        split at h
        case isTrue hfeed =>
          obtain rfl : i = 0 := by omega
          exact ⟨c, rfl, .inr hfeed⟩
        case isFalse => omega

/-- The blanks and the line terminator at the front. -/
def lineEndLength (b : Bytes) : Nat :=
  blanksAtFront b + terminatorLength (b.drop (blanksAtFront b))

/-- The blanks and the line terminator at the front are blanks and line terminators. -/
theorem blank_or_terminator_of_lt (h : i < lineEndLength b) :
    IsBlankAt b i ∨ IsTerminatorAt b i := by
  rcases Nat.lt_or_ge i (blanksAtFront b) with hblank | hpast
  · exact .inl (blank_of_lt_blanks_at_front hblank)
  · have hterminator : i - blanksAtFront b < terminatorLength (b.drop (blanksAtFront b)) := by
      unfold lineEndLength at h
      omega
    obtain ⟨c, hc, hends⟩ := terminator_of_lt_terminator_length hterminator
    refine .inr ⟨c, ?_, hends⟩
    rwa [List.getElem?_drop, Nat.add_sub_cancel' hpast] at hc

/-- The range to delete reaches over the blanks before the statement, and over the blanks and the
line terminator after it, at most. -/
theorem line_extent_bounds (source : Bytes) (start stop : Nat) :
    start - blanksAtBack (source.take start) ≤ (lineExtent source start stop).1 ∧
      (lineExtent source start stop).1 ≤ start ∧
      stop ≤ (lineExtent source start stop).2 ∧
      (lineExtent source start stop).2 ≤ stop + lineEndLength (source.drop stop) := by
  unfold lineExtent lineEndLength
  rw [← drop_while_blank]
  dsimp only
  split
  · refine ⟨?_, ?_, ?_, ?_⟩ <;> dsimp only <;> omega
  · split
    · refine ⟨?_, ?_, ?_, ?_⟩ <;> dsimp only <;> omega
    · refine ⟨?_, ?_, ?_, ?_⟩ <;> dsimp only <;> omega

/-- What the range takes before the statement is blank. -/
theorem blank_before_statement (hsource : start ≤ source.length)
    (h : (lineExtent source start stop).1 ≤ i) (hi : i < start) : IsBlankAt source i := by
  have hlength : (source.take start).length = start := by
    rw [List.length_take]
    omega
  have hbounds := (line_extent_bounds source start stop).1
  obtain ⟨c, hc, hblank⟩ := blank_of_blanks_at_back (b := source.take start) (i := i)
    (by omega) (by omega)
  rw [List.getElem?_take_of_lt hi] at hc
  exact ⟨c, hc, hblank⟩

/-- What the range takes after the statement is blank or ends the line. -/
theorem blank_after_statement (h : stop ≤ i) (hi : i < (lineExtent source start stop).2) :
    IsBlankAt source i ∨ IsTerminatorAt source i := by
  obtain ⟨-, -, -, hbounds⟩ := line_extent_bounds source start stop
  have hpart : i - stop < lineEndLength (source.drop stop) := by omega
  have hindex : (source.drop stop)[i - stop]? = source[i]? := by
    rw [List.getElem?_drop, Nat.add_sub_cancel' h]
  have hkind := blank_or_terminator_of_lt hpart
  unfold IsBlankAt IsTerminatorAt at hkind
  rwa [hindex] at hkind

/-- The range ends within the source. -/
theorem line_extent_le_length (h : stop ≤ source.length) :
    (lineExtent source start stop).2 ≤ source.length := by
  rcases Nat.lt_or_ge source.length (lineExtent source start stop).2 with hbeyond | hle
  · -- The byte at the end of the source would be in the range, but there is none.
    rcases blank_after_statement h hbeyond with ⟨c, hc, -⟩ | ⟨c, hc, -⟩ <;>
      simp at hc
  · exact hle

end Excise
