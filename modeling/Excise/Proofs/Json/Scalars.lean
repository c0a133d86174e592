import Excise.Json.Parser
import Excise.Json.Printer
import Mathlib.Data.List.Basic

/-!
# Reading printed texts and numbers

A text, an integer or a real number that was printed is read again, whatever follows it in a printed
document (`Follows`). Texts (`read_text_write`) and integers (`read_int`) come back as they were. A
real number is printed by its shortest digits, which are read as some real number again
(`read_real`).
-/

namespace Excise.Json

variable {c : Char} {cs ds rest : List Char} {n : Nat}

/-! ## Texts -/

theorem hex_value_digit (h : n < 16) : hexValue? (Text.hexDigit n) = some n := by
  have hall : ∀ n < 16, hexValue? (Text.hexDigit n) = some n := by decide
  exact hall n h

/-- Four hexadecimal digits stand for the number that they were written for. -/
theorem hex_value_digits (h : n < 0x10000) : ∃ a b c d, Text.hexDigits 4 n = [a, b, c, d] ∧
    hexValue4? a b c d = some n := by
  refine ⟨_, _, _, _, rfl, ?_⟩
  have hlast : ∀ m, hexValue? (Text.hexDigit (m % 16)) = some (m % 16) :=
    fun m => hex_value_digit (Nat.mod_lt m (by decide))
  rw [hexValue4?, hlast, hlast, hlast, hlast]
  simp only [Option.bind_eq_bind, Option.bind_some, Option.pure_def, Option.some.injEq]
  omega

/-- Half of a pair of code units is past the control characters. -/
theorem not_high_of_control (h : n < 0x20) : ¬ IsHighSurrogate n := by
  unfold IsHighSurrogate
  omega

theorem unit_char_of_control (h : c.toNat < 0x20) : unitChar c.toNat = c := by
  have hunit : ¬ (IsHighSurrogate c.toNat ∨ IsLowSurrogate c.toNat) := by
    unfold IsHighSurrogate IsLowSurrogate
    omega
  rw [unitChar, if_neg hunit, Char.ofNat_toNat]

/-- A text that goes on with an escape of four digits that are none is malformed. -/
theorem read_text_bad_unit {a b c d : Char} (h : hexValue4? a b c d = none) :
    readText ('\\' :: 'u' :: a :: b :: c :: d :: rest) = .error .malformed := by
  by_cases hnext : ∃ e f g k rest', rest = '\\' :: 'u' :: e :: f :: g :: k :: rest'
  · obtain ⟨e, f, g, k, rest', rfl⟩ := hnext
    rw [readText]
    simp only [h]
  · rw [readText]
    · simp only [h]
    · intro e f g k rest' heq
      exact hnext ⟨e, f, g, k, rest', heq⟩

/-- The escape of a control character is read as that character. -/
theorem read_text_unit (h : c.toNat < 0x20) :
    readText ('\\' :: 'u' :: Text.hexDigits 4 c.toNat ++ rest) =
      (readText rest).map fun r => (c :: r.1, r.2) := by
  obtain ⟨x, y, z, w, hdigits, hvalue⟩ := hex_value_digits (n := c.toNat) (by omega)
  have hunit := unit_char_of_control h
  rw [hdigits]
  simp only [List.cons_append, List.nil_append]
  by_cases hnext : ∃ e f g k rest', rest = '\\' :: 'u' :: e :: f :: g :: k :: rest'
  · -- What follows is another escape, but the two are no pair.
    obtain ⟨e, f, g, k, rest', rfl⟩ := hnext
    rw [readText]
    simp only [hvalue]
    cases hlow : hexValue4? e f g k with
    | none => rw [read_text_bad_unit hlow]; rfl
    | some low => simp only [not_high_of_control h, false_and, if_false, hunit]
  · rw [readText]
    · simp only [hvalue, hunit]
    · intro e f g k rest' heq
      exact hnext ⟨e, f, g, k, rest', heq⟩

/-- The escape of a character by a letter is read as that character. -/
theorem read_text_letter {letter : Char} (h : (c, letter) ∈ letterEscapes) :
    readText ('\\' :: letter :: rest) = (readText rest).map fun r => (c :: r.1, r.2) := by
  have hletter : ∀ e ∈ letterEscapes, e.2 ≠ 'u' ∧ escaped? e.2 = some e.1 := by decide
  obtain ⟨hne, hescaped⟩ := hletter _ h
  rw [readText]
  · simp only [hescaped]
  · intro _ _ _ _ _ _ _ _ _ heq
    exact absurd heq hne
  · intro _ _ _ _ _ heq
    exact absurd heq hne

/-- A character that stands for itself is read as itself. -/
theorem read_text_plain (hquote : c ≠ '\x22') (hbackslash : c ≠ '\\')
    (hcontrol : ¬ c.toNat < 0x20) :
    readText (c :: rest) = (readText rest).map fun r => (c :: r.1, r.2) := by
  rw [readText]
  · rw [if_neg hquote, if_neg (by simp [hbackslash, hcontrol])]
  · intro _ _ _ _ _ _ _ _ _ heq
    exact absurd heq hbackslash
  · intro _ _ _ _ _ heq
    exact absurd heq hbackslash
  · intro _ _ heq
    exact absurd heq hbackslash

/-- A character is read as it was written. -/
theorem read_text_char (c : Char) (rest : List Char) :
    readText (writeChar c ++ rest) = (readText rest).map fun r => (c :: r.1, r.2) := by
  unfold writeChar
  cases hletter : letterEscapes.lookup c with
  | some letter =>
      obtain ⟨front, back, hentries, -⟩ := List.lookup_eq_some_iff.mp hletter
      exact read_text_letter (by simp [hentries])
  | none =>
      have hnone : ∀ e ∈ letterEscapes, c ≠ e.1 := by
        simpa [List.lookup_eq_none_iff] using hletter
      by_cases hcontrol : c.toNat < 0x20
      · simp only [hcontrol, if_true]
        exact read_text_unit hcontrol
      · simp only [hcontrol, if_false]
        exact read_text_plain (hnone ('\x22', '\x22') (by decide)) (hnone ('\\', '\\') (by decide))
          hcontrol

/-- A text is read as it was written. -/
theorem read_text_write (s : String) (rest : List Char) :
    readText (s.toList.flatMap writeChar ++ '\x22' :: rest) = .ok (s.toList, rest) := by
  induction s.toList with
  | nil => rw [List.flatMap_nil, List.nil_append, readText] <;> simp
  | cons c cs ih =>
      rw [List.flatMap_cons, List.append_assoc, read_text_char, ih]
      rfl

/-! ## Digits -/

/-- The number is not followed by a digit. -/
def EndsDigits (rest : List Char) : Prop := ∀ c ∈ rest.head?, ¬ IsDigit c

/-- Digits are read up to what follows them. -/
theorem read_digits (hdigits : ∀ c ∈ ds, IsDigit c) (hrest : EndsDigits rest) :
    readDigits (ds ++ rest) = (ds, rest) := by
  have hstop : rest.takeWhile IsDigit = [] ∧ rest.dropWhile IsDigit = rest := by
    cases rest with
    | nil => exact ⟨rfl, rfl⟩
    | cons c rest =>
        have hc : ¬ IsDigit c := hrest c rfl
        simp [hc]
  have hall : ∀ c ∈ ds, decide (IsDigit c) = true := fun c hc => decide_eq_true (hdigits c hc)
  rw [readDigits, List.takeWhile_append_of_pos hall, List.dropWhile_append_of_pos hall, hstop.1,
    hstop.2, List.append_nil]

theorem is_digit_of_is_digit (h : c.isDigit = true) : IsDigit c := by
  simpa [Char.isDigit, IsDigit, Char.le_def] using h

/-- A number is printed in digits. -/
theorem digits_of_number : ∀ c ∈ Nat.toDigits 10 n, IsDigit c :=
  fun _ hc => is_digit_of_is_digit (Nat.isDigit_of_mem_toDigits (by decide) (by decide) hc)

/-- Digits stand for the number that they were printed for. -/
theorem digits_value (n : Nat) : digitsValue (Nat.toDigits 10 n) = n :=
  Nat.ofDigitChars_ten_toDigits

/-- A positive number has no zeros in front. -/
theorem head_of_positive (h : 0 < n) :
    ∃ c cs, Nat.toDigits 10 n = c :: cs ∧ c ≠ '0' ∧ IsDigit c := by
  have hhead : ∃ c cs, Nat.toDigits 10 n = c :: cs ∧ c ≠ '0' := by
    induction n using Nat.strongRecOn with
    | ind n ih =>
        by_cases hsmall : n < 10
        · have hdigit : ∀ n < 10, 0 < n → Nat.digitChar n ≠ '0' := by decide
          exact ⟨_, [], Nat.toDigits_of_lt_base hsmall, hdigit n hsmall h⟩
        · obtain ⟨c, cs, hcs, hc⟩ := ih (n / 10) (by omega) (by omega)
          refine ⟨c, cs ++ [Nat.digitChar (n % 10)], ?_, hc⟩
          rw [Nat.toDigits_of_base_le (by decide) (by omega), hcs, List.cons_append]
  obtain ⟨c, cs, hcs, hc⟩ := hhead
  exact ⟨c, cs, hcs, hc, digits_of_number (n := n) c (by simp [hcs])⟩

/-! ## Numbers -/

/-- What follows a value in a printed document: nothing, a comma, or the end of the line. -/
def Follows (rest : List Char) : Prop := ∀ c ∈ rest.head?, c = ',' ∨ c = '\n'

theorem Follows.nil : Follows [] := nofun

theorem Follows.comma : Follows (',' :: rest) := by
  intro c hc
  exact .inl (Option.some.inj hc).symm

theorem Follows.line : Follows ('\n' :: rest) := by
  intro c hc
  exact .inr (Option.some.inj hc).symm

/-- What follows a value does not go on with a number. -/
theorem Follows.ends (h : Follows rest) : EndsDigits rest ∧ readFraction rest = (none, rest) ∧
    readExponent rest = (none, rest) := by
  cases rest with
  | nil => exact ⟨nofun, rfl, rfl⟩
  | cons c rest =>
      rcases h c rfl with rfl | rfl
      · refine ⟨?_, rfl, rfl⟩
        intro c hc
        obtain rfl := Option.some.inj hc
        decide
      · refine ⟨?_, rfl, rfl⟩
        intro c hc
        obtain rfl := Option.some.inj hc
        decide

/-- The digits of a whole number: a zero, or digits without zeros in front. -/
def IsWhole (whole : List Char) : Prop :=
  whole = ['0'] ∨ ∃ c cs, whole = c :: cs ∧ c ≠ '0' ∧ ∀ d ∈ whole, IsDigit d

theorem whole_of_number (n : Nat) : IsWhole (Nat.toDigits 10 n) := by
  cases n with
  | zero => exact .inl rfl
  | succ n =>
      obtain ⟨c, cs, hcs, hc, -⟩ := head_of_positive (Nat.succ_pos n)
      exact .inr ⟨c, cs, hcs, hc, digits_of_number⟩

/-- A whole number begins with a digit. -/
theorem IsWhole.head (h : IsWhole cs) : ∃ c rest, cs = c :: rest ∧ IsDigit c := by
  rcases h with rfl | ⟨c, rest, rfl, -, hdigits⟩
  · exact ⟨'0', [], rfl, by decide⟩
  · exact ⟨c, rest, rfl, hdigits c List.mem_cons_self⟩

theorem read_whole (h : IsWhole cs) (hrest : EndsDigits rest) :
    readWhole (cs ++ rest) = .ok (cs, rest) := by
  rcases h with rfl | ⟨c, ds, rfl, hne, hdigits⟩
  · rfl
  · have hread := read_digits hdigits hrest
    have hc := hdigits c List.mem_cons_self
    rw [List.cons_append] at hread ⊢
    simp only [readWhole, if_neg hne, if_pos hc, hread]

/-- An integer is read as it was written. -/
theorem read_number_int (negative : Bool) (n : Nat)
    (hshort : (Nat.toDigits 10 n).length ≤ digitLimit)
    (hrest : Follows rest) : readNumber negative (Nat.toDigits 10 n ++ rest) =
      .ok (.int (if negative then -(n : Int) else n), rest) := by
  obtain ⟨hdigits, hfraction, hexponent⟩ := hrest.ends
  simp only [readNumber, read_whole (whole_of_number n) hdigits, hfraction, hexponent,
    Option.isNone_none, and_self, if_true, if_neg (Nat.not_lt.mpr hshort), digits_value]

/-- A fraction as it is printed, with the point. -/
def IsFraction (cs : List Char) : Prop :=
  cs = [] ∨ ∃ ds, cs = '.' :: ds ∧ ds ≠ [] ∧ ∀ c ∈ ds, IsDigit c

/-- An exponent as it is printed, with its sign. -/
def IsExponent (cs : List Char) : Prop :=
  cs = [] ∨ ∃ sign ds, cs = 'e' :: sign :: ds ∧ sign ∈ ['-', '+'] ∧ ds ≠ [] ∧ ∀ c ∈ ds, IsDigit c

/-- A printed fraction is read as one. -/
theorem read_fraction (h : IsFraction cs) : ∃ fraction, (cs ≠ [] → fraction ≠ none) ∧
    ∀ rest, EndsDigits rest → readFraction rest = (none, rest) →
      readFraction (cs ++ rest) = (fraction, rest) := by
  rcases h with rfl | ⟨ds, rfl, hne, hall⟩
  · exact ⟨none, fun h => absurd rfl h, fun _ _ hrest => hrest⟩
  · refine ⟨some ds, fun _ => nofun, fun rest hdigits _ => ?_⟩
    simp only [List.cons_append, readFraction, read_digits hall hdigits, if_neg hne]

/-- A printed exponent is read as one. -/
theorem read_exponent (h : IsExponent cs) : ∃ exponent, (cs ≠ [] → exponent ≠ none) ∧
    ∀ rest, Follows rest → readExponent (cs ++ rest) = (exponent, rest) := by
  rcases h with rfl | ⟨sign, ds, rfl, hsign, hne, hall⟩
  · exact ⟨none, fun h => absurd rfl h, fun _ hrest => hrest.ends.2.2⟩
  · refine ⟨some (if sign = '-' then -(digitsValue ds : Int) else digitsValue ds), fun _ => nofun,
      fun rest hrest => ?_⟩
    have hread : readSign (sign :: (ds ++ rest)) = (decide (sign = '-'), ds ++ rest) := by
      rcases List.mem_cons.mp hsign with rfl | hsign
      · rfl
      · obtain rfl := List.mem_singleton.mp hsign
        rfl
    simp [List.cons_append, readExponent, hread, read_digits hall hrest.ends.1, hne]

/-- An exponent does not go on with a whole number or a fraction. -/
theorem IsExponent.ends (h : IsExponent cs) (hrest : Follows rest) : EndsDigits (cs ++ rest) ∧
    readFraction (cs ++ rest) = (none, cs ++ rest) := by
  rcases h with rfl | ⟨sign, ds, rfl, -⟩
  · exact ⟨hrest.ends.1, hrest.ends.2.1⟩
  · refine ⟨?_, rfl⟩
    intro c hc
    obtain rfl := Option.some.inj hc
    decide

/-- A fraction does not go on with a whole number. -/
theorem IsFraction.ends (h : IsFraction cs) (hrest : EndsDigits rest) :
    EndsDigits (cs ++ rest) := by
  rcases h with rfl | ⟨ds, rfl, -⟩
  · exact hrest
  · intro c hc
    obtain rfl := Option.some.inj hc
    decide

/-- A number with a fraction or an exponent is read as a real number, whatever follows it. -/
theorem read_number_real (negative : Bool) {whole fraction exponent : List Char}
    (hwhole : IsWhole whole) (hfraction : IsFraction fraction) (hexponent : IsExponent exponent)
    (hreal : fraction ≠ [] ∨ exponent ≠ []) :
    ∃ r, ∀ rest, Follows rest →
      readNumber negative (whole ++ (fraction ++ (exponent ++ rest))) = .ok (.real r, rest) := by
  obtain ⟨f, hf, hreadf⟩ := read_fraction hfraction
  obtain ⟨e, he, hreade⟩ := read_exponent hexponent
  have hnone : ¬ (f.isNone ∧ e.isNone) := by
    rw [Option.isNone_iff_eq_none, Option.isNone_iff_eq_none]
    rintro ⟨hfnone, henone⟩
    rcases hreal with h | h
    · exact hf h hfnone
    · exact he h henone
  refine ⟨.ofDecimal negative (digitsValue (whole ++ f.getD [])) (e.getD 0 - (f.getD []).length),
    fun rest hrest => ?_⟩
  obtain ⟨hends, hpoint⟩ := hexponent.ends hrest
  simp only [readNumber, read_whole hwhole (hfraction.ends hends), hreadf _ hends hpoint,
    hreade rest hrest, if_neg hnone]

/-- A number that begins with a digit is read as a number. -/
theorem read_scalar_digit (h : IsDigit c) : readScalar (c :: cs) = readNumber false (c :: cs) ∧
    readScalar ('-' :: c :: cs) = readNumber true (c :: cs) := by
  have hne : ∀ d ∈ ['n', 't', 'f', 'N', 'I', '-', '\x22'], c ≠ d := by
    intro d hd heq
    subst heq
    have hnot : ∀ d ∈ ['n', 't', 'f', 'N', 'I', '-', '\x22'], ¬ IsDigit d := by simp [IsDigit]
    exact hnot c hd h
  constructor
  · unfold readScalar
    split <;> simp_all
  · unfold readScalar
    split <;> simp_all

/-! ## Real numbers -/

/-- Zeros are digits. -/
theorem digits_of_zeros (count : Nat) : ∀ c ∈ List.replicate count '0', IsDigit c := by
  intro c hc
  obtain rfl := List.eq_of_mem_replicate hc
  decide

/-- Digits with the point among them are a whole number and a fraction. -/
theorem write_positional {n : Nat} {point : Int} (hzero : n = 0 → point ≤ 1) :
    ∃ whole fraction, writePositional (Nat.toDigits 10 n) point = whole ++ fraction ∧
      IsWhole whole ∧ IsFraction fraction ∧ fraction ≠ [] := by
  obtain ⟨first, others, hdigits, hfirst⟩ := (whole_of_number n).head
  have hall := digits_of_number (n := n)
  unfold writePositional
  by_cases hpoint : point ≤ 0
  · rw [if_pos hpoint]
    refine ⟨['0'], '.' :: (List.replicate (-point).toNat '0' ++ Nat.toDigits 10 n), ?_, .inl rfl,
      .inr ⟨_, rfl, by simp [hdigits], ?_⟩, by simp⟩
    · simp
    · intro c hc
      rcases List.mem_append.mp hc with hc | hc
      · exact digits_of_zeros _ c hc
      · exact hall c hc
  · rw [if_neg hpoint]
    refine ⟨(Nat.toDigits 10 n).take point.toNat ++
      List.replicate (point.toNat - (Nat.toDigits 10 n).length) '0', _, List.append_assoc _ _ _,
      ?_, .inr ⟨_, rfl, ?_, ?_⟩, by simp⟩
    · by_cases hn : n = 0
      · have hone : point = 1 := by
          have := hzero hn
          omega
        subst hn hone
        exact .inl rfl
      · obtain ⟨c, cs, hcs, hne, -⟩ := head_of_positive (Nat.pos_of_ne_zero hn)
        obtain ⟨k, hk⟩ : ∃ k, point.toNat = k + 1 := ⟨point.toNat - 1, by omega⟩
        refine .inr ⟨c, _, by rw [hcs, hk, List.take_succ_cons, List.cons_append], hne, ?_⟩
        intro d hd
        rcases List.mem_append.mp hd with hd | hd
        · exact hall d (List.mem_of_mem_take hd)
        · exact digits_of_zeros _ d hd
    · split
      · rename_i hlt
        intro hnil
        have := List.drop_eq_nil_iff.mp hnil
        omega
      · simp
    · intro d hd
      split at hd
      · exact hall d (List.mem_of_mem_drop hd)
      · obtain rfl := List.mem_singleton.mp hd
        decide

/-- Digits with an exponent are a whole number, a fraction and an exponent. -/
theorem write_scientific (n : Nat) (power : Int) :
    ∃ whole fraction exponent, writeScientific (Nat.toDigits 10 n) power =
        whole ++ (fraction ++ exponent) ∧
      IsWhole whole ∧ IsFraction fraction ∧ IsExponent exponent ∧ exponent ≠ [] := by
  obtain ⟨first, others, hdigits, hfirst⟩ := (whole_of_number n).head
  have hall := digits_of_number (n := n)
  obtain ⟨c, cs, hpower, -⟩ := (whole_of_number power.natAbs).head
  rw [hdigits] at hall ⊢
  refine ⟨[first], if (first :: others).length = 1 then [] else '.' :: others,
    'e' :: (if power < 0 then '-' else '+') ::
      (List.replicate (2 - (Nat.toDigits 10 power.natAbs).length) '0' ++
        Nat.toDigits 10 power.natAbs), ?_, ?_, ?_, .inr ⟨_, _, rfl, ?_, ?_, ?_⟩, by simp⟩
  · simp [writeScientific]
  · by_cases hzero : first = '0'
    · exact .inl (by rw [hzero])
    · exact .inr ⟨first, [], rfl, hzero, by simpa using hfirst⟩
  · split
    · exact .inl rfl
    · rename_i hlong
      refine .inr ⟨others, rfl, ?_, fun d hd => hall d (List.mem_cons_of_mem _ hd)⟩
      rintro rfl
      exact hlong rfl
  · split <;> simp
  · simp [hpower]
  · intro d hd
    rcases List.mem_append.mp hd with hd | hd
    · exact digits_of_zeros _ d hd
    · exact digits_of_number d hd

/-- A zero has no exponent. -/
def IsReduced : Decimal.Real → Prop
  | .finite _ digits exponent => digits = 0 → exponent = 0
  | _ => True

/-- A real number is printed as a number with a fraction or an exponent, after its sign. -/
theorem write_finite (negative : Bool) {n : Nat} {exponent : Int} (h : n = 0 → exponent = 0) :
    ∃ whole fraction power, writeReal (.finite negative n exponent) =
        (if negative then ['-'] else []) ++ (whole ++ (fraction ++ power)) ∧
      IsWhole whole ∧ IsFraction fraction ∧ IsExponent power ∧ (fraction ≠ [] ∨ power ≠ []) := by
  by_cases hpoint : -4 < (Nat.toDigits 10 n).length + exponent ∧
      (Nat.toDigits 10 n).length + exponent ≤ 16
  · have hzero : n = 0 → ((Nat.toDigits 10 n).length : Int) + exponent ≤ 1 := by
      intro hn
      rw [h hn, hn]
      decide
    obtain ⟨whole, fraction, hwrite, hwhole, hfraction, hne⟩ := write_positional hzero
    refine ⟨whole, fraction, [], ?_, hwhole, hfraction, .inl rfl, .inl hne⟩
    simp only [writeReal, if_pos hpoint, hwrite, List.append_nil]
  · obtain ⟨whole, fraction, power, hwrite, hwhole, hfraction, hpower, hne⟩ :=
      write_scientific n ((Nat.toDigits 10 n).length + exponent - 1)
    refine ⟨whole, fraction, power, ?_, hwhole, hfraction, hpower, .inr hne⟩
    simp only [writeReal, if_neg hpoint, hwrite]

/-- A number after its sign is read as one. -/
theorem read_scalar_signed (negative : Bool) (h : IsWhole cs) :
    readScalar ((if negative then ['-'] else []) ++ (cs ++ rest)) =
      readNumber negative (cs ++ rest) := by
  obtain ⟨c, ds, rfl, hc⟩ := h.head
  cases negative with
  | false => exact (read_scalar_digit hc).1
  | true => exact (read_scalar_digit hc).2

/-- A real number that was printed is read as a real number, whatever follows it. -/
theorem read_real {r : Decimal.Real} (h : IsReduced r) :
    ∃ r', ∀ rest, Follows rest → readScalar (writeReal r ++ rest) = .ok (.real r', rest) := by
  cases r with
  | undefined => exact ⟨.undefined, fun _ _ => rfl⟩
  | infinite negative =>
      cases negative with
      | false => exact ⟨.infinite false, fun _ _ => rfl⟩
      | true => exact ⟨.infinite true, fun _ _ => rfl⟩
  | finite negative n exponent =>
      obtain ⟨whole, fraction, power, hwrite, hwhole, hfraction, hpower, hreal⟩ :=
        write_finite negative h
      obtain ⟨r', hread⟩ := read_number_real negative hwhole hfraction hpower hreal
      refine ⟨r', fun rest hrest => ?_⟩
      rw [hwrite, List.append_assoc, List.append_assoc, List.append_assoc,
        read_scalar_signed negative hwhole, hread rest hrest]

/-- An integer is read as it was written. -/
theorem read_int {i : Int} (hshort : (Nat.toDigits 10 i.natAbs).length ≤ digitLimit)
    (hrest : Follows rest) : readScalar (writeInt i ++ rest) = .ok (.int i, rest) := by
  have hsign : (if i < 0 then ['-'] else []) = if decide (i < 0) then ['-'] else [] := by simp
  rw [writeInt, List.append_assoc, hsign, read_scalar_signed _ (whole_of_number _),
    read_number_int _ _ hshort hrest]
  have hvalue : (if decide (i < 0) then -(i.natAbs : Int) else i.natAbs) = i := by
    by_cases hneg : i < 0
    · simp only [hneg, decide_true, if_true]
      omega
    · simp only [hneg, decide_false, Bool.false_eq_true, if_false]
      omega
  rw [hvalue]

end Excise.Json
