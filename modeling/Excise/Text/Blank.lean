/-!
# Blank text

A text is blank if it is empty or holds white space only. White space is the Unicode property
`White_Space` together with the four separator controls U+001C to U+001F. `trim` and `trimEnd` cut
it off the ends of a text.
-/

namespace Excise.Text

/-- The ranges of white space, as code points with both ends included. -/
def blankRanges : List (Nat × Nat) :=
  [(0x09, 0x0D), (0x1C, 0x20), (0x85, 0x85), (0xA0, 0xA0), (0x1680, 0x1680), (0x2000, 0x200A),
    (0x2028, 0x2029), (0x202F, 0x202F), (0x205F, 0x205F), (0x3000, 0x3000)]

/-- The character is white space. -/
def IsBlankChar (c : Char) : Prop := ∃ r ∈ blankRanges, r.1 ≤ c.toNat ∧ c.toNat ≤ r.2

/-- The ranges are tried one by one. -/
instance (c : Char) : Decidable (IsBlankChar c) :=
  inferInstanceAs (Decidable (∃ r ∈ blankRanges, r.1 ≤ c.toNat ∧ c.toNat ≤ r.2))

/-- The text is empty or holds white space only. -/
def IsBlank (s : String) : Prop := ∀ c ∈ s.toList, IsBlankChar c

/-- The characters are looked at one by one. -/
instance (s : String) : Decidable (IsBlank s) := List.decidableBAll IsBlankChar s.toList

/-- The text without the white space at its end. -/
def trimEnd (s : String) : String :=
  String.ofList (s.toList.reverse.dropWhile IsBlankChar).reverse

/-- The text without the white space at its ends. -/
def trim (s : String) : String :=
  String.ofList ((s.toList.dropWhile IsBlankChar).reverse.dropWhile IsBlankChar).reverse

/-- The empty text is blank. -/
theorem isBlank_empty : IsBlank "" := by simp [IsBlank]

/-- What core calls white space is white space here. -/
theorem isBlankChar_of_isWhitespace {c : Char} (h : c.isWhitespace) : IsBlankChar c := by
  simp only [Char.isWhitespace, Bool.or_eq_true, decide_eq_true_eq] at h
  rcases h with ((rfl | rfl) | rfl) | rfl <;> decide

end Excise.Text
