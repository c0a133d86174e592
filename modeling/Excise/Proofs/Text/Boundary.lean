import Excise.Text.Bytes

/-!
# Character boundaries

Bytes that encode a text (`Bytes.IsEncoded`) stay so when they are cut at character boundaries and
put together (`slice_encoded`, `IsEncoded.append`). The byte of an ASCII character is a character of
its own, so there is a boundary before it and one after it (`boundary_before_ascii`,
`boundary_after_ascii`).
-/

namespace Excise.Bytes

variable {b front back : Bytes} {code s t : String} {i start stop : Nat} {c : UInt8}

/-- The bytes are the UTF-8 encoding of a text. -/
def IsEncoded (b : Bytes) : Prop := ∃ s, ofText s = b

/-- A text is encoded. -/
theorem encoded_of_text (s : String) : IsEncoded (ofText s) := ⟨s, rfl⟩

/-- The empty text has no bytes. -/
@[simp]
theorem of_text_empty : ofText "" = [] := rfl

/-- Well-formed bytes are encoded. -/
theorem encoded_of_valid {array : ByteArray} (h : array.IsValidUTF8) :
    IsEncoded array.data.toList :=
  ⟨String.fromUTF8 array h, rfl⟩

/-- Encoded bytes are read as a text. -/
theorem IsEncoded.exists_text (h : IsEncoded b) : ∃ s, text? b = some s := by
  obtain ⟨s, rfl⟩ := h
  exact ⟨s, text?_ofText s⟩

/-- Two texts are encoded one after the other. -/
theorem of_text_append (s t : String) : ofText (s ++ t) = ofText s ++ ofText t := by
  simp [ofText]

/-- Encoded bytes one after the other are encoded. -/
theorem IsEncoded.append (hfront : IsEncoded front) (hback : IsEncoded back) :
    IsEncoded (front ++ back) := by
  obtain ⟨s, rfl⟩ := hfront
  obtain ⟨t, rfl⟩ := hback
  exact ⟨s ++ t, of_text_append s t⟩

/-- A text has as many bytes as its encoding. -/
theorem length_of_text (s : String) : (ofText s).length = s.utf8ByteSize := by
  rw [ofText, Array.length_toList]
  exact String.size_toByteArray

/-- A character is encoded by its bytes. -/
theorem of_text_singleton (d : Char) : ofText (String.singleton d) = String.utf8EncodeChar d := by
  simp [ofText, List.utf8Encode]

/-- A text is its first character and the rest. -/
theorem of_list_cons (d : Char) (rest : List Char) :
    String.ofList (d :: rest) = String.singleton d ++ String.ofList rest := by
  simp

/-- The offset is on a character boundary of the encoding of a text. -/
def IsBoundary (code : String) (i : Nat) : Prop := (⟨i⟩ : String.Pos.Raw).IsValid code

/-- The byte at the offset decides it. -/
instance (code : String) (i : Nat) : Decidable (IsBoundary code i) :=
  decidable_of_iff _ String.Pos.Raw.isValid_eq_true_iff

/-- The beginning is a boundary. -/
theorem boundary_zero (code : String) : IsBoundary code 0 := String.Pos.Raw.isValid_zero

/-- A boundary parts the text in two. -/
theorem boundary_iff_split :
    IsBoundary code i ↔ ∃ s t, code = s ++ t ∧ i = (ofText s).length := by
  have hposition : ∀ s : String,
      (⟨i⟩ : String.Pos.Raw) = s.rawEndPos ↔ i = (ofText s).length := by
    intro s
    rw [String.Pos.Raw.ext_iff, String.byteIdx_rawEndPos, length_of_text]
  rw [IsBoundary, String.Pos.Raw.isValid_iff_exists_append]
  simp only [hposition]

/-- No boundary is behind the end. -/
theorem IsBoundary.le_length (h : IsBoundary code i) : i ≤ (ofText code).length := by
  obtain ⟨s, t, rfl, rfl⟩ := boundary_iff_split.mp h
  rw [of_text_append, List.length_append]
  exact Nat.le_add_right _ _

/-- The end is a boundary. -/
theorem boundary_length (code : String) : IsBoundary code (ofText code).length := by
  rw [length_of_text]
  exact String.Pos.Raw.isValid_rawEndPos

/-- The bytes between two boundaries are encoded. -/
theorem slice_encoded (hstart : IsBoundary code start) (hstop : IsBoundary code stop) :
    IsEncoded ((ofText code).slice start stop) := by
  rcases Nat.lt_or_ge stop start with hlt | hle
  · rw [slice_of_le _ (Nat.le_of_lt hlt)]
    exact encoded_of_text ""
  · have hvalid := (String.Pos.Raw.isValidUTF8_extract_iff (s := code) ⟨start⟩ ⟨stop⟩ hle
      hstop.le_rawEndPos).mpr (.inr ⟨hstart, hstop⟩)
    have hbytes := encoded_of_valid hvalid
    rwa [ByteArray.data_extract, Array.toList_extract] at hbytes

/-- The bytes up to a boundary are encoded. -/
theorem take_encoded (h : IsBoundary code i) : IsEncoded ((ofText code).take i) :=
  slice_encoded (boundary_zero code) h

/-- The highest bit of an ASCII byte is not set. -/
theorem and_high_bit_of_ascii (hc : c.toNat < 128) : c &&& 0x80 = 0 := by
  have hall : ∀ n : Fin 128, UInt8.ofNat n &&& 0x80 = 0 := by decide
  have hbyte := hall ⟨c.toNat, hc⟩
  rwa [UInt8.ofNat_toNat] at hbyte

/-- There is a boundary before an ASCII character. -/
theorem boundary_before_ascii (hbyte : (ofText code)[i]? = some c) (hc : c.toNat < 128) :
    IsBoundary code i := by
  obtain ⟨hi, hget⟩ := List.getElem?_eq_some_iff.mp hbyte
  have hlt : (⟨i⟩ : String.Pos.Raw) < code.rawEndPos := by
    rw [length_of_text] at hi
    exact hi
  have hfirst : code.getUTF8Byte ⟨i⟩ hlt = c := hget
  refine String.Pos.Raw.isValid_iff_isUTF8FirstByte.mpr (.inr ⟨hlt, .inl ?_⟩)
  rw [hfirst]
  exact and_high_bit_of_ascii hc

/-- A character whose first byte is an ASCII byte has no other byte. -/
theorem single_of_ascii {d : Char} {rest : Bytes} (h : String.utf8EncodeChar d = c :: rest)
    (hc : c.toNat < 128) : rest = [] := by
  rw [String.utf8EncodeChar.eq_1] at h
  -- The first byte of a longer character is 192 at least.
  split at h
  · exact (List.cons.inj h).2.symm
  · split at h
    · rw [← (List.cons.inj h).1, UInt8.toNat_ofNat'] at hc
      omega
    · split at h
      · rw [← (List.cons.inj h).1, UInt8.toNat_ofNat'] at hc
        omega
      · rw [← (List.cons.inj h).1, UInt8.toNat_ofNat'] at hc
        omega

/-- There is a boundary after an ASCII character. -/
theorem boundary_after_ascii (hbyte : (ofText code)[i]? = some c) (hc : c.toNat < 128) :
    IsBoundary code (i + 1) := by
  obtain ⟨s, t, rfl, rfl⟩ := boundary_iff_split.mp (boundary_before_ascii hbyte hc)
  rw [of_text_append, List.getElem?_append_right (Nat.le_refl _), Nat.sub_self] at hbyte
  obtain ⟨chars, rfl⟩ := t.exists_eq_ofList
  cases chars with
  | nil => exact absurd hbyte (by simp [ofText])
  | cons d rest =>
      rw [of_list_cons, of_text_append, of_text_singleton] at hbyte
      obtain ⟨first, more, hbytes⟩ :=
        List.exists_cons_of_ne_nil (String.utf8EncodeChar_ne_nil (c := d))
      rw [hbytes, List.cons_append, List.getElem?_cons_zero] at hbyte
      obtain rfl := Option.some.inj hbyte
      obtain rfl := single_of_ascii hbytes hc
      refine boundary_iff_split.mpr ⟨s ++ String.singleton d, String.ofList rest, ?_, ?_⟩
      · rw [of_list_cons, String.append_assoc]
      · rw [of_text_append, of_text_singleton, hbytes, List.length_append]
        rfl

end Excise.Bytes
