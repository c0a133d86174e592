/-!
# Bytes and text

Sources, files and edits are lists of bytes; names, messages and results are texts. `Bytes.ofText`
writes a text in UTF-8 and `Bytes.text?` reads bytes back, refusing what is not UTF-8. Reading what
was written gives the text again (`text?_ofText`), and nothing else is read as that text
(`ofText_of_text?`).
-/

namespace Excise

/-- A string of bytes: the content of a file or of a stretch of source. -/
abbrev Bytes := List UInt8

namespace Bytes

/-- The UTF-8 encoding of a text. -/
def ofText (s : String) : Bytes :=
  s.toUTF8.data.toList

/-- The text that the bytes encode, if they are well-formed UTF-8. -/
def text? (b : Bytes) : Option String :=
  String.fromUTF8? ⟨b.toArray⟩

/-- The text that the bytes encode, and the empty text where they are not well-formed. -/
def text (b : Bytes) : String :=
  (text? b).getD ""

/-- The bytes at offsets `start` up to and without `stop`. -/
def slice (b : Bytes) (start stop : Nat) : Bytes :=
  (b.drop start).take (stop - start)

/-- A slice that ends where it starts, or before, is empty. -/
theorem slice_of_le (b : Bytes) {start stop : Nat} (h : stop ≤ start) : b.slice start stop = [] := by
  rw [slice, Nat.sub_eq_zero_of_le h, List.take_zero]

/-- The space byte. -/
def space : UInt8 := 0x20

/-- The tab byte. -/
def tab : UInt8 := 0x09

/-- The line feed byte. -/
def lineFeed : UInt8 := 0x0A

/-- The carriage return byte. -/
def carriageReturn : UInt8 := 0x0D

@[simp]
theorem text?_ofText (s : String) : text? (ofText s) = some s := by
  simp [text?, ofText, String.fromUTF8?, String.fromUTF8, s.isValidUTF8]

theorem ofText_of_text? {b : Bytes} {s : String} (h : text? b = some s) : ofText s = b := by
  simp only [text?, String.fromUTF8?] at h
  split at h
  · obtain rfl := Option.some.inj h
    simp [ofText, String.fromUTF8]
  · simp at h

@[simp]
theorem text_ofText (s : String) : text (ofText s) = s := by
  simp [text]

end Bytes

end Excise
