import Excise.Proofs.Json.Scalars
import Excise.Text.Newline

/-!
# Reading printed documents

A printed document is read again (`parse_print`). It comes back with the same keys, texts, integers
and structure, and with each real number as its printed digits are read (`Json.reread`); a document
without real numbers comes back as it was. `Json.IsReadable` is what this takes: no key twice in an
object, no integer with too many digits, no exponent at a zero.
-/

namespace Excise

namespace Json

/-- A real number as its printed digits are read. -/
def rereadReal (r : Decimal.Real) : Decimal.Real :=
  match readScalar (writeReal r) with
  | .ok (.real r', _) => r'
  | _ => r

mutual

/-- A document as it comes back: each real number as its printed digits are read. -/
def reread : Json → Json
  | .real r => .real (rereadReal r)
  | .array items => .array (rereadItems items)
  | .object fields => .object (rereadFields fields)
  | .null => .null
  | .bool b => .bool b
  | .int i => .int i
  | .text s => .text s

/-- The items of an array as they come back. -/
def rereadItems : List Json → List Json
  | [] => []
  | item :: items => reread item :: rereadItems items

/-- The fields of an object as they come back. -/
def rereadFields : List (String × Json) → List (String × Json)
  | [] => []
  | (key, value) :: fields => (key, reread value) :: rereadFields fields

end

mutual

/-- The document can be read again after it was printed: no key is twice in an object, no integer
has too many digits, and no zero has an exponent. -/
def IsReadable : Json → Prop
  | .int i => (Nat.toDigits 10 i.natAbs).length ≤ digitLimit
  | .real r => IsReduced r
  | .array items => AllReadable items
  | .object fields => (Table.keys fields).Nodup ∧ FieldsReadable fields
  | .null | .bool _ | .text _ => True

/-- Every item can be read again. -/
def AllReadable : List Json → Prop
  | [] => True
  | item :: items => IsReadable item ∧ AllReadable items

/-- Every value of a field can be read again. -/
def FieldsReadable : List (String × Json) → Prop
  | [] => True
  | field :: fields => IsReadable field.2 ∧ FieldsReadable fields

end

variable {cs rest : List Char} {level level' limit : Nat}

theorem all_readable_iff {items : List Json} :
    AllReadable items ↔ ∀ item ∈ items, item.IsReadable := by
  induction items with
  | nil => simp [AllReadable]
  | cons item items ih => simp [AllReadable, ih]

theorem fields_readable_iff {fields : List (String × Json)} :
    FieldsReadable fields ↔ ∀ field ∈ fields, field.2.IsReadable := by
  induction fields with
  | nil => simp [FieldsReadable]
  | cons field fields ih => simp [FieldsReadable, ih]

theorem reread_items_eq (items : List Json) : rereadItems items = items.map reread := by
  induction items with
  | nil => rfl
  | cons item items ih => simp [rereadItems, ih]

theorem reread_fields_eq (fields : List (String × Json)) :
    rereadFields fields = fields.map fun field => (field.1, reread field.2) := by
  induction fields with
  | nil => rfl
  | cons field fields ih => simp [rereadFields, ih]

/-! ## How a value begins -/

/-- A character that a value begins with that holds no other. -/
def IsScalarStart (c : Char) : Prop := IsDigit c ∨ c ∈ ['n', 't', 'f', 'N', 'I', '-', '\x22']

/-- A blank, or a bracket that opens or closes. -/
def structural : List Char := [' ', '\t', '\n', '\r', '[', ']', '\x7b', '\x7d']

/-- A value that holds no other begins with no blank and no bracket. -/
theorem IsScalarStart.not_structural {c : Char} (h : IsScalarStart c) : c ∉ structural := by
  rcases h with h | h
  · have hall : ∀ d ∈ structural, ¬ IsDigit d := by simp [structural, IsDigit]
    exact fun hc => hall c hc h
  · have hall : ∀ d ∈ ['n', 't', 'f', 'N', 'I', '-', '\x22'], d ∉ structural := by
      simp [structural]
    exact hall c h

/-- A number begins with its sign or a digit. -/
theorem signed_start (negative : Bool) (h : IsWhole cs) :
    ∃ c ds, (if negative then ['-'] else []) ++ (cs ++ rest) = c :: ds ∧ IsScalarStart c := by
  obtain ⟨c, ds, rfl, hc⟩ := h.head
  cases negative with
  | false => exact ⟨c, ds ++ rest, rfl, .inl hc⟩
  | true => exact ⟨'-', c :: ds ++ rest, rfl, .inr (by decide)⟩

/-- An integer begins with its sign or a digit. -/
theorem int_start (i : Int) : ∃ c ds, writeInt i = c :: ds ∧ IsScalarStart c := by
  have hstart := @signed_start _ [] (decide (i < 0)) (whole_of_number i.natAbs)
  simpa [writeInt] using hstart

/-- A real number begins with its sign, a digit or a letter. -/
theorem real_start {r : Decimal.Real} (h : IsReduced r) :
    ∃ c ds, writeReal r = c :: ds ∧ IsScalarStart c := by
  cases r with
  | undefined => exact ⟨'N', _, rfl, .inr (by decide)⟩
  | infinite negative =>
      cases negative with
      | false => exact ⟨'I', _, rfl, .inr (by decide)⟩
      | true => exact ⟨'-', _, rfl, .inr (by decide)⟩
  | finite negative n exponent =>
      obtain ⟨whole, fraction, power, hwrite, hwhole, -⟩ := write_finite negative h
      rw [hwrite]
      exact signed_start negative hwhole

/-- A value begins with no blank and no closing bracket. -/
theorem write_start {j : Json} (h : j.IsReadable) (level : Nat) :
    ∃ c ds, write level j = c :: ds ∧ ¬ IsSpace c ∧ c ≠ ']' := by
  have hscalar : (∃ c ds, write level j = c :: ds ∧ IsScalarStart c) →
      ∃ c ds, write level j = c :: ds ∧ ¬ IsSpace c ∧ c ≠ ']' := by
    rintro ⟨c, ds, hwrite, hc⟩
    have hall : ∀ d ∈ ']' :: [' ', '\t', '\n', '\r'], d ∈ structural := by simp [structural]
    refine ⟨c, ds, hwrite, fun hspace => hc.not_structural (hall c (List.mem_cons_of_mem _ hspace)),
      ?_⟩
    rintro rfl
    exact hc.not_structural (by decide)
  cases j with
  | null => exact hscalar ⟨'n', _, rfl, .inr (by decide)⟩
  | bool b =>
      cases b with
      | false => exact hscalar ⟨'f', _, rfl, .inr (by decide)⟩
      | true => exact hscalar ⟨'t', _, rfl, .inr (by decide)⟩
  | int i => exact hscalar (int_start i)
  | real r => exact hscalar (real_start h)
  | text s => exact hscalar ⟨'\x22', _, rfl, .inr (by decide)⟩
  | array items => cases items <;> exact ⟨'[', _, rfl, by decide, by decide⟩
  | object fields => cases fields <;> exact ⟨'\x7b', _, rfl, by decide, by decide⟩

/-! ## Blanks -/

/-- Blanks before a value are skipped. -/
theorem skip_blanks {blanks : List Char} (hblanks : ∀ c ∈ blanks, IsSpace c)
    (hcs : ∀ c ∈ cs.head?, ¬ IsSpace c) : skipSpace (blanks ++ cs) = cs := by
  have hall : ∀ c ∈ blanks, decide (IsSpace c) = true := fun c hc => decide_eq_true (hblanks c hc)
  rw [skipSpace, List.dropWhile_append_of_pos hall]
  cases cs with
  | nil => rfl
  | cons c cs =>
      have hc : ¬ IsSpace c := hcs c rfl
      simp [hc]

/-- The start of a line is blank. -/
theorem blank_line (level : Nat) : ∀ c ∈ newLine level, IsSpace c := by
  intro c hc
  rcases List.mem_cons.mp hc with rfl | hc
  · decide
  · obtain rfl := List.eq_of_mem_replicate hc
    decide

/-- The start of a line before a character is skipped. -/
theorem skip_line {c : Char} (hc : ¬ IsSpace c) (level : Nat) (rest : List Char) :
    skipSpace (newLine level ++ c :: rest) = c :: rest := by
  refine skip_blanks (blank_line level) ?_
  intro d hd
  obtain rfl := Option.some.inj hd
  exact hc

/-- A character that is no blank is not skipped. -/
theorem skip_none {c : Char} (hc : ¬ IsSpace c) (rest : List Char) :
    skipSpace (c :: rest) = c :: rest := by
  rw [skipSpace, List.dropWhile_cons_of_neg (by simpa using hc)]

/-! ## Values -/

/-- A value that begins with no bracket holds no other. -/
theorem read_value_scalar {written : List Char}
    (h : ∃ c ds, written = c :: ds ∧ IsScalarStart c) :
    readValue (limit + 1) (written ++ rest) = readScalar (written ++ rest) := by
  obtain ⟨c, ds, rfl, hc⟩ := h
  rw [List.cons_append, readValue]
  · intro rest' heq
    obtain ⟨rfl, -⟩ := List.cons.inj heq
    exact hc.not_structural (by decide)
  · intro rest' heq
    obtain ⟨rfl, -⟩ := List.cons.inj heq
    exact hc.not_structural (by decide)

/-- A field as it is printed. -/
def fieldText (level : Nat) (key : String) (value : Json) : List Char :=
  writeText key ++ ([':', ' '] ++ write level value)

theorem write_array (level : Nat) (item : Json) (items : List Json) :
    write level (.array (item :: items)) = '[' :: (newLine (level + 1) ++
      (write (level + 1) item ++ (writeItems (level + 1) items ++ (newLine level ++ [']'])))) := by
  simp [write]

theorem write_items_cons (level : Nat) (item : Json) (items : List Json) :
    writeItems level (item :: items) =
      ',' :: (newLine level ++ (write level item ++ writeItems level items)) := by
  simp [writeItems]

theorem write_object (level : Nat) (key : String) (value : Json) (fields : List (String × Json)) :
    write level (.object ((key, value) :: fields)) = '\x7b' :: (newLine (level + 1) ++
      (fieldText (level + 1) key value ++
        (writeFields (level + 1) fields ++ (newLine level ++ ['\x7d'])))) := by
  simp [write, fieldText]

theorem write_fields_cons (level : Nat) (key : String) (value : Json)
    (fields : List (String × Json)) : writeFields level ((key, value) :: fields) =
      ',' :: (newLine level ++ (fieldText level key value ++ writeFields level fields)) := by
  simp [writeFields, fieldText]

/-- The key of a field is read as it was written, up to the value. -/
theorem read_key_field {value : Json} (h : value.IsReadable) (level : Nat) (key : String)
    (rest : List Char) : readKey (fieldText level key value ++ rest) =
      .ok (key, write level value ++ rest) := by
  obtain ⟨c, ds, hwrite, hc, -⟩ := write_start h level
  have hread := read_text_write key (':' :: ' ' :: c :: (ds ++ rest))
  have hcolon : skipSpace (':' :: ' ' :: c :: (ds ++ rest)) = ':' :: ' ' :: c :: (ds ++ rest) :=
    skip_none (by decide) _
  have hvalue : skipSpace (' ' :: c :: (ds ++ rest)) = c :: (ds ++ rest) := by
    rw [skipSpace, List.dropWhile_cons_of_pos (by decide)]
    exact skip_none hc _
  simp only [fieldText, hwrite, writeText, List.cons_append, List.append_assoc, List.nil_append]
  simp only [readKey, hread, hcolon, hvalue, String.ofList_toList]

/-- The start of a line before a field is skipped. -/
theorem skip_line_field (level level' : Nat) (key : String) (value : Json) (rest : List Char) :
    skipSpace (newLine level' ++ (fieldText level key value ++ rest)) =
      fieldText level key value ++ rest :=
  skip_line (c := '\x22') (by decide) level' _

/-- The start of a line before a value is skipped. -/
theorem skip_line_value {j : Json} (h : j.IsReadable) (level level' : Nat) (rest : List Char) :
    skipSpace (newLine level' ++ (write level j ++ rest)) = write level j ++ rest := by
  obtain ⟨c, ds, hwrite, hc⟩ := write_start h level
  rw [hwrite, List.cons_append]
  exact skip_line hc.1 level' (ds ++ rest)

theorem follows_items (items : List Json) (level level' : Nat) (rest : List Char) :
    Follows (writeItems level items ++ (newLine level' ++ rest)) := by
  cases items with
  | nil => exact Follows.line
  | cons item items => exact Follows.comma

theorem follows_fields (fields : List (String × Json)) (level level' : Nat) (rest : List Char) :
    Follows (writeFields level fields ++ (newLine level' ++ rest)) := by
  cases fields with
  | nil => exact Follows.line
  | cons field fields => exact Follows.comma

/-- A real number is read as its printed digits are. -/
theorem read_real_write {r : Decimal.Real} (h : IsReduced r) (hrest : Follows rest) :
    readScalar (writeReal r ++ rest) = .ok (.real (rereadReal r), rest) := by
  obtain ⟨r', hread⟩ := read_real h
  have hself : readScalar (writeReal r) = .ok (.real r', []) := by
    simpa using hread [] Follows.nil
  rw [hread rest hrest, rereadReal, hself]

mutual

/-- A value is read as it was written, whatever follows it in a document. -/
theorem read_value_write : ∀ (j : Json) (level limit : Nat) (rest : List Char), j.IsReadable →
    Follows rest → (write level j).length ≤ limit →
    readValue limit (write level j ++ rest) = .ok (j.reread, rest)
  | j, level, 0, rest => by
      intro h _ hlimit
      obtain ⟨c, ds, hwrite, -⟩ := write_start h level
      simp [hwrite] at hlimit
  | .null, _, _ + 1, _ => fun _ _ _ => rfl
  | .bool true, _, _ + 1, _ => fun _ _ _ => rfl
  | .bool false, _, _ + 1, _ => fun _ _ _ => rfl
  | .int i, level, limit + 1, rest => by
      intro h hrest _
      show readValue (limit + 1) (writeInt i ++ rest) = .ok (.int i, rest)
      rw [read_value_scalar (int_start i), read_int h hrest]
  | .real r, level, limit + 1, rest => by
      intro h hrest _
      show readValue (limit + 1) (writeReal r ++ rest) = .ok (.real (rereadReal r), rest)
      rw [read_value_scalar (real_start h), read_real_write h hrest]
  | .text s, level, limit + 1, rest => by
      intro _ _ _
      show readValue (limit + 1) (writeText s ++ rest) = .ok (.text s, rest)
      have hstart : ∃ c ds, writeText s = c :: ds ∧ IsScalarStart c :=
        ⟨'\x22', _, rfl, .inr (by decide)⟩
      have hread := read_text_write s rest
      rw [read_value_scalar hstart, writeText, List.cons_append, List.append_assoc]
      simp only [readScalar, List.singleton_append, hread]
      simp [Except.map]
  | .array [], _, _ + 1, _ => fun _ _ _ => rfl
  | .array (item :: items), level, limit + 1, rest => by
      intro h _ hlimit
      rw [write_array] at hlimit ⊢
      simp only [List.length_cons, List.length_append, List.cons_append, List.append_assoc,
        List.nil_append] at hlimit ⊢
      have hitems := read_items_write item items (level + 1) level limit rest h.1 h.2 (by
        rw [List.length_append]
        omega)
      obtain ⟨c, ds, hwrite, -, hc⟩ := write_start h.1 (level + 1)
      rw [readValue, skip_line_value h.1]
      rw [hwrite] at hitems ⊢
      simp only [List.cons_append] at hitems ⊢
      split
      · rename_i heq
        exact absurd (List.cons.inj heq).1 hc
      · rw [hitems]
        rfl
  | .object [], _, _ + 1, _ => fun _ _ _ => rfl
  | .object ((key, value) :: fields), level, limit + 1, rest => by
      intro h _ hlimit
      rw [write_object] at hlimit ⊢
      simp only [List.length_cons, List.length_append, List.cons_append, List.append_assoc,
        List.nil_append] at hlimit ⊢
      have hfields := read_fields_write key value fields (level + 1) level limit rest h.2.1 h.2.2
        (by
          rw [List.length_append]
          omega)
      have hunique : ofFields ((key, reread value) :: rereadFields fields) =
          .object ((key, reread value) :: rereadFields fields) := by
        have hkeys : Table.keys (rereadFields ((key, value) :: fields)) =
            Table.keys ((key, value) :: fields) := by
          simp [reread_fields_eq, Table.keys]
        exact congrArg Json.object (Table.of_list_of_nodup (hkeys ▸ h.1))
      rw [readValue, skip_line_field]
      simp only [fieldText, writeText, List.cons_append] at hfields ⊢
      show Except.map _ (readFields limit ('\x22' :: _)) = _
      rw [hfields]
      exact congrArg (fun j => Except.ok (j, rest)) hunique
termination_by structural _ _ limit _ => limit

/-- Items are read as they were written, up to the closing bracket. -/
theorem read_items_write : ∀ (item : Json) (items : List Json) (level level' limit : Nat)
    (rest : List Char), item.IsReadable → AllReadable items →
    (write level item ++ writeItems level items).length < limit →
    readItems limit (write level item ++ (writeItems level items ++
      (newLine level' ++ ']' :: rest))) = .ok (item.reread :: rereadItems items, rest)
  | _, _, _, _, 0, _ => fun _ _ hlimit => absurd hlimit (Nat.not_lt_zero _)
  | item, [], level, level', limit + 1, rest => by
      intro h _ hlimit
      have hvalue := read_value_write item level limit (newLine level' ++ ']' :: rest) h
        Follows.line (by simpa [writeItems, Nat.lt_succ_iff] using hlimit)
      simp only [writeItems, List.nil_append]
      simp only [readItems, hvalue, skip_line (c := ']') (by decide)]
      rfl
  | item, item' :: items, level, level', limit + 1, rest => by
      intro h hitems hlimit
      simp only [writeItems, List.length_append, List.length_cons] at hlimit
      have hvalue := read_value_write item level limit
        (writeItems level (item' :: items) ++ (newLine level' ++ ']' :: rest)) h
        (follows_items _ _ _ _) (by omega)
      have hothers := read_items_write item' items level level' limit rest hitems.1 hitems.2 (by
        simp only [List.length_append]
        omega)
      simp only [readItems, hvalue]
      simp only [writeItems, List.cons_append, List.append_assoc]
      rw [skip_none (by decide)]
      simp only [skip_line_value hitems.1, hothers]
      rfl
termination_by structural _ _ _ _ limit _ => limit

/-- Fields are read as they were written, up to the closing brace. -/
theorem read_fields_write : ∀ (key : String) (value : Json) (fields : List (String × Json))
    (level level' limit : Nat) (rest : List Char), value.IsReadable → FieldsReadable fields →
    (fieldText level key value ++ writeFields level fields).length < limit →
    readFields limit (fieldText level key value ++ (writeFields level fields ++
      (newLine level' ++ '\x7d' :: rest))) = .ok ((key, value.reread) :: rereadFields fields, rest)
  | _, _, _, _, _, 0, _ => fun _ _ hlimit => absurd hlimit (Nat.not_lt_zero _)
  | key, value, [], level, level', limit + 1, rest => by
      intro h _ hlimit
      simp only [fieldText, List.length_append] at hlimit
      have hvalue := read_value_write value level limit (newLine level' ++ '\x7d' :: rest) h
        Follows.line (by omega)
      simp only [writeFields, List.nil_append]
      simp only [readFields, read_key_field h, hvalue, skip_line (c := '\x7d') (by decide)]
      rfl
  | key, value, (key', value') :: fields, level, level', limit + 1, rest => by
      intro h hfields hlimit
      rw [write_fields_cons] at hlimit
      simp only [fieldText, List.length_append, List.length_cons] at hlimit
      have hvalue := read_value_write value level limit
        (writeFields level ((key', value') :: fields) ++ (newLine level' ++ '\x7d' :: rest)) h
        (follows_fields _ _ _ _) (by omega)
      have hothers := read_fields_write key' value' fields level level' limit rest hfields.1
        hfields.2 (by
          simp only [fieldText, List.length_append, List.length_cons]
          omega)
      simp only [readFields, read_key_field h, hvalue]
      rw [write_fields_cons]
      simp only [List.cons_append, List.append_assoc]
      rw [skip_none (by decide)]
      simp only [skip_line_field, hothers]
      rfl
termination_by structural _ _ _ _ _ limit _ => limit

end

/-! ## Documents -/

/-- A printed document is read again. -/
theorem parse_print {j : Json} (h : j.IsReadable) : parse (print j) = .ok j.reread := by
  obtain ⟨c, ds, hwrite, hc, -⟩ := write_start h 0
  have hlength : (print j).length = (write 0 j).length := by simp [print]
  have hread := read_value_write j 0 (2 * (print j).length + 2) [] h Follows.nil (by omega)
  have hskip : skipSpace (write 0 j) = write 0 j := by
    rw [hwrite]
    exact skip_none hc ds
  rw [List.append_nil] at hread
  have hend : skipSpace [] = [] := rfl
  rw [parse, print, String.toList_ofList, ← print, hskip, hread]
  simp only [hend, if_true]

/-! ## Line ends -/

theorem not_return_of_digits {ds : List Char} (h : ∀ c ∈ ds, IsDigit c) : '\r' ∉ ds :=
  fun hmem => absurd (h _ hmem) (by decide)

/-- A carriage return in a text is escaped. -/
theorem not_return_text (s : String) : '\r' ∉ writeText s := by
  have hchar : ∀ c, '\r' ∉ writeChar c := by
    intro c
    unfold writeChar
    cases hletter : letterEscapes.lookup c with
    | some letter =>
        obtain ⟨front, back, hentries, -⟩ := List.lookup_eq_some_iff.mp hletter
        have hall : ∀ e ∈ letterEscapes, '\r' ∉ ['\\', e.2] := by decide
        exact hall (c, letter) (by simp [hentries])
    | none =>
        have hne : '\r' ≠ c := by
          rintro rfl
          exact nomatch hletter
        have hdigit : ∀ n, '\r' ≠ Text.hexDigit (n % 16) := by
          have hall : ∀ n < 16, '\r' ≠ Text.hexDigit n := by decide
          exact fun n => hall _ (Nat.mod_lt n (by decide))
        by_cases hcontrol : c.toNat < 0x20
        · simp [hcontrol, Text.hexDigits, hdigit]
        · simpa [hcontrol] using hne
  simp only [writeText, List.mem_cons, List.mem_append, List.mem_flatMap, List.not_mem_nil,
    or_false]
  rintro (h | ⟨c, -, h⟩ | h)
  · exact absurd h (by decide)
  · exact hchar c h
  · exact absurd h (by decide)

theorem not_return_int (i : Int) : '\r' ∉ writeInt i := by
  rw [writeInt, List.mem_append, not_or]
  refine ⟨?_, not_return_of_digits digits_of_number⟩
  split <;> decide

theorem not_return_real {r : Decimal.Real} (h : IsReduced r) : '\r' ∉ writeReal r := by
  cases r with
  | undefined => decide
  | infinite negative => cases negative <;> decide
  | finite negative n exponent =>
      obtain ⟨whole, fraction, power, hwrite, hwhole, hfraction, hpower, -⟩ :=
        write_finite negative h
      have hsign : '\r' ∉ if negative then ['-'] else [] := by cases negative <;> decide
      have hwhole' : '\r' ∉ whole := by
        rcases hwhole with rfl | ⟨c, cs, -, -, hdigits⟩
        · decide
        · exact not_return_of_digits hdigits
      have hfraction' : '\r' ∉ fraction := by
        rcases hfraction with rfl | ⟨ds, rfl, -, hdigits⟩
        · exact List.not_mem_nil
        · simpa using not_return_of_digits hdigits
      have hpower' : '\r' ∉ power := by
        rcases hpower with rfl | ⟨sign, ds, rfl, hsign, -, hdigits⟩
        · exact List.not_mem_nil
        · have hne : '\r' ≠ sign := by
            rintro rfl
            exact absurd hsign (by decide)
          simpa [hne] using not_return_of_digits hdigits
      rw [hwrite]
      simp only [List.mem_append, hsign, hwhole', hfraction', hpower', or_self, not_false_eq_true]

theorem not_return_line (level : Nat) : '\r' ∉ newLine level := by
  simp [newLine, List.mem_replicate]

mutual

/-- No value is printed with a carriage return. -/
theorem not_return_write : ∀ (j : Json) (level : Nat), j.IsReadable → '\r' ∉ write level j
  | .null, _ => fun _ => show '\r' ∉ "null".toList by decide
  | .bool true, _ => fun _ => show '\r' ∉ "true".toList by decide
  | .bool false, _ => fun _ => show '\r' ∉ "false".toList by decide
  | .int i, _ => fun _ => not_return_int i
  | .real r, _ => fun h => not_return_real h
  | .text s, _ => fun _ => not_return_text s
  | .array [], _ => fun _ => show '\r' ∉ ['[', ']'] by decide
  | .array (item :: items), level => by
      intro h
      rw [write_array]
      simp [not_return_line, not_return_write item (level + 1) h.1,
        not_return_items items (level + 1) h.2]
  | .object [], _ => fun _ => show '\r' ∉ ['\x7b', '\x7d'] by decide
  | .object ((key, value) :: fields), level => by
      intro h
      rw [write_object]
      simp [fieldText, not_return_line, not_return_text, not_return_write value (level + 1) h.2.1,
        not_return_fields fields (level + 1) h.2.2]

theorem not_return_items : ∀ (items : List Json) (level : Nat), AllReadable items →
    '\r' ∉ writeItems level items
  | [], _ => fun _ => List.not_mem_nil
  | item :: items, level => by
      intro h
      rw [write_items_cons]
      simp [not_return_line, not_return_write item level h.1, not_return_items items level h.2]

theorem not_return_fields : ∀ (fields : List (String × Json)) (level : Nat),
    FieldsReadable fields → '\r' ∉ writeFields level fields
  | [], _ => fun _ => List.not_mem_nil
  | (key, value) :: fields, level => by
      intro h
      rw [write_fields_cons]
      simp [fieldText, not_return_line, not_return_text, not_return_write value level h.1,
        not_return_fields fields level h.2]

end

end Json

/-- A text without carriage returns has its line ends as they are. -/
theorem Text.unify_newlines_of_none {s : String} (h : '\r' ∉ s.toList) :
    Text.unifyNewlines s = s := by
  have hchars : ∀ cs : List Char, '\r' ∉ cs → Text.unifyNewlineChars cs = cs := by
    intro cs
    induction cs with
    | nil => exact fun _ => rfl
    | cons c rest ih =>
        intro hcs
        have hc : c ≠ '\r' := fun heq => hcs (heq ▸ List.mem_cons_self)
        rw [Text.unifyNewlineChars]
        · rw [if_neg hc, ih fun hmem => hcs (List.mem_cons_of_mem _ hmem)]
        · intro rest' heq
          exact absurd heq hc
  rw [Text.unifyNewlines, hchars _ h, String.ofList_toList]

namespace Json

/-- A printed document is read again from its text as a file. -/
theorem parse_unified_print {j : Json} (h : j.IsReadable) :
    parse (Text.unifyNewlines (print j)) = .ok j.reread := by
  have hnone : '\r' ∉ (print j).toList := by
    rw [print, String.toList_ofList]
    exact not_return_write j 0 h
  rw [Text.unify_newlines_of_none hnone, parse_print h]

end Json

end Excise
