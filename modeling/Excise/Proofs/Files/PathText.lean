import Excise.Files.Path
import Mathlib.Data.List.Basic

/-!
# Paths and their texts

A component is plain if reading a path can give it (`IsPlainPart`). A path of plain components is
read from its own text (`Path.of_text_text`), so a path that is written down in a record is found
again.
-/

namespace Excise

/-- A component that reading a path can give: it is not empty and no dot, and has no slash. -/
def IsPlainPart (part : String) : Prop := part ≠ "" ∧ part ≠ "." ∧ '/' ∉ part.toList

/-- The characters are looked at. -/
instance (part : String) : Decidable (IsPlainPart part) := inferInstanceAs (Decidable (_ ∧ _))

namespace Text

/-- The pieces of a list of characters are those that it splits into. -/
theorem pieces_from_eq (separator : Char) (piece cs : List Char) :
    piecesFrom separator piece cs = List.splitOnPPrepend (· == separator) cs piece := by
  induction cs generalizing piece with
  | nil => rfl
  | cons c rest ih =>
      rw [piecesFrom, List.splitOnPPrepend_cons_eq_if, ih, ih, List.splitOnPPrepend_nil_right]
      simp only [beq_iff_eq]

/-- The pieces of a text are the stretches between the occurrences of the separator. -/
theorem pieces_eq (separator : Char) (s : String) :
    pieces separator s = (s.toList.splitOn separator).map String.ofList := by
  rw [pieces, pieces_from_eq, List.splitOnPPrepend_nil_right, ← List.splitOn_eq_splitOnP]

/-- No piece has the separator. -/
theorem not_mem_of_mem_pieces {separator : Char} {s piece : String}
    (h : piece ∈ pieces separator s) : separator ∉ piece.toList := by
  have hpieces : ∀ (cs : List Char), ∀ l ∈ cs.splitOn separator, separator ∉ l := by
    intro cs
    induction cs with
    | nil =>
        intro l hl
        rw [List.splitOn_nil, List.mem_singleton] at hl
        simp [hl]
    | cons c rest ih =>
        intro l hl
        rw [List.splitOn_cons_eq_if_modifyHead] at hl
        split at hl
        · rcases List.mem_cons.mp hl with rfl | hl
          · exact List.not_mem_nil
          · exact ih l hl
        · rename_i hc
          obtain ⟨first, others, hsplit⟩ :=
            List.exists_cons_of_ne_nil (List.splitOn_ne_nil separator rest)
          rw [hsplit, List.modifyHead_cons] at hl
          rw [hsplit] at ih
          rcases List.mem_cons.mp hl with rfl | hl
          · intro hmem
            rcases List.mem_cons.mp hmem with heq | hmem
            · exact hc (by simp [heq])
            · exact ih first List.mem_cons_self hmem
          · exact ih l (List.mem_cons_of_mem _ hl)
  rw [pieces_eq] at h
  obtain ⟨l, hl, rfl⟩ := List.mem_map.mp h
  rw [String.toList_ofList]
  exact hpieces _ l hl

end Text

namespace Path

/-- Every component is plain. -/
def IsPlain (p : Path) : Prop := ∀ part ∈ p.parts, IsPlainPart part

/-- The components are looked at one by one. -/
instance (p : Path) : Decidable p.IsPlain := inferInstanceAs (Decidable (∀ part ∈ p.parts, _))

variable {p : Path} {name : String}

/-- A path that is read has plain components. -/
theorem is_plain_of_text (s : String) : (ofText s).IsPlain := by
  intro part hpart
  obtain ⟨hpiece, hplain⟩ := List.mem_filter.mp hpart
  have hne := of_decide_eq_true hplain
  exact ⟨hne.1, hne.2, Text.not_mem_of_mem_pieces hpiece⟩

/-- A path with one more plain component is plain. -/
theorem IsPlain.child (h : p.IsPlain) (hname : IsPlainPart name) : (p.child name).IsPlain := by
  intro part hpart
  rcases List.mem_append.mp hpart with hpart | hpart
  · exact h part hpart
  · exact List.mem_singleton.mp hpart ▸ hname

/-- A path without its last component is plain. -/
theorem IsPlain.parent (h : p.IsPlain) : p.parent.IsPlain :=
  fun part hpart => h part (List.dropLast_subset _ hpart)

/-- Plain components with slashes between them are cut into themselves, and slashes in front do not
matter. -/
theorem plain_pieces (slashes : List Char) (hslashes : ∀ c ∈ slashes, c = '/')
    {parts : List String} (hparts : ∀ part ∈ parts, IsPlainPart part) :
    ((slashes ++ ['/'].intercalate (parts.map String.toList)).splitOn '/' |>.map
      String.ofList).filter (fun part => part ≠ "" ∧ part ≠ ".") = parts := by
  induction slashes with
  | nil =>
      rw [List.nil_append]
      by_cases hempty : parts = []
      · subst hempty
        rw [List.map_nil, List.intercalate_nil, List.splitOn_nil]
        decide
      · rw [List.splitOn_intercalate '/' _ (by simpa using hempty), List.map_map]
        · have hself : (String.ofList ∘ String.toList) = id := by
            funext s
            exact String.ofList_toList
          rw [hself, List.map_id, List.filter_eq_self]
          intro part hpart
          exact decide_eq_true ⟨(hparts part hpart).1, (hparts part hpart).2.1⟩
        · intro l hl
          obtain ⟨part, hpart, rfl⟩ := List.mem_map.mp hl
          exact (hparts part hpart).2.2
  | cons c rest ih =>
      have hc : c = '/' := hslashes c List.mem_cons_self
      have hrest := ih fun d hd => hslashes d (List.mem_cons_of_mem _ hd)
      rw [hc, List.cons_append, List.splitOn_cons_eq_if_modifyHead, if_pos (by simp),
        List.map_cons, List.filter_cons_of_neg (by decide)]
      exact hrest

/-- The characters of plain components with slashes between them do not begin with a slash. -/
theorem head_ne_slash {parts : List String} (hparts : ∀ part ∈ parts, IsPlainPart part) :
    (['/'].intercalate (parts.map String.toList)).head? ≠ some '/' := by
  cases parts with
  | nil => simp
  | cons part rest =>
      obtain ⟨hne, -, hslash⟩ := hparts part List.mem_cons_self
      obtain ⟨c, cs, hcs⟩ := List.exists_cons_of_ne_nil
        (show part.toList ≠ [] from fun h => hne (String.toList_inj.mp h))
      have hc : c ≠ '/' := fun h => hslash (by simp [hcs, h])
      cases rest <;> simp [List.intercalate_cons_cons, hcs, hc]

/-- The root that a text begins with, by what follows the slashes. -/
theorem root_of_slashes {cs : List Char} (h : cs.head? ≠ some '/') :
    rootOf cs = .relative ∧ rootOf ('/' :: cs) = .absolute ∧
      rootOf ('/' :: '/' :: cs) = .doubled := by
  cases cs with
  | nil => exact ⟨rfl, rfl, rfl⟩
  | cons c rest =>
      have hc : c ≠ '/' := fun hc => h (by simp [hc])
      refine ⟨?_, ?_, ?_⟩ <;> rw [rootOf] <;> simp [hc]

/-- A path of plain components is read from its own text. -/
theorem of_text_text (h : p.IsPlain) : ofText p.text = p := by
  obtain ⟨root, parts⟩ := p
  have hroots := root_of_slashes (head_ne_slash h)
  have hread : ∀ slashes : List Char, (∀ c ∈ slashes, c = '/') → ∀ s : String,
      s.toList = slashes ++ ['/'].intercalate (parts.map String.toList) →
      ofText s = ⟨rootOf s.toList, parts⟩ := by
    intro slashes hslashes s hs
    rw [ofText, Text.pieces_eq, hs, plain_pieces slashes hslashes h]
  cases root with
  | relative =>
      by_cases hempty : parts = []
      · subst hempty
        decide
      · have htext : (Path.text ⟨.relative, parts⟩).toList =
            [] ++ ['/'].intercalate (parts.map String.toList) := by
          simp [text, hempty, PathRoot.text, String.toList_intercalate]
        rw [hread [] (by simp) _ htext, htext, List.nil_append, hroots.1]
  | absolute =>
      have htext : (Path.text ⟨.absolute, parts⟩).toList =
          ['/'] ++ ['/'].intercalate (parts.map String.toList) := by
        simp [text, PathRoot.text, String.toList_intercalate]
      rw [hread ['/'] (by simp) _ htext, htext, List.singleton_append, hroots.2.1]
  | doubled =>
      have htext : (Path.text ⟨.doubled, parts⟩).toList =
          ['/', '/'] ++ ['/'].intercalate (parts.map String.toList) := by
        simp [text, PathRoot.text, String.toList_intercalate]
      rw [hread ['/', '/'] (by simp) _ htext, htext, List.cons_append, List.singleton_append,
        hroots.2.2]

end Path

end Excise
