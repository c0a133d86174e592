import Excise.Proofs.Names.Renaming

/-!
# Writing a new name into a source

`Tree.withText` puts a text in the place of a node's range in the source and moves the ends of the
nodes that stand after it or around it. Where the identifiers, strings and words of a tree share no
bytes (`Tree.LexemesApart`), that changes the text of no other of them, and they still share none
(`LexemesApart.with_text`). Writing a new name at every node that belongs to a binding
(`Tree.renamed`) is therefore a renaming (`LexemesApart.is_renaming`).
-/

namespace Excise

namespace Bytes

variable {source s : Bytes} {a z p q : Nat}

/-- What comes before a stretch with another text is as it was. -/
theorem slice_before (hq : q ≤ a) (ha : a ≤ source.length) :
    slice (source.take a ++ s ++ source.drop z) p q = slice source p q := by
  rcases Nat.le_total p q with hpq | hpq
  · have hlength : (source.take a).length = a := by simp [ha]
    rw [slice, slice, List.append_assoc, List.drop_append_of_le_length (by omega),
      List.take_append_of_le_length (by simp; omega), List.drop_take, List.take_take,
      Nat.min_eq_left (by omega)]
  · rw [slice_of_le _ hpq, slice_of_le _ hpq]

/-- What comes after a stretch with another text has moved. -/
theorem slice_after (haz : a ≤ z) (hz : z ≤ source.length) (hp : z ≤ p) (hq : z ≤ q) :
    slice (source.take a ++ s ++ source.drop z) (p - (z - a) + s.length) (q - (z - a) + s.length) =
      slice source p q := by
  have hlength : (source.take a ++ s).length = a + s.length := by simp; omega
  have hsplit : p - (z - a) + s.length = (source.take a ++ s).length + (p - z) := by omega
  have hdrop : z + (p - z) = p := by omega
  have hcount : q - (z - a) + s.length - (p - (z - a) + s.length) = q - p := by omega
  rw [slice, slice, hcount, hsplit, List.drop_length_add_append, List.drop_drop, hdrop]

/-- The stretch has its text. -/
theorem slice_self (ha : a ≤ source.length) :
    slice (source.take a ++ s ++ source.drop z) a (a + s.length) = s := by
  have hlength : (source.take a).length = a := by simp [ha]
  rw [slice, List.append_assoc, List.drop_append_of_le_length (by omega)]
  simp

end Bytes

namespace Tree

/-- The node `n` stands after the node `i`: it is not around it and starts where `i` has ended. Of
two empty nodes in one place the one with the later row stands after the other. -/
def StandsAfter (t : Tree) (i n : Node) : Prop :=
  ¬ t.Within i n ∧ t.stop i ≤ t.start n ∧ (t.start i < t.stop n ∨ i < n)

/-- Rows are searched and offsets compared. -/
instance (t : Tree) (i n : Node) : Decidable (t.StandsAfter i n) :=
  inferInstanceAs (Decidable (_ ∧ _ ∧ _))

/-- Where an offset past a node comes to be when the node gets a text. -/
def moved (t : Tree) (i : Node) (s : Bytes) (offset : Nat) : Nat :=
  offset - (t.stop i - t.start i) + s.length

/-- The row of a node when another gets a text: the nodes after it move, and those around it
grow. -/
def moveRow (t : Tree) (i : Node) (s : Bytes) (n : Node) (row : Row) : Row :=
  { row with
    start := if t.StandsAfter i n then t.moved i s row.start else row.start
    stop := if t.StandsAfter i n ∨ t.Within i n then t.moved i s row.stop else row.stop }

/-- The tree in which a node has a text. -/
def withText (t : Tree) (i : Node) (s : Bytes) : Tree where
  source := t.source.take (t.start i) ++ s ++ t.source.drop (t.stop i)
  rows := t.rows.mapIdx (t.moveRow i s)
  size_pos := by simpa using t.size_pos
  depth_root := by simpa [moveRow] using t.depth_root
  depth_pos := by simpa [moveRow] using t.depth_pos
  depth_succ_le := by simpa [moveRow] using t.depth_succ_le

/-- The tree in which every node of a binding has a name. -/
def renamed (t : Tree) (b : Binding) (name : String) : Tree :=
  (t.nodes.filter fun n => t.resolution.bindingOf? n = some b).foldl
    (fun u i => u.withText i (Bytes.ofText name)) t

/-- The identifiers, strings and words of a tree have ranges in the source and share no bytes; none
is inside another, as none is where they are leaves, and no word is an identifier. -/
structure LexemesApart (t : Tree) : Prop where
  range : ∀ n, t.IsLexeme n → t.start n ≤ t.stop n ∧ t.stop n ≤ t.source.length
  apart : ∀ m n, t.IsLexeme m → t.IsLexeme n → m ≠ n →
    t.stop m ≤ t.start n ∨ t.stop n ≤ t.start m
  outside : ∀ m n, t.IsLexeme m → t.IsLexeme n → m ∉ t.descendants n
  words : ∀ n, t.IsWord n → t.kind n ∉ referenceKinds

variable {t t' t'' : Tree} {i m n : Node} {s : Bytes} {b : Binding} {name : String}

/-- What has the same form as a tree of the same form has the same form. -/
theorem SameForm.trans (h : SameForm t t') (h' : SameForm t' t'') : SameForm t t'' where
  size_eq := h'.size_eq.trans h.size_eq
  depth_eq n := (h'.depth_eq n).trans (h.depth_eq n)
  named_eq n := (h'.named_eq n).trans (h.named_eq n)
  kind_eq n := (h'.kind_eq n).trans (h.kind_eq n)
  field_eq n := (h'.field_eq n).trans (h.field_eq n)
  word_eq n hn := by
    have hn' : t'.IsWord n := by rwa [IsWord, h.field_eq]
    exact (h'.word_eq n hn').trans (h.word_eq n hn)

/-- Trees of the same form have the same identifiers, strings and words. -/
theorem SameForm.is_lexeme_iff (h : SameForm t t') : t'.IsLexeme n ↔ t.IsLexeme n := by
  rw [IsLexeme, IsLexeme, IsWord, IsWord, h.kind_eq, h.field_eq]

/-- An identifier, string or word is a row of the tree. -/
theorem IsLexeme.lt_size (h : t.IsLexeme n) : n < t.size := by
  rcases h with hkind | hword
  · refine lt_size_of_kind fun hempty => ?_
    rw [hempty] at hkind
    exact absurd hkind (by decide)
  · rcases Nat.lt_or_ge n t.size with hn | hn
    · exact hn
    · have hrow : t.rows[n]? = none := Array.getElem?_eq_none hn
      have hfield : t.field n = none := by simp [field, row, hrow]; rfl
      rw [IsWord, hfield] at hword
      exact absurd hword (by decide)

/-- The row of a node when another has got a text. -/
theorem row_with_text (hn : n < t.size) : (t.withText i s).row n = t.moveRow i s n (t.row n) := by
  have hrow : t.rows[n]? = some (t.rows[n]) := Array.getElem?_eq_getElem hn
  simp [row, withText, hrow]

/-- A row that the tree does not have is not there when a node has got a text. -/
theorem row_with_text_of_size_le (hn : t.size ≤ n) : (t.withText i s).row n = t.row n := by
  have hrow : t.rows[n]? = none := Array.getElem?_eq_none hn
  simp [row, withText, hrow]

theorem start_with_text (hn : n < t.size) : (t.withText i s).start n =
    if t.StandsAfter i n then t.moved i s (t.start n) else t.start n := by
  rw [start, row_with_text hn]
  rfl

theorem stop_with_text (hn : n < t.size) : (t.withText i s).stop n =
    if t.StandsAfter i n ∨ t.Within i n then t.moved i s (t.stop n) else t.stop n := by
  rw [stop, row_with_text hn]
  rfl

/-- Only the ends of a row change. -/
theorem row_with_text_eq (n : Node) : ∃ p q, (t.withText i s).row n =
    { t.row n with start := p, stop := q } := by
  rcases Nat.lt_or_ge n t.size with hn | hn
  · exact ⟨_, _, row_with_text hn⟩
  · exact ⟨_, _, row_with_text_of_size_le hn⟩

namespace LexemesApart

variable (h : LexemesApart t)

include h

/-- Of two different identifiers, strings or words, one stands after the other or ends before it. -/
theorem after_or_before (hi : t.IsLexeme i) (hn : t.IsLexeme n) (hne : i ≠ n) :
    t.StandsAfter i n ∧ t.stop i ≤ t.start n ∨ ¬ t.StandsAfter i n ∧ t.stop n ≤ t.start i := by
  have hwithin : ¬ t.Within i n := by
    rintro (rfl | hmem)
    · exact hne rfl
    · exact h.outside i n hi hn hmem
  have hapart := h.apart i n hi hn hne
  by_cases hafter : t.StandsAfter i n
  · exact .inl ⟨hafter, hafter.2.1⟩
  · refine .inr ⟨hafter, ?_⟩
    have hrows : ¬ (t.stop i ≤ t.start n ∧ (t.start i < t.stop n ∨ i < n)) :=
      fun hrows => hafter ⟨hwithin, hrows⟩
    omega

/-- The ends of another identifier, string or word when a node has got a text. -/
theorem ends_with_text (hi : t.IsLexeme i) (hn : t.IsLexeme n) (hne : i ≠ n) (s : Bytes) :
    t.stop i ≤ t.start n ∧ (t.withText i s).start n = t.moved i s (t.start n) ∧
        (t.withText i s).stop n = t.moved i s (t.stop n) ∨
      t.stop n ≤ t.start i ∧ (t.withText i s).start n = t.start n ∧
        (t.withText i s).stop n = t.stop n := by
  have hwithin : ¬ t.Within i n := by
    rintro (rfl | hmem)
    · exact hne rfl
    · exact h.outside i n hi hn hmem
  rw [start_with_text hn.lt_size, stop_with_text hn.lt_size]
  rcases h.after_or_before hi hn hne with ⟨hafter, hstop⟩ | ⟨hbefore, hstop⟩
  · rw [if_pos hafter, if_pos (.inl hafter)]
    exact .inl ⟨hstop, rfl, rfl⟩
  · rw [if_neg hbefore, if_neg (not_or.mpr ⟨hbefore, hwithin⟩)]
    exact .inr ⟨hstop, rfl, rfl⟩

/-- The ends of the node that has got a text. -/
theorem own_ends_with_text (hi : t.IsLexeme i) (s : Bytes) :
    (t.withText i s).start i = t.start i ∧ (t.withText i s).stop i = t.start i + s.length := by
  have hrange := h.range i hi
  have hself : ¬ t.StandsAfter i i := fun hafter => hafter.1 within_refl
  rw [start_with_text hi.lt_size, stop_with_text hi.lt_size, if_neg hself,
    if_pos (.inr within_refl), moved]
  omega

/-- The node that gets a text has it. -/
theorem text_with_text (hi : t.IsLexeme i) (s : Bytes) : (t.withText i s).text i = s.text := by
  have hrange := h.range i hi
  obtain ⟨hstart, hstop⟩ := h.own_ends_with_text hi s
  rw [text, hstart, hstop, withText, Bytes.slice_self (by omega)]

/-- The other identifiers, strings and words keep their text. -/
theorem text_with_text_of_ne (hi : t.IsLexeme i) (hn : t.IsLexeme n) (hne : i ≠ n) (s : Bytes) :
    (t.withText i s).text n = t.text n := by
  have hrange := h.range i hi
  have hother := h.range n hn
  rw [text, text]
  rcases h.ends_with_text hi hn hne s with ⟨hafter, hstart, hstop⟩ | ⟨hbefore, hstart, hstop⟩
  · rw [hstart, hstop, moved, moved, withText,
      Bytes.slice_after hrange.1 hrange.2 hafter (by omega)]
  · rw [hstart, hstop, withText, Bytes.slice_before hbefore (by omega)]

/-- A text for an identifier or string leaves the form of the tree. -/
theorem same_form (hi : t.IsLexeme i) (hword : ¬ t.IsWord i) (s : Bytes) :
    SameForm t (t.withText i s) where
  size_eq := Array.size_mapIdx
  depth_eq n := by
    obtain ⟨p, q, hrow⟩ := row_with_text_eq (t := t) (i := i) (s := s) n
    rw [depth, hrow]
    rfl
  named_eq n := by
    obtain ⟨p, q, hrow⟩ := row_with_text_eq (t := t) (i := i) (s := s) n
    rw [named, hrow]
    rfl
  kind_eq n := by
    obtain ⟨p, q, hrow⟩ := row_with_text_eq (t := t) (i := i) (s := s) n
    rw [kind, hrow]
    rfl
  field_eq n := by
    obtain ⟨p, q, hrow⟩ := row_with_text_eq (t := t) (i := i) (s := s) n
    rw [field, hrow]
    rfl
  word_eq n hn := by
    refine h.text_with_text_of_ne hi (.inr hn) ?_ s
    rintro rfl
    exact hword hn

/-- A text for an identifier or string keeps them all apart. -/
theorem with_text (hi : t.IsLexeme i) (hword : ¬ t.IsWord i) (s : Bytes) :
    LexemesApart (t.withText i s) := by
  have hform := h.same_form hi hword s
  have hrange := h.range i hi
  obtain ⟨hstart, hstop⟩ := h.own_ends_with_text hi s
  have hlength : (t.withText i s).source.length =
      t.start i + s.length + (t.source.length - t.stop i) := by
    simp [withText]
    omega
  -- A lexeme behind `i` moves as a whole and one before it stays, so they keep their order.
  refine ⟨fun n hn => ?_, fun m n hm hn hne => ?_, fun m n hm hn => ?_, fun n hn => ?_⟩
  · rw [hform.is_lexeme_iff] at hn
    have hother := h.range n hn
    by_cases hin : i = n
    · subst hin
      omega
    · have hends := h.ends_with_text hi hn hin s
      simp only [moved] at hends
      omega
  · rw [hform.is_lexeme_iff] at hm hn
    have hrangem := h.range m hm
    have hrangen := h.range n hn
    have hapart := h.apart m n hm hn hne
    by_cases him : i = m
    · subst him
      have hends := h.ends_with_text hi hn hne s
      simp only [moved] at hends
      omega
    · have hendsm := h.ends_with_text hi hm him s
      by_cases hin : i = n
      · subst hin
        simp only [moved] at hendsm
        omega
      · have hendsn := h.ends_with_text hi hn hin s
        simp only [moved] at hendsm hendsn
        omega
  · rw [hform.is_lexeme_iff] at hm hn
    rw [hform.descendants_eq]
    exact h.outside m n hm hn
  · rw [IsWord, hform.field_eq] at hn
    rw [hform.kind_eq]
    exact h.words n hn

/-- A text for some identifiers and strings leaves the form of the tree and the text of the
others. -/
theorem with_texts {nodes : List Node} (hnodes : ∀ i ∈ nodes, t.IsLexeme i ∧ ¬ t.IsWord i)
    (s : Bytes) :
    let t' := nodes.foldl (fun u i => u.withText i s) t
    SameForm t t' ∧ (∀ i ∈ nodes, t'.text i = s.text) ∧
      ∀ n, t.IsLexeme n → n ∉ nodes → t'.text n = t.text n := by
  induction nodes generalizing t with
  | nil =>
      refine ⟨⟨rfl, ?_, ?_, ?_, ?_, ?_⟩, by simp, ?_⟩ <;> intros <;> rfl
  | cons i rest ih =>
      obtain ⟨⟨hi, hword⟩, hrest⟩ := List.forall_mem_cons.mp hnodes
      have hform := h.same_form hi hword s
      have hothers : ∀ j ∈ rest, (t.withText i s).IsLexeme j ∧ ¬ (t.withText i s).IsWord j := by
        intro j hj
        rw [hform.is_lexeme_iff, IsWord, hform.field_eq]
        exact hrest j hj
      obtain ⟨hforms, htexts, hkept⟩ := ih (h.with_text hi hword s) hothers
      -- A text that is written first is left alone by those for other nodes.
      refine ⟨hform.trans hforms, fun j hj => ?_, fun n hn hmem => ?_⟩
      · by_cases hjrest : j ∈ rest
        · exact htexts j hjrest
        · obtain rfl : j = i := (List.mem_cons.mp hj).resolve_right hjrest
          exact (hkept j (hform.is_lexeme_iff.mpr hi) hjrest).trans (h.text_with_text hi s)
      · obtain ⟨hne, hnrest⟩ := not_or.mp (mt List.mem_cons.mpr hmem)
        exact (hkept n (hform.is_lexeme_iff.mpr hn) hnrest).trans
          (h.text_with_text_of_ne hi hn (Ne.symm hne) s)

/-- Writing a name at every node of a binding renames the binding. -/
theorem is_renaming (b : Binding) (name : String) : IsRenaming t (t.renamed b name) b name := by
  have hnodes : ∀ i ∈ t.nodes.filter fun n => t.resolution.bindingOf? n = some b,
      t.IsLexeme i ∧ ¬ t.IsWord i := by
    intro i hi
    have hbinding : t.resolution.bindingOf? i = some b :=
      of_decide_eq_true (List.mem_filter.mp hi).2
    have hkind := (name_of_binding_of hbinding).1
    exact ⟨.inl (List.mem_cons_of_mem _ hkind), fun hword => h.words i hword hkind⟩
  obtain ⟨hform, htexts, hkept⟩ := h.with_texts hnodes (Bytes.ofText name)
  refine ⟨hform, fun n hn => ?_, fun n hkind hn => ?_⟩
  · have hkind := (name_of_binding_of hn).1
    have hlexeme : t.IsLexeme n := .inl (List.mem_cons_of_mem _ hkind)
    have hmem : n ∈ t.nodes.filter fun n => t.resolution.bindingOf? n = some b :=
      List.mem_filter.mpr ⟨List.mem_range.mpr hlexeme.lt_size, decide_eq_true hn⟩
    exact (htexts n hmem).trans (Bytes.text_ofText name)
  · exact hkept n (.inl hkind) fun hmem => hn (of_decide_eq_true (List.mem_filter.mp hmem).2)

end LexemesApart

end Tree

end Excise
