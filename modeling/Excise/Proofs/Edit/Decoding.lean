import Excise.Proofs.Edit.Conservation
import Excise.Proofs.Edit.Order
import Excise.Proofs.Text.Boundary
import Excise.Transform

/-!
# What is written can be read

Where the nodes of a tree begin and end on character boundaries, so do the ranges of all edits that
a plan asks for (`Plan.edit_is_aligned`): the blanks and line terminators that go with a statement
are ASCII characters. The sweep keeps this (`aligned_sweep`), and the edits that it keeps clear each
other, so that each is carried out on bytes of the source that no other edit has touched. What is
left is the encoding of a text (`splice_all_encoded`, `apply_decodable`).
-/

namespace Excise

open Bytes (IsBoundary IsEncoded)

namespace Edit

variable {a b e last : Edit} {code : String}

/-- The edit puts an encoded text between two character boundaries. -/
structure IsAligned (code : String) (e : Edit) : Prop where
  ordered : e.start ≤ e.stop
  start : IsBoundary code e.start
  stop : IsBoundary code e.stop
  text : IsEncoded e.text

/-- An edit that takes in another one begins and ends on boundaries. -/
theorem IsAligned.join (hlast : last.IsAligned code) (he : e.IsAligned code)
    (hbeyond : last.stop < e.stop) : (last.join e).IsAligned code where
  ordered := Nat.le_trans hlast.ordered (Nat.le_of_lt hbeyond)
  start := hlast.start
  stop := he.stop
  text := hlast.text

end Edit

variable {last e k : Edit} {rest edits : List Edit} {code : String} {length : Nat} {tail : Bytes}

/-! ## The edits that are kept -/

/-- Edits that are kept begin and end on boundaries if all do. -/
theorem aligned_sweep (h : ∀ e ∈ edits, e.IsAligned code) (hk : k ∈ (sweep edits).kept) :
    k.IsAligned code :=
  sweep_invariant h (fun _ e he hlast _ hbeyond => hlast.join (h e he) hbeyond) hk

/-! ## Carrying them out -/

/-- Carrying out edits from the back, each in front of the last one, leaves encoded bytes. -/
theorem foldl_splice_encoded (haligned : ∀ e ∈ edits, e.IsAligned code)
    (hbehind : edits.Pairwise fun a b => b.stop ≤ a.start) (hlength : IsBoundary code length)
    (hstops : ∀ e ∈ edits, e.stop ≤ length) (htail : IsEncoded tail) :
    IsEncoded (edits.foldl Edit.splice ((Bytes.ofText code).take length ++ tail)) := by
  induction edits generalizing length tail with
  | nil => exact (Bytes.take_encoded hlength).append htail
  | cons e rest ih =>
      obtain ⟨he, hrest⟩ := List.forall_mem_cons.mp haligned
      obtain ⟨hfirst, hothers⟩ := List.pairwise_cons.mp hbehind
      rw [List.foldl_cons, splice_take_append_of_le he.ordered (hstops e List.mem_cons_self)
        hlength.le_length]
      refine ih hrest hothers he.start hfirst ?_
      exact he.text.append ((Bytes.slice_encoded he.stop hlength).append htail)

/-- Carrying out edits that begin and end on boundaries and clear each other leaves encoded bytes. -/
theorem splice_all_encoded (haligned : ∀ e ∈ edits, e.IsAligned code)
    (hclears : edits.Pairwise Edit.Clears) :
    IsEncoded (spliceAll (Bytes.ofText code) edits) := by
  have hgiven : ∀ e ∈ edits.mergeSort fun a b => b.start ≤ a.start, e.IsAligned code :=
    fun e he => haligned e (List.mem_mergeSort.mp he)
  have hwhole := foldl_splice_encoded hgiven
    (merge_sort_behind hclears fun e he => (haligned e he).ordered) (Bytes.boundary_length code)
    (fun e he => (hgiven e he).stop.le_length) (Bytes.encoded_of_text "")
  rwa [List.take_length, Bytes.of_text_empty, List.append_nil] at hwhole

/-! ## The edits of a plan -/

/-- The tree is one of the encoding of a text, and its nodes begin and end on character
boundaries. -/
structure Tree.FitsText (t : Tree) (code : String) : Prop where
  source : t.source = Bytes.ofText code
  ordered : ∀ n ∈ t.nodes, t.start n ≤ t.stop n
  starts : ∀ n ∈ t.nodes, IsBoundary code (t.start n)
  stops : ∀ n ∈ t.nodes, IsBoundary code (t.stop n)

/-- Blanks and line terminators are ASCII characters. -/
theorem ascii_of_blank_or_terminator {source : Bytes} {i : Nat}
    (h : IsBlankAt source i ∨ IsTerminatorAt source i) :
    ∃ c, source[i]? = some c ∧ c.toNat < 128 := by
  rcases h with ⟨c, hc, hkind⟩ | ⟨c, hc, hkind⟩ <;> rcases hkind with rfl | rfl <;>
    exact ⟨_, hc, by decide⟩

namespace Tree.FitsText

variable {t : Tree} {n : Node} (h : t.FitsText code)

include h

/-- A node ends after it begins, and both are boundaries. -/
theorem node (n : Node) :
    t.start n ≤ t.stop n ∧ IsBoundary code (t.start n) ∧ IsBoundary code (t.stop n) := by
  rcases Nat.lt_or_ge n t.size with hlt | hge
  · have hn := List.mem_range.mpr hlt
    exact ⟨h.ordered n hn, h.starts n hn, h.stops n hn⟩
  · rw [start_of_size_le hge, stop_of_size_le hge]
    exact ⟨Nat.le_refl 0, Bytes.boundary_zero code, Bytes.boundary_zero code⟩

/-- The line around a statement begins and ends on boundaries. -/
theorem line_extent_boundaries (n : Node) :
    IsBoundary code (lineExtent t.source (t.start n) (t.stop n)).1 ∧
      IsBoundary code (lineExtent t.source (t.start n) (t.stop n)).2 := by
  obtain ⟨hordered, hstart, hstop⟩ := h.node n
  obtain ⟨-, hfirst, hlast, -⟩ := line_extent_bounds t.source (t.start n) (t.stop n)
  have hlength : t.start n ≤ t.source.length := by
    rw [h.source]
    exact hstart.le_length
  constructor
  · rcases Nat.eq_or_lt_of_le hfirst with heq | hlt
    · rwa [heq]
    · -- The range begins with a blank.
      obtain ⟨c, hc, hascii⟩ := ascii_of_blank_or_terminator
        (.inl (blank_before_statement hlength (Nat.le_refl _) hlt))
      rw [h.source] at hc ⊢
      exact Bytes.boundary_before_ascii hc hascii
  · rcases Nat.eq_or_lt_of_le hlast with heq | hlt
    · rwa [← heq]
    · -- The range ends with a blank or a line terminator.
      obtain ⟨c, hc, hascii⟩ := ascii_of_blank_or_terminator
        (blank_after_statement (Nat.le_sub_one_of_lt hlt) (Nat.sub_one_lt_of_lt hlt))
      rw [h.source] at hc hlt ⊢
      have hafter := Bytes.boundary_after_ascii hc hascii
      rwa [Nat.sub_add_cancel (Nat.one_le_of_lt hlt)] at hafter

/-- The deletion of a statement begins and ends on boundaries. -/
theorem deletion_is_aligned (n : Node) : (t.deleteStatement n).IsAligned code := by
  obtain ⟨hordered, hstart, hstop⟩ := h.node n
  by_cases hfills : t.FillsPlace n
  · rw [delete_statement_of_fills hfills]
    exact ⟨hordered, hstart, hstop, ";", rfl⟩
  · rw [delete_statement_of_not_fills hfills]
    obtain ⟨hfirst, hlast⟩ := h.line_extent_boundaries n
    obtain ⟨-, hbefore, hafter, -⟩ := line_extent_bounds t.source (t.start n) (t.stop n)
    exact ⟨Nat.le_trans hbefore (Nat.le_trans hordered hafter), hfirst, hlast, "", rfl⟩

/-- The cut of a list whose items follow one another begins and ends on boundaries. -/
theorem cut_is_aligned {marked items : List Node} {e : Edit} (hcut : t.ItemCut marked items e)
    (hitems : items.Pairwise fun a b => t.stop a ≤ t.start b) : e.IsAligned code := by
  cases hcut with
  | @single front item next rest split goes edit =>
      rw [split] at hitems
      have hnext := (List.pairwise_cons.mp (List.pairwise_append.mp hitems).2.1).1 next
        List.mem_cons_self
      rw [edit]
      exact ⟨Nat.le_trans (h.node item).1 hnext, (h.node item).2.1, (h.node next).2.1, "", rfl⟩
  | @trailing front item rest split stays others go edit =>
      rw [split] at hitems
      have hlast := (List.pairwise_cons.mp (List.pairwise_append.mp hitems).2.1).1 _
        (List.getLast_mem others)
      rw [edit]
      exact ⟨Nat.le_trans hlast (h.node _).1, (h.node item).2.2, (h.node _).2.2, "", rfl⟩

end Tree.FitsText

namespace Plan

variable {t : Tree} {p : Plan}

/-- Every edit that a plan asks for begins and ends on boundaries, if the items of each list that
keeps some follow one another. -/
theorem edit_is_aligned (h : t.FitsText code)
    (hitems : ∀ l ∈ p.markedLists t, ¬ l.IsFull t →
      (l.items t).Pairwise fun a b => t.stop a ≤ t.start b) (he : e ∈ p.edits t) :
    e.IsAligned code := by
  rcases mem_edits.mp he with ⟨l, hl, hkeeps, hcut⟩ | ⟨n, hn, rfl⟩ | ⟨r, hr, rfl⟩
  · exact h.cut_is_aligned (Tree.item_cut_of_mem hcut) (hitems l hl hkeeps)
  · exact h.deletion_is_aligned n
  · obtain ⟨hordered, hstart, hstop⟩ := h.node r.1
    exact ⟨hordered, hstart, hstop, Bytes.encoded_of_text r.2⟩

/-- Carrying out a plan that does nothing leaves the source. -/
theorem apply_of_empty (h : p.IsEmpty) : (p.apply t).source = t.source := by
  have hempty : p = .empty := by
    obtain ⟨deletions, items, replacements⟩ := p
    simp only [IsEmpty, size, Nat.add_eq_zero_iff, List.length_eq_zero_iff] at h
    obtain ⟨⟨rfl, rfl⟩, rfl⟩ := h
    rfl
  have hedits : p.edits t = [] := by
    rw [hempty]
    rfl
  simp only [apply, hedits, sweep, List.mergeSort_nil, sweepSorted, spliceAll, List.foldl_nil]

end Plan

/-- Carrying out a plan on the tree of a text, whose nodes begin and end on character boundaries and
where the items of a list that keeps some follow one another, leaves bytes that can be read as a
text. So the code that a finished analysis ends with is what these bytes encode. -/
theorem apply_decodable (t : Tree) (p : Plan) (code : String) (hfits : t.FitsText code)
    (hitems : ∀ l ∈ p.markedLists t, ¬ l.IsFull t →
      (l.items t).Pairwise fun a b => t.stop a ≤ t.start b) :
    (∃ after, Bytes.text? (p.apply t).source = some after) ∧
      ∀ a : Analysis, a.plan = p →
        Bytes.text? (p.apply t).source = some (Transformed.ofAnalysis t code a).code := by
  have hencoded : IsEncoded (p.apply t).source := by
    have haligned : ∀ k ∈ (sweep (p.edits t)).kept, k.IsAligned code := fun k hk =>
      aligned_sweep (fun e he => Plan.edit_is_aligned hfits hitems he) hk
    rw [Plan.apply, hfits.source]
    exact splice_all_encoded haligned (clears_sweep _)
  obtain ⟨after, hafter⟩ := hencoded.exists_text
  refine ⟨⟨after, hafter⟩, fun a ha => ?_⟩
  subst ha
  unfold Transformed.ofAnalysis
  by_cases hempty : a.plan.IsEmpty
  · rw [if_pos hempty, Plan.apply_of_empty hempty, hfits.source]
    exact Bytes.text?_ofText code
  · rw [if_neg hempty, hafter]
    simp [Bytes.text, hafter]

/-- The text `m("é"); d(); var é,b; k(c);`. -/
def accentedText : String := "m(\"é\"); d(); var é,b; k(c);"

/-- The tree of `accentedText`. -/
def accentedLine : Tree :=
  (Tree.ofRows? (Bytes.ofText accentedText)
    #[⟨0, true, "program", 0, 29, none⟩,
      ⟨1, true, "expression_statement", 0, 8, none⟩,
      ⟨2, true, "call_expression", 0, 7, none⟩,
      ⟨3, true, "identifier", 0, 1, some "function"⟩,
      ⟨3, true, "arguments", 1, 7, some "arguments"⟩,
      ⟨4, true, "string", 2, 6, none⟩,
      ⟨1, true, "expression_statement", 9, 13, none⟩,
      ⟨2, true, "call_expression", 9, 12, none⟩,
      ⟨1, true, "variable_declaration", 14, 23, none⟩,
      ⟨2, true, "variable_declarator", 18, 20, none⟩,
      ⟨2, true, "variable_declarator", 21, 22, none⟩,
      ⟨1, true, "expression_statement", 24, 29, none⟩,
      ⟨2, true, "call_expression", 24, 28, none⟩,
      ⟨3, true, "identifier", 24, 25, some "function"⟩,
      ⟨3, true, "arguments", 25, 28, some "arguments"⟩,
      ⟨4, true, "identifier", 26, 27, none⟩]).get (by decide +kernel)

/-- Delete the second statement, remove the first item of the declaration, and replace the string
and the argument of the last call. -/
def accentedEntries : Plan := ⟨[6], [9], [(5, "ü"), (15, "ñ")]⟩

/-- All four edits are next to characters of several bytes or write one. What is left is the text
`m(ü); var b; k(ñ);`. -/
theorem accented_line_decoded :
    accentedLine.FitsText accentedText ∧
      (∃ after, Bytes.text? (accentedEntries.apply accentedLine).source = some after) ∧
      (accentedEntries.apply accentedLine).source = Bytes.ofText "m(ü); var b; k(ñ);" := by
  have hfits : accentedLine.FitsText accentedText :=
    ⟨by decide +kernel, by decide +kernel, by decide +kernel, by decide +kernel⟩
  have hitems : ∀ l ∈ accentedEntries.markedLists accentedLine, ¬ l.IsFull accentedLine →
      (l.items accentedLine).Pairwise fun a b => accentedLine.stop a ≤ accentedLine.start b := by
    decide +kernel
  refine ⟨hfits, (apply_decodable _ _ _ hfits hitems).1, ?_⟩
  have hsorted : ((accentedEntries.edits accentedLine).mergeSort fun a b => a.Before b) =
      [⟨2, 6, Bytes.ofText "ü", .replacement, 1⟩, ⟨8, 13, [], .statement, 1⟩,
        ⟨18, 21, [], .item, 1⟩, ⟨26, 27, Bytes.ofText "ñ", .replacement, 1⟩] :=
    merge_sort_eq_of_leads (Plan.edits_kind_by_kind accentedLine accentedEntries)
      (by decide +kernel) (by decide +kernel) (by decide +kernel)
  have hkept : (sweep (accentedEntries.edits accentedLine)).kept =
      (accentedEntries.edits accentedLine).mergeSort fun a b => a.Before b := by
    rw [sweep, hsorted]
    decide +kernel
  rw [Plan.apply, hkept, hsorted, splice_all_eq_substitute (by decide +kernel) (by decide +kernel)]
  decide +kernel

end Excise
