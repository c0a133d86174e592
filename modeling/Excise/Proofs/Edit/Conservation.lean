import Excise.Proofs.Edit.Requests

/-!
# Carrying out a plan takes nothing else

`apply_conserves`: where nodes lie in the source, and what a plan marks is not empty, carrying out
the plan substitutes texts for disjoint ranges of the source. Every byte of these ranges is one that
the plan may take (`Plan.Takes`): it is marked, stands beside an item that goes, or is a blank or a
line terminator that joins a deleted statement. All other bytes stay, in order.
-/

namespace Excise

namespace Plan

/-- The plan may take the byte at an offset out of the source. -/
inductive Takes (t : Tree) (p : Plan) (i : Nat) : Prop where
  | marked (n : Node) (records : p.Records n) (holds : t.Holds n i)
  | owner (l : MarkedList) (list : l ∈ p.markedLists t) (full : l.IsFull t)
      (holds : t.Holds (t.listOwner l.container) i)
  | gap (l : MarkedList) (list : l ∈ p.markedLists t) (keeps : ¬ l.IsFull t)
      (between : t.IsGapAt l.marked (l.items t) i)
  | joining (n : Node) (statement : n ∈ p.statements t) (free : ¬ t.FillsPlace n)
      (joins : t.JoinsStatement n i)

/-- The nodes of the tree lie in its source, what the plan marks is not empty, nor are the owners of
lists that lose all items, and the items of other lists follow one another. -/
structure FitsSource (t : Tree) (p : Plan) : Prop where
  nodes : ∀ n ∈ t.nodes, t.start n ≤ t.stop n ∧ t.stop n ≤ t.source.length
  marked : ∀ n, p.Records n → t.start n < t.stop n
  owners : ∀ l ∈ p.markedLists t, l.IsFull t →
    t.start (t.listOwner l.container) < t.stop (t.listOwner l.container)
  items : ∀ l ∈ p.markedLists t, ¬ l.IsFull t →
    (l.items t).Pairwise fun a b => t.stop a ≤ t.start b

/-- The edits that are carried out for a plan. -/
def keptEdits (t : Tree) (p : Plan) : List Edit := (sweep (p.edits t)).kept

variable {t : Tree} {p : Plan} {l : MarkedList} {n : Node} {e : Edit} {i : Nat}

/-- A node that is not empty lies in the source. -/
theorem FitsSource.stop_le (h : p.FitsSource t) (hn : t.start n < t.stop n) :
    t.stop n ≤ t.source.length := by
  rcases Nat.lt_or_ge n t.size with hlt | hge
  · exact (h.nodes n (List.mem_range.mpr hlt)).2
  · have hstop : t.stop n = 0 := Tree.stop_of_size_le hge
    omega

/-- A statement to delete is not empty. -/
theorem FitsSource.statement_nonempty (h : p.FitsSource t) (hn : n ∈ p.statements t) :
    t.start n < t.stop n := by
  rcases mem_statements.mp hn with hmarked | ⟨l, hl, hfull, rfl⟩
  · exact h.marked n (.inl hmarked)
  · exact h.owners l hl hfull

/-- The marked items of a list are not empty. -/
theorem FitsSource.item_nonempty (h : p.FitsSource t) (hl : l ∈ p.markedLists t)
    (hn : n ∈ l.marked) : t.start n < t.stop n :=
  h.marked n (.inr (.inl (marked_subset hl hn)))

/-- A node that is replaced is marked. -/
theorem records_of_replacement {r : Node × String} (h : r ∈ p.replacements) : p.Records r.1 :=
  .inr (.inr (List.mem_map_of_mem h))

/-- Every edit that a plan asks for has a range in the source that is not empty. -/
theorem FitsSource.edit_is_within (h : p.FitsSource t) (he : e ∈ p.edits t) :
    e.IsWithin t.source := by
  rcases mem_edits.mp he with ⟨l, hl, hkeeps, hcut⟩ | ⟨n, hn, rfl⟩ | ⟨r, hr, rfl⟩
  · refine (Tree.item_cut_of_mem hcut).is_within (fun b hb => ?_)
      (fun b hb hmarked => ?_)
      (h.items l hl hkeeps)
    · exact h.nodes b (List.mem_range.mpr (lt_size_of_mem_items hb))
    · exact h.item_nonempty hl hmarked
  · have hnonempty := h.statement_nonempty hn
    exact Tree.deletion_is_within hnonempty (h.stop_le hnonempty)
  · have hnonempty := h.marked r.1 (records_of_replacement hr)
    exact ⟨hnonempty, h.stop_le hnonempty⟩

/-- Every edit that a plan asks for writes nothing, the empty statement or a text of the plan. -/
theorem edit_text (he : e ∈ p.edits t) :
    e.text = [] ∨ e.text = Tree.emptyStatement ∨
      ∃ r ∈ p.replacements, e.text = Bytes.ofText r.2 := by
  rcases mem_edits.mp he with ⟨l, hl, hkeeps, hcut⟩ | ⟨n, hn, rfl⟩ | ⟨r, hr, rfl⟩
  · exact .inl (Tree.item_cut_of_mem hcut).text_eq
  · rcases Tree.text_of_deletion t n with hempty | hplace
    · exact .inl hempty
    · exact .inr (.inl hplace)
  · exact .inr (.inr ⟨r, hr, rfl⟩)

/-- Every edit that a plan asks for covers bytes that the plan may take. -/
theorem FitsSource.takes_of_covers (h : p.FitsSource t) (he : e ∈ p.edits t) (hi : e.Covers i) :
    p.Takes t i := by
  rcases mem_edits.mp he with ⟨l, hl, hkeeps, hcut⟩ | ⟨n, hn, rfl⟩ | ⟨r, hr, rfl⟩
  · rcases (Tree.item_cut_of_mem hcut).covered hi with ⟨b, hb, hholds⟩ | hgap
    · exact .marked b (.inr (.inl (marked_subset hl hb))) hholds
    · exact .gap l hl hkeeps hgap
  · have hnonempty := h.statement_nonempty hn
    have hstart := Nat.le_trans (Nat.le_of_lt hnonempty) (h.stop_le hnonempty)
    rcases Tree.covered_by_deletion hstart hi with hholds | ⟨hfree, hjoins⟩
    · rcases mem_statements.mp hn with hmarked | ⟨l, hl, hfull, rfl⟩
      · exact .marked n (.inl hmarked) hholds
      · exact .owner l hl hfull hholds
    · exact .joining n hn hfree hjoins
  · exact .marked r.1 (records_of_replacement hr) hi

/-- Every edit that is carried out has a range in the source that is not empty, if this is so for
those that the plan asks for. -/
theorem kept_is_within (hedits : ∀ e ∈ p.edits t, e.IsWithin t.source) (he : e ∈ p.keptEdits t) :
    e.IsWithin t.source := by
  have hgathered := gathered_sweep he
  obtain ⟨a, ha, hstart, hstop, -, -⟩ := hgathered.first
  have hnonempty : e.start < e.stop := by
    have := (hedits a ha).1
    omega
  -- The last byte of the range is in the range of an edit that the plan asks for.
  obtain ⟨b, hb, -, hlast⟩ := hgathered.covered (e.stop - 1) ⟨by omega, by omega⟩
  have hbound := (hedits b hb).2
  exact ⟨hnonempty, by omega⟩

/-- Carrying out a plan whose edits have ranges in the source substitutes their texts for disjoint
ranges of it. -/
theorem apply_substitutes (hedits : ∀ e ∈ p.edits t, e.IsWithin t.source) :
    (p.apply t).source = substitute t.source (p.keptEdits t) ∧
      (p.keptEdits t).Pairwise Edit.Precedes ∧
      ∀ e ∈ p.keptEdits t, e.IsWithin t.source := by
  have hdisjoint : (p.keptEdits t).Pairwise Edit.Precedes := pairwise_sweep (p.edits t)
  have hwithin : ∀ e ∈ p.keptEdits t, e.IsWithin t.source := fun e he => kept_is_within hedits he
  exact ⟨splice_all_eq_substitute hdisjoint hwithin, hdisjoint, hwithin⟩

end Plan

/-- Carrying out a plan substitutes texts for disjoint ranges of the source, from left to right. The
texts are empty, the empty statement or texts of the plan, the ranges hold bytes that the plan may
take and no others, and the bytes outside them stay in order. -/
theorem apply_conserves (t : Tree) (p : Plan) (h : p.FitsSource t) :
    (p.apply t).source = substitute t.source (p.keptEdits t) ∧
      (p.keptEdits t).Pairwise Edit.Precedes ∧
      (∀ e ∈ p.keptEdits t, e.IsWithin t.source ∧
        (e.text = [] ∨ e.text = Tree.emptyStatement ∨
          ∃ r ∈ p.replacements, e.text = Bytes.ofText r.2) ∧
        ∀ i, e.Covers i → p.Takes t i) ∧
      (bytesOutside (p.keptEdits t) t.source 0).Sublist (p.apply t).source := by
  obtain ⟨hsource, hdisjoint, hwithin⟩ := Plan.apply_substitutes fun e he => h.edit_is_within he
  refine ⟨hsource, hdisjoint, fun e he => ⟨hwithin e he, ?_, fun i hi => ?_⟩, ?_⟩
  · obtain ⟨a, ha, -, -, htext, -⟩ := (gathered_sweep he).first
    rw [← htext]
    exact Plan.edit_text ha
  · obtain ⟨a, ha, hcovers⟩ := (gathered_sweep he).covered i hi
    exact h.takes_of_covers ha hcovers
  · rw [hsource]
    exact bytes_outside_sublist hdisjoint hwithin

/-- The program `var a, b;`, `  f();` and `g(x);` on three lines. -/
def threeLines : Tree :=
  (Tree.ofRows? (Bytes.ofText "var a, b;\n  f();\ng(x);")
    #[⟨0, true, "program", 0, 22, none⟩,
      ⟨1, true, "variable_declaration", 0, 9, none⟩,
      ⟨2, true, "variable_declarator", 4, 5, none⟩,
      ⟨2, true, "variable_declarator", 7, 8, none⟩,
      ⟨1, true, "expression_statement", 12, 16, none⟩,
      ⟨1, true, "expression_statement", 17, 22, none⟩,
      ⟨2, true, "call_expression", 17, 21, none⟩,
      ⟨3, true, "identifier", 19, 20, none⟩]).get (by decide +kernel)

/-- Remove `a`, delete the second statement and replace `x`. -/
def threeEntries : Plan := ⟨[4], [2], [(7, "undefined")]⟩

/-- Of the three lines the plan leaves `var b;` and `g(undefined);`. -/
theorem three_lines_conserved :
    (threeEntries.apply threeLines).source = Bytes.ofText "var b;\ng(undefined);" ∧
      (bytesOutside (threeEntries.keptEdits threeLines) threeLines.source 0).Sublist
        (threeEntries.apply threeLines).source := by
  have hfits : threeEntries.FitsSource threeLines := by
    have hmarked : ∀ n ∈ threeEntries.deletions ++ threeEntries.items ++
        threeEntries.replacements.keys, threeLines.start n < threeLines.stop n := by
      decide +kernel
    refine ⟨by decide +kernel, fun n hn => hmarked n ?_, by decide +kernel, by decide +kernel⟩
    rw [List.mem_append, List.mem_append, or_assoc]
    exact hn
  obtain ⟨hsource, -, -, hsublist⟩ := apply_conserves threeLines threeEntries hfits
  have hordered : ((threeEntries.edits threeLines).mergeSort fun a b => a.Before b) =
      threeEntries.edits threeLines :=
    List.mergeSort_of_pairwise (by decide +kernel)
  refine ⟨?_, hsublist⟩
  rw [hsource, Plan.keptEdits, sweep, hordered]
  decide +kernel

end Excise
