import Excise.Proofs.Edit.Crossing
import Excise.Proofs.Edit.Order
import Excise.Proofs.Plan.Entry
import Excise.Proofs.Syntax.Nesting

/-!
# Nothing that is planned is lost

Carrying out a plan drops an edit that crosses one which writes a text. In a tree with nested ranges
this does not happen (`every_mark_applied`): an edit that writes a text has exactly the range of a
marked node, and no edit of the plan takes a part of a marked node alone (`not_breaks`). For the
blanks around a deleted statement this is so because a marked node begins and ends with other
bytes, and for the cuts of a list because they reach from an end of one item to an end of another.
All edits lie in the source (`edit_in_source`), so each of those kept is carried out on it.
-/

namespace Excise

/-- The byte at an offset is neither a blank nor ends a line. -/
def IsSolidAt (source : Bytes) (i : Nat) : Prop :=
  ∃ c ∈ source[i]?, ¬ IsBlankByte c ∧ ¬ IsTerminatorByte c

/-- The byte, if there is one, is compared. -/
instance (source : Bytes) (i : Nat) : Decidable (IsSolidAt source i) :=
  inferInstanceAs (Decidable (∃ c ∈ source[i]?, ¬ IsBlankByte c ∧ ¬ IsTerminatorByte c))

/-- Such a byte is no blank. -/
theorem IsSolidAt.not_blank {source : Bytes} {i : Nat} (h : IsSolidAt source i) :
    ¬ IsBlankAt source i := by
  rintro ⟨c, hc, hblank⟩
  obtain ⟨d, hd, hsolid, -⟩ := h
  exact hsolid (Option.mem_unique hc hd ▸ hblank)

/-- Such a byte ends no line. -/
theorem IsSolidAt.not_terminator {source : Bytes} {i : Nat} (h : IsSolidAt source i) :
    ¬ IsTerminatorAt source i := by
  rintro ⟨c, hc, hends⟩
  obtain ⟨d, hd, -, hsolid⟩ := h
  exact hsolid (Option.mem_unique hc hd ▸ hends)

namespace Tree

variable {t : Tree} {a b m n p s : Nat} {marked items : List Node} {e : Edit}

/-- The node is not empty, and begins and ends with a byte that is no whitespace. -/
structure IsSolid (t : Tree) (n : Node) : Prop where
  nonempty : t.start n < t.stop n
  first : IsSolidAt t.source (t.start n)
  last : IsSolidAt t.source (t.stop n - 1)

/-- The bytes at both ends decide it. -/
instance (t : Tree) (n : Node) : Decidable (t.IsSolid n) :=
  decidable_of_iff (t.start n < t.stop n ∧ IsSolidAt t.source (t.start n) ∧
      IsSolidAt t.source (t.stop n - 1))
    ⟨fun h => ⟨h.1, h.2.1, h.2.2⟩, fun h => ⟨h.nonempty, h.first, h.last⟩⟩

/-- A node that is not empty is a row of the tree. -/
theorem IsSolid.lt_size (h : t.IsSolid n) : n < t.size := by
  rcases Nat.lt_or_ge n t.size with hlt | hge
  · exact hlt
  · have hstop := h.nonempty
    rw [stop_of_size_le hge] at hstop
    exact absurd hstop (Nat.not_lt_zero _)

/-- Such a node ends in the source. -/
theorem IsSolid.stop_le (h : t.IsSolid n) : t.stop n ≤ t.source.length := by
  obtain ⟨c, hc, -⟩ := h.last
  have hlast := (List.getElem?_eq_some_iff.mp hc).1
  omega

/-- The range of bytes takes a part of the node and more, but not the whole node. -/
def Breaks (t : Tree) (start stop : Nat) (n : Node) : Prop :=
  (start < t.start n ∧ t.start n < stop ∧ stop < t.stop n) ∨
    (t.start n < start ∧ start < t.stop n ∧ t.stop n < stop)

namespace IsNested

variable (h : t.IsNested)

include h

/-- A node that has an end of another strictly inside is around it. -/
theorem around_of_end_inside {i : Nat} (hm : m < t.size) (hn : n < t.size)
    (hend : i = t.start m ∨ i = t.stop m) (hstart : t.start n < i) (hstop : i < t.stop n) :
    t.Within m n ∧ m ≠ n := by
  have hm' := h.start_le_stop m
  constructor
  · rcases h.cases hm hn with hwithin | hwithin | hapart
    · exact hwithin
    · have := h.inside_of_within hwithin
      omega
    · omega
  · rintro rfl
    omega

/-- The range of a node breaks no node. -/
theorem node_breaks_none (hm : m < t.size) (hn : n < t.size) :
    ¬ t.Breaks (t.start m) (t.stop m) n := by
  rintro (⟨hbegins, hinside, hends⟩ | ⟨hbegins, hinside, hends⟩)
  · obtain ⟨hwithin, -⟩ := h.around_of_end_inside hm hn (.inr rfl) hinside hends
    have := h.inside_of_within hwithin
    omega
  · obtain ⟨hwithin, -⟩ := h.around_of_end_inside hm hn (.inl rfl) hbegins hinside
    have := h.inside_of_within hwithin
    omega

/-- A range from an end of one child of a node to an end of another breaks no node. -/
theorem siblings_break_none {start stop : Nat} (ha : t.parent? a = some p)
    (hb : t.parent? b = some p) (hn : n < t.size) (hstart : start = t.start a ∨ start = t.stop a)
    (hstop : stop = t.start b ∨ stop = t.stop b) : ¬ t.Breaks start stop n := by
  have ha' := h.start_le_stop a
  have hb' := h.start_le_stop b
  rintro (⟨hbegins, hinside, hends⟩ | ⟨hbegins, hinside, hends⟩)
  · -- The node is around the second child, hence around the first, where the range begins.
    obtain ⟨hwithin, hne⟩ := h.around_of_end_inside
      (lt_size_of_mem_ancestors (parent_mem_ancestors hb)) hn hstop hinside hends
    have := h.inside_of_within (within_of_sibling hb ha hwithin hne)
    omega
  · obtain ⟨hwithin, hne⟩ := h.around_of_end_inside
      (lt_size_of_mem_ancestors (parent_mem_ancestors ha)) hn hstart hbegins hinside
    have := h.inside_of_within (within_of_sibling ha hb hwithin hne)
    omega

/-- The items of a list follow one another. -/
theorem items_apart (l : MarkedList) :
    (l.items t).Pairwise fun a b => t.stop a ≤ t.start b := by
  unfold MarkedList.items
  cases l.marked.head? with
  | none => exact .nil
  | some first =>
      refine (t.named_children_of_kind_in_order _ _).imp_of_mem fun ha hb hlt => ?_
      exact h.siblings_apart (mem_named_children_of_kind.mp ha).1
        (mem_named_children_of_kind.mp hb).1 hlt

/-- A cut of a list breaks no node. -/
theorem cut_breaks_none (hcut : t.ItemCut marked items e)
    (hitems : ∀ i ∈ items, t.parent? i = some p) (hn : n < t.size) :
    ¬ t.Breaks e.start e.stop n := by
  cases hcut with
  | @single front item next rest split goes edit =>
      subst edit
      exact h.siblings_break_none (hitems item (by simp [split])) (hitems next (by simp [split]))
        hn (.inl rfl) (.inl rfl)
  | @trailing front item rest split stays others go edit =>
      subst edit
      have hlast := List.getLast_mem others
      exact h.siblings_break_none (hitems item (by simp [split]))
        (hitems _ (by simp [split, hlast])) hn (.inr rfl) (.inr rfl)

/-- The deletion of a statement does not break a node that begins and ends with bytes other than
whitespace, if the statement lies strictly inside the node where it is inside it at all. -/
theorem deletion_breaks_none (hs : s < t.size) (hsource : t.start s ≤ t.source.length)
    (hn : t.IsSolid n)
    (hstrict : n ∈ t.ancestors s → t.start n < t.start s ∧ t.stop s < t.stop n) :
    ¬ t.Breaks (t.deleteStatement s).start (t.deleteStatement s).stop n := by
  by_cases hfills : t.FillsPlace s
  · rw [delete_statement_of_fills hfills]
    exact h.node_breaks_none hs hn.lt_size
  · rw [delete_statement_of_not_fills hfills]
    obtain ⟨-, hstart, hstop, -⟩ := line_extent_bounds t.source (t.start s) (t.stop s)
    have hs' := h.start_le_stop s
    have hn' := hn.nonempty
    -- Beside the statement the range holds whitespace, with which the node does not begin or end.
    have hbefore : ∀ i, (lineExtent t.source (t.start s) (t.stop s)).1 ≤ i → i < t.start s →
        ¬ IsSolidAt t.source i := fun i hi hlt hsolid =>
      hsolid.not_blank (blank_before_statement hsource hi hlt)
    have hafter : ∀ i, t.stop s ≤ i → i < (lineExtent t.source (t.start s) (t.stop s)).2 →
        ¬ IsSolidAt t.source i := fun i hi hlt hsolid =>
      (blank_after_statement hi hlt).elim hsolid.not_blank hsolid.not_terminator
    -- So an end of the statement is inside the node.
    rintro (⟨hbegins, hinside, hends⟩ | ⟨hbegins, hinside, hends⟩) <;>
      dsimp only at hbegins hinside hends
    · have hfirst : t.start s ≤ t.start n := Nat.le_of_not_lt fun hlt =>
        hbefore _ (Nat.le_of_lt hbegins) hlt hn.first
      have hlast : t.start n < t.stop s := Nat.lt_of_not_le fun hle =>
        hafter _ hle hinside hn.first
      obtain ⟨hwithin, hne⟩ :=
        h.around_of_end_inside hs hn.lt_size (.inr rfl) hlast (by omega)
      have := hstrict ((within_iff.mp hwithin).resolve_left hne)
      omega
    · have hfirst : t.start s < t.stop n := Nat.lt_of_not_le fun hle =>
        hbefore (t.stop n - 1) (by omega) (by omega) hn.last
      have hlast : t.stop n ≤ t.stop s := Nat.le_of_not_lt fun hlt =>
        hafter (t.stop n - 1) (by omega) (by omega) hn.last
      obtain ⟨hwithin, hne⟩ :=
        h.around_of_end_inside hs hn.lt_size (.inl rfl) (by omega) hfirst
      have := hstrict ((within_iff.mp hwithin).resolve_left hne)
      omega

end IsNested

end Tree

namespace Plan

variable {t : Tree} {p : Plan} {l : MarkedList} {n : Nat} {e : Edit}

/-- The plan marks the node: it deletes the statement, be it for a list that loses all its items,
removes the item from its list, or replaces the expression. -/
inductive Marks (t : Tree) (p : Plan) (n : Node) : Prop where
  | statement (deleted : n ∈ p.statements t)
  | item (c : Node) (listed : n ∈ t.namedChildren c) (removed : n ∈ p.items)
  | replacement (replaced : n ∈ p.replacements.keys)

/-- What the plan marks is not empty and begins and ends with bytes other than whitespace, and so
are the items of a list with marked ones; the items that it removes from one list are of one kind;
and a statement that it deletes inside another marked node lies strictly inside it. -/
structure MarksSolidly (t : Tree) (p : Plan) : Prop where
  solid : ∀ n, p.Marks t n → t.IsSolid n
  items : ∀ l ∈ p.markedLists t, ∀ i ∈ l.items t, t.IsSolid i
  one_kind : ∀ i ∈ p.items, ∀ j ∈ p.items, (t.parent? i).isSome → t.parent? i = t.parent? j →
    t.kind i = t.kind j
  strict : ∀ s ∈ p.statements t, ∀ n, p.Marks t n → n ∈ t.ancestors s →
    t.start n < t.start s ∧ t.stop s < t.stop n

/-- Every edit that a plan asks for writes nothing or has exactly the range of a marked node. -/
theorem edit_range (he : e ∈ p.edits t) :
    e.text = [] ∨ ∃ n, p.Marks t n ∧ e.start = t.start n ∧ e.stop = t.stop n := by
  rcases mem_edits.mp he with ⟨l, hl, hkeeps, hcut⟩ | ⟨n, hn, rfl⟩ | ⟨r, hr, rfl⟩
  · exact .inl (Tree.item_cut_of_mem hcut).text_eq
  · by_cases hfills : t.FillsPlace n
    · rw [Tree.delete_statement_of_fills hfills]
      exact .inr ⟨n, .statement hn, rfl, rfl⟩
    · rw [Tree.delete_statement_of_not_fills hfills]
      exact .inl rfl
  · exact .inr ⟨r.1, .replacement (List.mem_map_of_mem hr), rfl, rfl⟩

/-- The deletion of a statement spans it. -/
theorem deletion_spans (t : Tree) (n : Node) :
    (t.deleteStatement n).start ≤ t.start n ∧ t.stop n ≤ (t.deleteStatement n).stop := by
  by_cases hfills : t.FillsPlace n
  · rw [Tree.delete_statement_of_fills hfills]
    exact ⟨Nat.le_refl _, Nat.le_refl _⟩
  · rw [Tree.delete_statement_of_not_fills hfills]
    obtain ⟨-, hstart, hstop, -⟩ := line_extent_bounds t.source (t.start n) (t.stop n)
    exact ⟨hstart, hstop⟩

section Nested

variable (hnested : t.IsNested) (hmarks : p.MarksSolidly t)

include hnested hmarks

/-- No edit of the plan takes a part of a marked node alone. -/
theorem not_breaks (he : e ∈ p.edits t) (hn : p.Marks t n) : ¬ t.Breaks e.start e.stop n := by
  have hsolid := hmarks.solid n hn
  rcases mem_edits.mp he with ⟨l, hl, hkeeps, hcut⟩ | ⟨s, hs, rfl⟩ | ⟨r, hr, rfl⟩
  · exact hnested.cut_breaks_none (Tree.item_cut_of_mem hcut)
      (fun _ hi => parent_of_mem_items hi) hsolid.lt_size
  · have hstatement := hmarks.solid s (.statement hs)
    obtain ⟨c, hc, -⟩ := hstatement.first
    have hsource := (List.getElem?_eq_some_iff.mp hc).1
    exact hnested.deletion_breaks_none hstatement.lt_size (Nat.le_of_lt hsource) hsolid
      (hmarks.strict s hs n hn)
  · have hreplaced := hmarks.solid r.1 (.replacement (List.mem_map_of_mem hr))
    exact hnested.node_breaks_none hreplaced.lt_size hsolid.lt_size

/-- Of two edits of the plan that cross both only delete. -/
theorem only_deletions_cross : OnlyDeletionsCross (p.edits t) := by
  intro a ha b hb hcross
  obtain ⟨hstart, hinside, hstop⟩ := hcross
  constructor
  · rcases edit_range ha with htext | ⟨n, hn, hfirst, hlast⟩
    · exact htext
    · refine absurd (.inr ?_) (not_breaks hnested hmarks hb hn)
      rw [← hfirst, ← hlast]
      exact ⟨hstart, hinside, hstop⟩
  · rcases edit_range hb with htext | ⟨n, hn, hfirst, hlast⟩
    · exact htext
    · refine absurd (.inl ?_) (not_breaks hnested hmarks ha hn)
      rw [← hfirst, ← hlast]
      exact ⟨hstart, hinside, hstop⟩

/-- Every edit of the plan has a range in the source that is not empty. -/
theorem edit_in_source (he : e ∈ p.edits t) : e.IsWithin t.source := by
  rcases mem_edits.mp he with ⟨l, hl, hkeeps, hcut⟩ | ⟨n, hn, rfl⟩ | ⟨r, hr, rfl⟩
  · have hsolid := hmarks.items l hl
    exact (Tree.item_cut_of_mem hcut).is_within
      (fun b hb => ⟨Nat.le_of_lt (hsolid b hb).nonempty, (hsolid b hb).stop_le⟩)
      (fun b hb _ => (hsolid b hb).nonempty) (hnested.items_apart l)
  · have hsolid := hmarks.solid n (.statement hn)
    exact Tree.deletion_is_within hsolid.nonempty hsolid.stop_le
  · have hsolid := hmarks.solid r.1 (.replacement (List.mem_map_of_mem hr))
    exact ⟨hsolid.nonempty, hsolid.stop_le⟩

/-- The plan asks for an edit that spans a marked item of a list: the deletion of the statement that
owns the list, if this loses all its items, or a cut. -/
theorem exists_item_edit {c : Node} (hlisted : n ∈ t.namedChildren c) (hn : n ∈ p.items) :
    ∃ e ∈ p.edits t, e.start ≤ t.start n ∧ t.stop n ≤ e.stop := by
  obtain ⟨hparent, hnamed⟩ := Tree.mem_named_children.mp hlisted
  obtain ⟨l, hl, rfl⟩ := exists_marked_list hn hparent
  by_cases hfull : l.IsFull t
  · have howner : t.listOwner l.container ∈ p.statements t :=
      mem_statements.mpr (.inr ⟨l, hl, hfull, rfl⟩)
    have hwithin := Tree.within_trans (Tree.within_parent hparent) Tree.within_list_owner
    have hinside := hnested.inside_of_within hwithin
    have hspans := deletion_spans t (t.listOwner l.container)
    exact ⟨_, mem_edits.mpr (.inr (.inl ⟨_, howner, rfl⟩)), Nat.le_trans hspans.1 hinside.1,
      Nat.le_trans hinside.2 hspans.2⟩
  · obtain ⟨first, hfirst, hcontainer, hitems⟩ := exists_first_marked hl
    have hkind : t.kind n = t.kind first :=
      hmarks.one_kind n hn first hfirst (by simp [hparent]) (hparent.trans hcontainer.symm)
    have hitem : n ∈ l.items t := by
      rw [hitems]
      exact Tree.mem_named_children_of_kind.mpr ⟨hparent, hnamed, hkind⟩
    have hstays : ∃ j ∈ l.items t, j ∉ l.marked := by
      simpa [MarkedList.IsFull] using hfull
    obtain ⟨e, he, hspans⟩ := Tree.exists_cut hitem ((mem_marked hl).mpr ⟨hn, hparent⟩) hstays
      (fun b _ => hnested.start_le_stop b) (hnested.items_apart l)
    exact ⟨e, mem_edits.mpr (.inl ⟨l, hl, hfull, he⟩), hspans⟩

/-- The plan asks for an edit that spans a marked node. -/
theorem exists_edit (hn : p.Marks t n) :
    ∃ e ∈ p.edits t, e.start ≤ t.start n ∧ t.stop n ≤ e.stop := by
  cases hn with
  | statement deleted =>
      exact ⟨_, mem_edits.mpr (.inr (.inl ⟨n, deleted, rfl⟩)), deletion_spans t n⟩
  | item c listed removed => exact exists_item_edit hnested hmarks listed removed
  | replacement replaced =>
      obtain ⟨r, hr, rfl⟩ := List.mem_map.mp replaced
      exact ⟨_, mem_edits.mpr (.inr (.inr ⟨r, hr, rfl⟩)), Nat.le_refl _, Nat.le_refl _⟩

end Nested

end Plan

/-- Carrying out a plan on a tree with nested ranges substitutes the texts of the edits that it
keeps for their ranges, which are disjoint ranges of the source. It reports no overlap, and the
range of every node that the plan marks lies inside one of these edits. -/
theorem every_mark_applied (t : Tree) (p : Plan) (hnested : t.IsNested)
    (hmarks : p.MarksSolidly t) :
    (p.apply t).source = substitute t.source (p.keptEdits t) ∧
      (p.keptEdits t).Pairwise Edit.Precedes ∧
      (∀ e ∈ p.keptEdits t, e.IsWithin t.source) ∧
      (∀ kind start previous, .overlapping kind start previous ∉ (p.apply t).log) ∧
      ∀ n, p.Marks t n → ∃ e ∈ p.keptEdits t, e.start ≤ t.start n ∧ t.stop n ≤ e.stop := by
  obtain ⟨hsource, hdisjoint, hwithin⟩ :=
    Plan.apply_substitutes fun e he => Plan.edit_in_source hnested hmarks he
  obtain ⟨hlog, hspanned⟩ := sweep_drops_none (Plan.only_deletions_cross hnested hmarks)
  refine ⟨hsource, hdisjoint, hwithin, hlog, fun n hn => ?_⟩
  obtain ⟨e, he, hstart, hstop⟩ := Plan.exists_edit hnested hmarks hn
  obtain ⟨k, hk, hfirst, hlast⟩ := hspanned e he
  exact ⟨k, hk, Nat.le_trans hfirst hstart, Nat.le_trans hstop hlast⟩

/-- The program `a(); b(); x=()=>{f();};`. -/
def oneLine : Tree :=
  (Tree.ofRows? (Bytes.ofText "a(); b(); x=()=>\x7bf();\x7d;")
    #[⟨0, true, "program", 0, 23, none⟩,
      ⟨1, true, "expression_statement", 0, 4, none⟩,
      ⟨2, true, "call_expression", 0, 3, none⟩,
      ⟨1, true, "expression_statement", 5, 9, none⟩,
      ⟨2, true, "call_expression", 5, 8, none⟩,
      ⟨1, true, "expression_statement", 10, 23, none⟩,
      ⟨2, true, "assignment_expression", 10, 22, none⟩,
      ⟨3, true, "identifier", 10, 11, some "left"⟩,
      ⟨3, true, "arrow_function", 12, 22, some "right"⟩,
      ⟨4, true, "statement_block", 16, 22, some "body"⟩,
      ⟨5, true, "expression_statement", 17, 21, none⟩,
      ⟨6, true, "call_expression", 17, 20, none⟩]).get (by decide +kernel)

/-- Delete the first two statements and the one in the function, and replace the function. -/
def crossingEntries : Plan := ⟨[1, 3, 10], [], [(8, "undefined")]⟩

/-- The first two deletions overlap in the blank between the statements, and the third is inside the
replacement. All are carried out or inside what is, and a blank and `x=undefined;` are left. -/
theorem one_line_applied :
    (oneLine.IsNested ∧ crossingEntries.MarksSolidly oneLine) ∧
      (crossingEntries.apply oneLine).source =
        substitute oneLine.source (crossingEntries.keptEdits oneLine) ∧
      (crossingEntries.apply oneLine).source = Bytes.ofText " x=undefined;" ∧
      (∀ kind start previous,
        .overlapping kind start previous ∉ (crossingEntries.apply oneLine).log) ∧
      ∀ n ∈ [1, 3, 8, 10], ∃ e ∈ crossingEntries.keptEdits oneLine,
        e.start ≤ oneLine.start n ∧ oneLine.stop n ≤ e.stop := by
  have hnested : oneLine.IsNested := ⟨by decide +kernel, by decide +kernel, by decide +kernel⟩
  have hmem : ∀ n, crossingEntries.Marks oneLine n → n ∈ [1, 3, 8, 10] := by
    have hstatements : ∀ n ∈ crossingEntries.statements oneLine, n ∈ [1, 3, 8, 10] := by
      decide +kernel
    intro n hn
    cases hn with
    | statement deleted => exact hstatements n deleted
    | item _ _ removed => exact absurd removed List.not_mem_nil
    | replacement replaced =>
        obtain rfl := List.mem_singleton.mp replaced
        decide
  have hsolid : ∀ n ∈ [1, 3, 8, 10], oneLine.IsSolid n := by decide +kernel
  have hstrict : ∀ s ∈ crossingEntries.statements oneLine, ∀ n ∈ [1, 3, 8, 10],
      n ∈ oneLine.ancestors s →
        oneLine.start n < oneLine.start s ∧ oneLine.stop s < oneLine.stop n := by
    decide +kernel
  have hmarks : crossingEntries.MarksSolidly oneLine :=
    ⟨fun n hn => hsolid n (hmem n hn), fun l hl => absurd hl List.not_mem_nil,
      fun i hi => absurd hi List.not_mem_nil, fun s hs n hn => hstrict s hs n (hmem n hn)⟩
  obtain ⟨hsource, -, -, hlog, hspanned⟩ :=
    every_mark_applied oneLine crossingEntries hnested hmarks
  have hordered : ((crossingEntries.edits oneLine).mergeSort fun a b => a.Before b) =
      [oneLine.deleteStatement 1, oneLine.deleteStatement 3,
        ⟨12, 22, Bytes.ofText "undefined", .replacement, 1⟩, oneLine.deleteStatement 10] :=
    merge_sort_eq_of_leads (Plan.edits_kind_by_kind _ _) (by decide +kernel) (by decide +kernel)
      (by decide +kernel)
  have hresult : (crossingEntries.apply oneLine).source = Bytes.ofText " x=undefined;" := by
    rw [hsource, Plan.keptEdits, sweep, hordered]
    decide +kernel
  refine ⟨⟨hnested, hmarks⟩, hsource, hresult, hlog, fun n hn => hspanned n ?_⟩
  by_cases hreplaced : n = 8
  · exact .replacement (List.mem_singleton.mpr hreplaced)
  · refine .statement ?_
    have hdeleted : ∀ n ∈ [1, 3, 8, 10], n ≠ 8 → n ∈ crossingEntries.statements oneLine := by
      decide +kernel
    exact hdeleted n hn hreplaced

end Excise
