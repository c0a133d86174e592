import Excise.Proofs.Edit.Retention
import Mathlib.Algebra.Order.Ring.Nat

/-!
# Splitting a list

A plan that marks items of one list and nothing else takes exactly these out. Where some items stay,
what is left of the list is these items in their order, each but the last with the separator that
followed it (`Tree.substitute_cuts`); the cuts are disjoint, so the sweep keeps all of them
(`sweep_of_disjoint`). Where none stays, the statement that owns the list goes. `apply_splits_list`
is the main statement.
-/

namespace Excise

/-! ## Sweeps of disjoint edits -/

section Sweep

variable {e : Edit} {rest edits : List Edit}

/-- A sweep keeps edits that follow one another. -/
theorem sweep_from_disjoint (h : (e :: rest).Pairwise Edit.Precedes) :
    sweepFrom e rest = ⟨e :: rest, []⟩ := by
  induction rest generalizing e with
  | nil => rfl
  | cons next rest ih =>
      obtain ⟨hfirst, hothers⟩ := List.pairwise_cons.mp h
      have hnext : e.stop ≤ next.start := hfirst next List.mem_cons_self
      rw [sweepFrom, if_pos hnext, ih hothers]

/-- A sweep keeps all of some edits that follow one another and are not empty. -/
theorem sweep_of_disjoint (hdisjoint : edits.Pairwise Edit.Precedes)
    (hnonempty : ∀ e ∈ edits, e.start < e.stop) : sweep edits = ⟨edits, []⟩ := by
  have hordered : edits.Pairwise fun a b => decide (a.Before b) = true := by
    refine hdisjoint.imp_of_mem fun {a b} ha _ hab => decide_eq_true (.inl ?_)
    exact Nat.lt_of_lt_of_le (hnonempty a ha) hab
  rw [sweep, List.mergeSort_of_pairwise hordered]
  cases edits with
  | nil => rfl
  | cons e rest => exact sweep_from_disjoint hdisjoint

/-- Counting cuts of items adds up what they cut. -/
theorem foldl_add_of_items (h : ∀ e ∈ edits, e.kind = .item) (s : Tally) :
    edits.foldl Tally.add s =
      ⟨s.statements, s.items + (edits.map Edit.count).sum, s.replacements⟩ := by
  induction edits generalizing s with
  | nil => rfl
  | cons e rest ih =>
      obtain ⟨he, hrest⟩ := List.forall_mem_cons.mp h
      have hadd : s.add e = { s with items := s.items + e.count } := by rw [Tally.add, he]
      rw [List.foldl_cons, ih hrest, hadd, List.map_cons, List.sum_cons, Nat.add_assoc]

end Sweep

namespace Tree

variable {t : Tree} {item next : Node} {items marked rest : List Node} {e : Edit} {offset : Nat}

/-- The items of a list are not empty, follow one another and are in the source. -/
structure IsSpaced (t : Tree) (items : List Node) : Prop where
  nonempty : ∀ n ∈ items, t.start n < t.stop n
  inside : ∀ n ∈ items, t.stop n ≤ t.source.length
  apart : items.Pairwise fun a b => t.stop a ≤ t.start b

/-- Every item with the text between it and the next one. -/
def withSeparators (t : Tree) : List Node → List (Node × Bytes)
  | [] => []
  | [item] => [(item, [])]
  | item :: next :: rest =>
      (item, t.source.slice (t.stop item) (t.start next)) :: withSeparators t (next :: rest)

/-- The texts of items, each but the last followed by its separator. -/
def joined (t : Tree) : List (Node × Bytes) → Bytes
  | [] => []
  | [(item, _)] => t.source.slice (t.start item) (t.stop item)
  | (item, separator) :: next :: rest =>
      t.source.slice (t.start item) (t.stop item) ++ separator ++ joined t (next :: rest)

/-- What is left of a list without the marked items. -/
def leftOf (t : Tree) (marked items : List Node) : Bytes :=
  t.joined ((t.withSeparators items).filter fun x => x.1 ∉ marked)

/-- The items after the first are spaced too. -/
theorem IsSpaced.tail (h : t.IsSpaced (item :: rest)) : t.IsSpaced rest where
  nonempty n hn := h.nonempty n (List.mem_cons_of_mem item hn)
  inside n hn := h.inside n (List.mem_cons_of_mem item hn)
  apart := (List.pairwise_cons.mp h.apart).2

/-- The first item ends before the second begins. -/
theorem IsSpaced.stop_le_start (h : t.IsSpaced (item :: next :: rest)) :
    t.stop item ≤ t.start next :=
  (List.pairwise_cons.mp h.apart).1 next List.mem_cons_self

/-! ## What is left -/

/-- The items with separators are the items. -/
theorem map_fst_with_separators (t : Tree) (items : List Node) :
    (t.withSeparators items).map (·.1) = items := by
  fun_induction withSeparators t items with
  | case1 => rfl
  | case2 item => rfl
  | case3 item next rest ih => rw [List.map_cons, ih]

/-- The first of two items or more comes with the text up to the second. -/
theorem with_separators_cons (t : Tree) (item next : Node) (rest : List Node) :
    t.withSeparators (item :: next :: rest) =
      (item, t.source.slice (t.stop item) (t.start next)) :: t.withSeparators (next :: rest) :=
  rfl

/-- Nothing is left where all items are marked. -/
theorem filter_with_separators_eq_nil (h : ∀ i ∈ items, i ∈ marked) :
    (t.withSeparators items).filter (fun x => x.1 ∉ marked) = [] := by
  refine List.filter_eq_nil_iff.mpr fun x hx hstays => of_decide_eq_true hstays (h x.1 ?_)
  rw [← map_fst_with_separators t items]
  exact List.mem_map_of_mem hx

/-- Something is left where an item is not marked. -/
theorem filter_with_separators_ne_nil (h : ∃ i ∈ items, i ∉ marked) :
    (t.withSeparators items).filter (fun x => x.1 ∉ marked) ≠ [] := by
  obtain ⟨i, hi, hstays⟩ := h
  rw [← map_fst_with_separators t items] at hi
  obtain ⟨x, hx, rfl⟩ := List.mem_map.mp hi
  exact List.ne_nil_of_mem (List.mem_filter.mpr ⟨hx, decide_eq_true hstays⟩)

/-- A marked item leaves nothing. -/
theorem left_of_cons_marked (h : item ∈ marked) : t.leftOf marked (item :: rest) =
    t.leftOf marked rest := by
  cases rest with
  | nil => simp [leftOf, withSeparators, h]
  | cons next rest => simp [leftOf, withSeparators, h]

/-- The last item that stays leaves its text. -/
theorem left_of_cons_last (hstays : item ∉ marked) (h : ∀ i ∈ rest, i ∈ marked) :
    t.leftOf marked (item :: rest) = t.source.slice (t.start item) (t.stop item) := by
  cases rest with
  | nil => simp [leftOf, withSeparators, hstays, joined]
  | cons next rest =>
      rw [leftOf, with_separators_cons, List.filter_cons_of_pos (by simpa using hstays),
        filter_with_separators_eq_nil h, joined]

/-- An item that stays before another one leaves its text and its separator. -/
theorem left_of_cons_kept (hstays : item ∉ marked) (h : ∃ i ∈ next :: rest, i ∉ marked) :
    t.leftOf marked (item :: next :: rest) =
      t.source.slice (t.start item) (t.stop item) ++
        t.source.slice (t.stop item) (t.start next) ++ t.leftOf marked (next :: rest) := by
  rw [leftOf, with_separators_cons, List.filter_cons_of_pos (by simpa using hstays), leftOf]
  cases hleft : (t.withSeparators (next :: rest)).filter fun x => x.1 ∉ marked with
  | nil => exact absurd hleft (filter_with_separators_ne_nil h)
  | cons x others => rw [joined]

/-! ## The cuts -/

/-- Two slices that meet are one. -/
theorem slice_append_slice {source : Bytes} {start middle stop : Nat} (hstart : start ≤ middle)
    (hstop : middle ≤ stop) :
    source.slice start middle ++ source.slice middle stop = source.slice start stop := by
  have hwhole : source.drop start = source.slice start stop ++ source.drop stop :=
    drop_eq_slice_append (Nat.le_trans hstart hstop)
  rw [drop_eq_slice_append hstart, drop_eq_slice_append hstop, ← List.append_assoc] at hwhole
  exact List.append_cancel_right hwhole

/-- No cut of a list starts before its first item. -/
theorem start_le_of_mem_cuts (hspaced : t.IsSpaced (item :: rest))
    (he : e ∈ t.cutItems marked (item :: rest)) : t.start item ≤ e.start := by
  have hfirst : ∀ n ∈ item :: rest, t.start item ≤ t.start n := by
    intro n hn
    rcases List.mem_cons.mp hn with rfl | hn
    · exact Nat.le_refl _
    · exact Nat.le_trans (Nat.le_of_lt (hspaced.nonempty item List.mem_cons_self))
        ((List.pairwise_cons.mp hspaced.apart).1 n hn)
  cases item_cut_of_mem he with
  | @single front cut after others split goes edit =>
      rw [edit]
      exact hfirst cut (by simp [split])
  | @trailing front last others split stays hothers go edit =>
      have hlast : last ∈ item :: rest := by simp [split]
      rw [edit]
      exact Nat.le_trans (hfirst last hlast) (Nat.le_of_lt (hspaced.nonempty last hlast))

/-- The cuts of a list follow one another. -/
theorem pairwise_cuts (hspaced : t.IsSpaced items) :
    (t.cutItems marked items).Pairwise Edit.Precedes := by
  induction items with
  | nil => exact List.Pairwise.nil
  | cons item rest ih =>
      have hrest := ih hspaced.tail
      rw [cutItems]
      split
      case isTrue hgoes =>
        split
        case isTrue hstays =>
          refine List.pairwise_cons.mpr ⟨fun e he => ?_, hrest⟩
          cases rest with
          | nil => simp at hstays
          | cons next rest => exact start_le_of_mem_cuts hspaced.tail he
        case isFalse => exact List.Pairwise.nil
      case isFalse hstays =>
        split
        case isTrue hgo => exact List.pairwise_singleton _ _
        case isFalse => exact hrest

/-- The cuts of a list have ranges in the source that are not empty. -/
theorem cuts_within (hspaced : t.IsSpaced items) (he : e ∈ t.cutItems marked items) :
    e.IsWithin t.source :=
  (item_cut_of_mem he).is_within
    (fun n hn => ⟨Nat.le_of_lt (hspaced.nonempty n hn), hspaced.inside n hn⟩)
    (fun n hn _ => hspaced.nonempty n hn) hspaced.apart

/-- Where some items stay, the cuts count the items that go. -/
theorem sum_counts (hstays : ∃ i ∈ items, i ∉ marked) :
    ((t.cutItems marked items).map Edit.count).sum = (items.filter (· ∈ marked)).length := by
  induction items with
  | nil => simp at hstays
  | cons item rest ih =>
      rw [cutItems]
      by_cases hgoes : item ∈ marked
      · have hrest : ∃ i ∈ rest, i ∉ marked := by simpa [hgoes] using hstays
        rw [if_pos hgoes, if_pos hrest, List.map_cons, List.sum_cons, ih hrest,
          List.filter_cons_of_pos (by simpa using hgoes), List.length_cons, Nat.add_comm]
      · rw [if_neg hgoes, List.filter_cons_of_neg (by simpa using hgoes)]
        by_cases hlast : ∀ i ∈ rest, i ∈ marked
        · have hall : rest.filter (· ∈ marked) = rest :=
            List.filter_eq_self.mpr fun i hi => decide_eq_true (hlast i hi)
          rw [hall]
          cases rest with
          | nil => rfl
          | cons next rest => rw [if_pos ⟨List.cons_ne_nil next rest, hlast⟩]; rfl
        · rw [if_neg fun h => hlast h.2]
          exact ih (by simpa using hlast)

/-- Behind the last item that stays, the list is cut up to its end. -/
theorem substitute_last {last : Node} (hstays : item ∉ marked) (hall : ∀ i ∈ rest, i ∈ marked)
    (hlast : (item :: rest).getLast? = some last) (hoffset : offset ≤ t.stop item) :
    substituteFrom t.source offset (t.cutItems marked (item :: rest)) =
      t.source.slice offset (t.stop item) ++ t.source.drop (t.stop last) := by
  rw [cutItems, if_neg hstays]
  cases rest with
  | nil =>
      obtain rfl : item = last := by simpa using hlast
      rw [if_neg fun h => h.1 rfl, cutItems, substituteFrom]
      exact drop_eq_slice_append hoffset
  | cons next others =>
      rw [List.getLast?_cons_cons] at hlast
      rw [if_pos ⟨List.cons_ne_nil next others, hall⟩, substituteFrom, substituteFrom,
        List.append_nil, hlast]
      rfl

/-- Where some items stay, the source with the list cut is the source up to the first item, what is
left of the list, and the source from the end of the last item on. -/
theorem substitute_cuts {first last : Node} (hspaced : t.IsSpaced items)
    (hfirst : items.head? = some first) (hlast : items.getLast? = some last)
    (hstays : ∃ i ∈ items, i ∉ marked) (hoffset : offset ≤ t.start first) :
    substituteFrom t.source offset (t.cutItems marked items) =
      t.source.slice offset (t.start first) ++ t.leftOf marked items ++
        t.source.drop (t.stop last) := by
  -- From item to item, with all of the source from the offset on still to come.
  induction items generalizing offset first with
  | nil => simp at hstays
  | cons item rest ih =>
      obtain rfl : item = first := by simpa using hfirst
      have hnonempty := Nat.le_of_lt (hspaced.nonempty item List.mem_cons_self)
      by_cases hgoes : item ∈ marked
      · -- The item goes up to the next one, and with it nothing that stays.
        have hrest : ∃ i ∈ rest, i ∉ marked := by simpa [hgoes] using hstays
        obtain ⟨next, others, rfl⟩ := List.exists_cons_of_ne_nil
          (List.ne_nil_of_mem hrest.choose_spec.1)
        rw [List.getLast?_cons_cons] at hlast
        rw [cutItems, if_pos hgoes, if_pos hrest, left_of_cons_marked hgoes, substituteFrom,
          List.append_nil]
        dsimp only [List.head?_cons, Option.map_some, Option.getD_some]
        rw [ih hspaced.tail rfl hlast hrest (Nat.le_refl _),
          Bytes.slice_of_le _ (Nat.le_refl _), List.nil_append, ← List.append_assoc]
      by_cases hall : ∀ i ∈ rest, i ∈ marked
      · -- The item is the last that stays.
        rw [substitute_last hgoes hall hlast (Nat.le_trans hoffset hnonempty),
          left_of_cons_last hgoes hall, slice_append_slice hoffset hnonempty]
      · -- The item stays with its separator, before another one that stays.
        have hrest : ∃ i ∈ rest, i ∉ marked := by simpa using hall
        obtain ⟨next, others, rfl⟩ := List.exists_cons_of_ne_nil
          (List.ne_nil_of_mem hrest.choose_spec.1)
        have hgap := hspaced.stop_le_start
        rw [List.getLast?_cons_cons] at hlast
        rw [cutItems, if_neg hgoes, if_neg fun h => hall h.2,
          ih hspaced.tail rfl hlast hrest (by omega), left_of_cons_kept hgoes hrest,
          slice_append_slice hnonempty hgap, ← List.append_assoc (t.source.slice offset _),
          slice_append_slice hoffset (Nat.le_trans hnonempty hgap)]

end Tree

namespace Plan

variable {t : Tree} {c : Node} {kind : String} {marked items : List Node}

/-! ## Plans for one list -/

/-- The plan that marks items and nothing else. -/
def marking (items : List Node) : Plan := ⟨[], items, []⟩

/-- Adding one node again and again to a table adds it once. -/
theorem foldl_insert_node_replicate (n : Nat) :
    (List.replicate n c).foldl insertNode [c] = [c] := by
  induction n with
  | zero => rfl
  | succ n ih =>
      rw [List.replicate_succ, List.foldl_cons, insertNode, if_pos (List.mem_singleton_self c), ih]

section OneList

variable (hmarked : marked ≠ []) (hitems : marked ⊆ t.namedChildrenOfKind c kind)

include hitems

/-- The marked items are children of the container. -/
theorem parent_of_marked : ∀ n ∈ marked, t.parent? n = some c := fun _ hn =>
  (Tree.mem_named_children_of_kind.mp (hitems hn)).1

include hmarked

/-- A plan that marks items of one list has this list. -/
theorem marked_lists_eq : (marking marked).markedLists t = [⟨c, marked⟩] := by
  have hparents : marked.filterMap t.parent? = List.replicate marked.length c := by
    rw [List.filterMap_congr (g := fun _ => some c) (parent_of_marked hitems),
      List.filterMap_eq_map', List.map_const']
  have hcontainers : (marking marked).containers t = [c] := by
    obtain ⟨first, rest, rfl⟩ := List.exists_cons_of_ne_nil hmarked
    rw [containers, marking, hparents, List.length_cons, List.replicate_succ, List.foldl_cons]
    exact foldl_insert_node_replicate rest.length
  have hall : (marked.filter fun i => t.parent? i = some c) = marked :=
    List.filter_eq_self.mpr fun i hi => decide_eq_true (parent_of_marked hitems i hi)
  rw [markedLists, hcontainers, List.map_singleton]
  exact congrArg (fun l => [MarkedList.mk c l]) hall

/-- The items of the list are the children of its kind. -/
theorem items_of_marked : (MarkedList.mk c marked).items t = t.namedChildrenOfKind c kind := by
  obtain ⟨first, rest, rfl⟩ := List.exists_cons_of_ne_nil hmarked
  have hkind := (Tree.mem_named_children_of_kind.mp (hitems List.mem_cons_self)).2.2
  rw [MarkedList.items, List.head?_cons, ← hkind]
  rfl

/-- If some items stay, the edits are the cuts of the list. -/
theorem edits_of_split (hstays : ∃ i ∈ t.namedChildrenOfKind c kind, i ∉ marked) :
    (marking marked).edits t = t.cutItems marked (t.namedChildrenOfKind c kind) := by
  have hnot : ¬ (MarkedList.mk c marked).IsFull t := by
    rw [MarkedList.IsFull, items_of_marked hmarked hitems]
    simpa using hstays
  rw [edits, statements, marked_lists_eq hmarked hitems]
  simp [hnot, items_of_marked hmarked hitems, marking]

/-- If no item stays, the edit deletes the statement that owns the list. -/
theorem edits_of_full (hall : ∀ i ∈ t.namedChildrenOfKind c kind, i ∈ marked) :
    (marking marked).edits t = [t.deleteStatement (t.listOwner c)] := by
  have hfull : (MarkedList.mk c marked).IsFull t := by
    rwa [MarkedList.IsFull, items_of_marked hmarked hitems]
  rw [edits, statements, marked_lists_eq hmarked hitems]
  simp [hfull, marking, insertNode]

end OneList

end Plan

/-- An edit takes out a statement as a whole: it covers the statement, and besides it blanks and
line terminators that join it; a statement that fills a place leaves the empty statement. -/
structure Tree.Deletes (t : Tree) (n : Node) (e : Edit) : Prop where
  spans : e.Spans ⟨t.start n, t.stop n, [], .statement, 1⟩
  leaves : e.text = [] ∧ ¬ t.FillsPlace n ∨ e.text = emptyStatement ∧ t.FillsPlace n
  only : t.start n ≤ t.source.length →
    ∀ i, e.Covers i → t.Holds n i ∨ ¬ t.FillsPlace n ∧ t.JoinsStatement n i

/-- The deletion of a statement takes it out as a whole. -/
theorem Tree.deletes_delete_statement (t : Tree) (n : Node) :
    t.Deletes n (t.deleteStatement n) where
  spans := Plan.deletion_spans t n
  leaves := by
    by_cases h : t.FillsPlace n
    · exact .inr ⟨by rw [delete_statement_of_fills h], h⟩
    · exact .inl ⟨by rw [delete_statement_of_not_fills h], h⟩
  only hsource _ hi := covered_by_deletion hsource hi

/-- A plan that marks items of one list, which follow one another in the source, and nothing else:
if some items stay, the list becomes these items in their order, each but the last followed by the
text that stood between it and the next item, and the items that go are counted; if none stays, the
statement that owns the list is deleted. -/
theorem apply_splits_list (t : Tree) (c : Node) (kind : String) (marked : List Node)
    (hmarked : marked ≠ []) (hitems : marked ⊆ t.namedChildrenOfKind c kind)
    (hspaced : t.IsSpaced (t.namedChildrenOfKind c kind)) :
    ((∃ i ∈ t.namedChildrenOfKind c kind, i ∉ marked) →
      ∃ first last, (t.namedChildrenOfKind c kind).head? = some first ∧
        (t.namedChildrenOfKind c kind).getLast? = some last ∧
        (Plan.marking marked).apply t =
          ⟨t.source.take (t.start first) ++ t.leftOf marked (t.namedChildrenOfKind c kind) ++
              t.source.drop (t.stop last),
            ⟨0, ((t.namedChildrenOfKind c kind).filter (· ∈ marked)).length, 0⟩, []⟩) ∧
      ((∀ i ∈ t.namedChildrenOfKind c kind, i ∈ marked) →
        ∃ e, t.Deletes (t.listOwner c) e ∧
          (Plan.marking marked).apply t = ⟨e.splice t.source, ⟨1, 0, 0⟩, []⟩) := by
  refine ⟨fun hstays => ?_, fun hall => ⟨_, t.deletes_delete_statement (t.listOwner c), ?_⟩⟩
  · have hedits := Plan.edits_of_split hmarked hitems hstays
    have hwithin : ∀ e ∈ t.cutItems marked (t.namedChildrenOfKind c kind), e.IsWithin t.source :=
      fun e he => Tree.cuts_within hspaced he
    have hdisjoint : (t.cutItems marked (t.namedChildrenOfKind c kind)).Pairwise Edit.Precedes :=
      Tree.pairwise_cuts hspaced
    have hne : t.namedChildrenOfKind c kind ≠ [] := List.ne_nil_of_mem hstays.choose_spec.1
    refine ⟨_, _, List.head?_eq_some_head hne, List.getLast?_eq_some_getLast hne, ?_⟩
    rw [Plan.apply, hedits, sweep_of_disjoint hdisjoint fun e he => (hwithin e he).1,
      splice_all_eq_substitute hdisjoint hwithin, substitute,
      Tree.substitute_cuts hspaced (List.head?_eq_some_head hne)
        (List.getLast?_eq_some_getLast hne) hstays (Nat.zero_le _),
      Tally.ofEdits, foldl_add_of_items (fun e he => Tree.kind_of_mem_cuts he),
      Tree.sum_counts hstays]
    simp [Tally.zero, Bytes.slice]
  · rw [Plan.apply, Plan.edits_of_full hmarked hitems hall, sweep, List.mergeSort_singleton]
    have hkind := Tree.kind_of_delete_statement t (t.listOwner c)
    simp [sweepSorted, sweepFrom, spliceAll, Tally.ofEdits, Tally.add, Tally.zero, hkind]

/-- The program `f();` and `var a , b,c, d;` on two lines. -/
def fourDeclarators : Tree :=
  (Tree.ofRows? (Bytes.ofText "f();\nvar a , b,c, d;\n")
    #[⟨0, true, "program", 0, 21, none⟩,
      ⟨1, true, "expression_statement", 0, 4, none⟩,
      ⟨1, true, "variable_declaration", 5, 20, none⟩,
      ⟨2, true, "variable_declarator", 9, 10, none⟩,
      ⟨2, true, "variable_declarator", 13, 14, none⟩,
      ⟨2, true, "variable_declarator", 15, 16, none⟩,
      ⟨2, true, "variable_declarator", 18, 19, none⟩]).get (by decide +kernel)

/-- Without the first and the third of four declarators the second keeps the comma after it, and the
fourth ends the list. Without all four their line goes. -/
theorem four_declarators_split :
    fourDeclarators.IsSpaced [3, 4, 5, 6] ∧
      (Plan.marking [3, 5]).apply fourDeclarators =
        ⟨Bytes.ofText "f();\nvar b,d;\n", ⟨0, 2, 0⟩, []⟩ ∧
      ∃ e, fourDeclarators.Deletes 2 e ∧
        (Plan.marking [3, 4, 5, 6]).apply fourDeclarators =
          ⟨e.splice fourDeclarators.source, ⟨1, 0, 0⟩, []⟩ := by
  have hlist : fourDeclarators.namedChildrenOfKind 2 "variable_declarator" = [3, 4, 5, 6] := by
    decide +kernel
  have hspaced : fourDeclarators.IsSpaced [3, 4, 5, 6] :=
    ⟨by decide +kernel, by decide +kernel, by decide +kernel⟩
  have hsplit := apply_splits_list fourDeclarators 2 "variable_declarator" [3, 5] (by decide)
    (by rw [hlist]; decide) (by rwa [hlist])
  have hfull := apply_splits_list fourDeclarators 2 "variable_declarator" [3, 4, 5, 6] (by decide)
    (by rw [hlist]; decide) (by rwa [hlist])
  rw [hlist] at hsplit hfull
  have howner : fourDeclarators.listOwner 2 = 2 := by decide +kernel
  obtain ⟨first, last, hfirst, hlast, hresult⟩ := hsplit.1 ⟨4, by decide, by decide⟩
  obtain rfl := Option.some.inj hfirst
  obtain rfl := Option.some.inj hlast
  refine ⟨hspaced, ?_, howner ▸ hfull.2 fun _ hi => hi⟩
  rw [hresult]
  decide +kernel

end Excise
