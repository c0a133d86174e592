import Excise.Proofs.Edit.Cuts
import Excise.Proofs.Edit.Line
import Excise.Proofs.Plan.Record
import Excise.Proofs.Syntax.Ancestry

/-!
# The edits that a plan asks for

`mem_edits` and `mem_statements` say where the edits of a plan come from: cuts of lists that keep
some items, deletions of statements, and replacements. The deletion of a statement covers the
statement and the blanks that it takes along (`covered_by_deletion`).
-/

namespace Excise

namespace Tree

variable {t : Tree} {n : Node} {i : Nat}

/-- The statement fills a place of its own, where it leaves the empty statement. -/
def FillsPlace (t : Tree) (n : Node) : Prop :=
  ∃ p ∈ t.parent? n, t.kind p ∉ statementSequenceKinds

/-- A byte before the statement with blanks alone from it to the statement, or one after the
statement with blanks and line terminators alone from the statement to it. -/
def JoinsStatement (t : Tree) (n : Node) (i : Nat) : Prop :=
  (i < t.start n ∧ ∀ j, i ≤ j → j < t.start n → IsBlankAt t.source j) ∨
    (t.stop n ≤ i ∧ ∀ j, t.stop n ≤ j → j ≤ i → IsBlankAt t.source j ∨ IsTerminatorAt t.source j)

/-- The edit of a statement that fills a place. -/
theorem delete_statement_of_fills (h : t.FillsPlace n) :
    t.deleteStatement n = ⟨t.start n, t.stop n, emptyStatement, .statement, 1⟩ := by
  unfold deleteStatement
  exact if_pos h

/-- The edit of a statement among others. -/
theorem delete_statement_of_not_fills (h : ¬ t.FillsPlace n) :
    t.deleteStatement n =
      ⟨(lineExtent t.source (t.start n) (t.stop n)).1,
        (lineExtent t.source (t.start n) (t.stop n)).2, [], .statement, 1⟩ := by
  unfold deleteStatement
  exact if_neg h

/-- The edit of a statement deletes a statement. -/
theorem kind_of_delete_statement (t : Tree) (n : Node) :
    (t.deleteStatement n).kind = .statement := by
  by_cases h : t.FillsPlace n
  · rw [delete_statement_of_fills h]
  · rw [delete_statement_of_not_fills h]

/-- The edit of a statement counts one. -/
theorem count_of_delete_statement (t : Tree) (n : Node) : (t.deleteStatement n).count = 1 := by
  by_cases h : t.FillsPlace n
  · rw [delete_statement_of_fills h]
  · rw [delete_statement_of_not_fills h]

/-- The deletion of a statement leaves nothing or the empty statement. -/
theorem text_of_deletion (t : Tree) (n : Node) :
    (t.deleteStatement n).text = [] ∨ (t.deleteStatement n).text = emptyStatement := by
  by_cases h : t.FillsPlace n
  · rw [delete_statement_of_fills h]
    exact .inr rfl
  · rw [delete_statement_of_not_fills h]
    exact .inl rfl

/-- The deletion of a statement that is not empty has a range in the source that is not empty. -/
theorem deletion_is_within (hnonempty : t.start n < t.stop n)
    (hsource : t.stop n ≤ t.source.length) : (t.deleteStatement n).IsWithin t.source := by
  by_cases h : t.FillsPlace n
  · rw [delete_statement_of_fills h]
    exact ⟨hnonempty, hsource⟩
  · rw [delete_statement_of_not_fills h]
    obtain ⟨-, hstart, hstop, -⟩ := line_extent_bounds t.source (t.start n) (t.stop n)
    refine ⟨?_, line_extent_le_length hsource⟩
    show (lineExtent t.source (t.start n) (t.stop n)).1 <
      (lineExtent t.source (t.start n) (t.stop n)).2
    omega

/-- The deletion of a statement covers the statement and, if it does not fill a place, bytes that
join it. -/
theorem covered_by_deletion (hsource : t.start n ≤ t.source.length)
    (hi : (t.deleteStatement n).Covers i) :
    t.Holds n i ∨ ¬ t.FillsPlace n ∧ t.JoinsStatement n i := by
  by_cases h : t.FillsPlace n
  · rw [delete_statement_of_fills h] at hi
    exact .inl hi
  · rw [delete_statement_of_not_fills h] at hi
    obtain ⟨hfirst, hlast⟩ := hi
    rcases Nat.lt_or_ge i (t.start n) with hbefore | hstarted
    · refine .inr ⟨h, .inl ⟨hbefore, fun j hij hj => ?_⟩⟩
      exact blank_before_statement hsource (Nat.le_trans hfirst hij) hj
    · rcases Nat.lt_or_ge i (t.stop n) with hinside | hpast
      · exact .inl ⟨hstarted, hinside⟩
      · refine .inr ⟨h, .inr ⟨hpast, fun j hj hji => ?_⟩⟩
        exact blank_after_statement hj (Nat.lt_of_le_of_lt hji hlast)

/-- The edit that puts a text in the place of a node. -/
def replaceNode (t : Tree) (r : Node × String) : Edit :=
  ⟨t.start r.1, t.stop r.1, Bytes.ofText r.2, .replacement, 1⟩

end Tree

namespace Plan

variable {t : Tree} {p : Plan} {l : MarkedList} {n m : Node} {e : Edit}

/-- Adding nodes to a table adds these nodes. -/
theorem mem_foldl_insert_node {nodes table : List Node} :
    n ∈ nodes.foldl insertNode table ↔ n ∈ table ∨ n ∈ nodes := by
  induction nodes generalizing table with
  | nil => simp
  | cons m rest ih =>
      rw [List.foldl_cons, ih, mem_insert_node, List.mem_cons]
      constructor
      · rintro ((rfl | htable) | hrest)
        · exact .inr (.inl rfl)
        · exact .inl htable
        · exact .inr (.inr hrest)
      · rintro (htable | rfl | hrest)
        · exact .inl (.inr htable)
        · exact .inl (.inl rfl)
        · exact .inr hrest

/-- The statements to delete are the plan's own and the owners of lists that lose all items. -/
theorem mem_statements :
    n ∈ p.statements t ↔
      n ∈ p.deletions ∨ ∃ l ∈ p.markedLists t, l.IsFull t ∧ t.listOwner l.container = n := by
  unfold statements
  rw [mem_foldl_insert_node]
  simp only [List.mem_map, List.mem_filter, decide_eq_true_eq, and_assoc]

/-- An edit of a plan cuts items out of a list that keeps some, deletes a statement or replaces an
expression. -/
theorem mem_edits :
    e ∈ p.edits t ↔
      (∃ l ∈ p.markedLists t, ¬ l.IsFull t ∧ e ∈ t.cutItems l.marked (l.items t)) ∨
        (∃ n ∈ p.statements t, t.deleteStatement n = e) ∨
          ∃ r ∈ p.replacements, t.replaceNode r = e := by
  unfold edits
  simp only [List.mem_append, List.mem_flatMap, List.mem_map, List.mem_filter, decide_not,
    Bool.not_eq_true', decide_eq_false_iff_not, and_assoc, or_assoc]
  rfl

/-- The marked items of a list are the children of its container that the plan marks. -/
theorem mem_marked (h : l ∈ p.markedLists t) :
    n ∈ l.marked ↔ n ∈ p.items ∧ t.parent? n = some l.container := by
  obtain ⟨c, -, rfl⟩ := List.mem_map.mp h
  rw [List.mem_filter, decide_eq_true_eq]

/-- The items marked in a list are items that the plan marks. -/
theorem marked_subset (h : l ∈ p.markedLists t) : l.marked ⊆ p.items := fun _ hn =>
  ((mem_marked h).mp hn).1

/-- A marked item is in the list of its container. -/
theorem exists_marked_list {c : Node} (hn : n ∈ p.items) (hc : t.parent? n = some c) :
    ∃ l ∈ p.markedLists t, l.container = c := by
  have hcontainer : c ∈ p.containers t :=
    mem_foldl_insert_node.mpr (.inr (List.mem_filterMap.mpr ⟨n, hn, hc⟩))
  exact ⟨_, List.mem_map.mpr ⟨c, hcontainer, rfl⟩, rfl⟩

/-- A list has a first marked item, and its items are the named children of that kind. -/
theorem exists_first_marked (h : l ∈ p.markedLists t) :
    ∃ first ∈ p.items, t.parent? first = some l.container ∧
      l.items t = t.namedChildrenOfKind l.container (t.kind first) := by
  obtain ⟨c, hc, hl⟩ := List.mem_map.mp h
  obtain ⟨n, hn, hparent⟩ :=
    List.mem_filterMap.mp ((mem_foldl_insert_node.mp hc).resolve_left List.not_mem_nil)
  have hmarked : n ∈ l.marked := (mem_marked h).mpr ⟨hn, by rw [hparent, ← hl]⟩
  cases hfirst : l.marked.head? with
  | none => simp [List.head?_eq_none_iff.mp hfirst] at hmarked
  | some first =>
      obtain ⟨hitem, hparent⟩ := (mem_marked h).mp (List.mem_of_mem_head? hfirst)
      exact ⟨first, hitem, hparent, by rw [MarkedList.items, hfirst]; rfl⟩

/-- The items of a list are children of its container. -/
theorem parent_of_mem_items (h : n ∈ l.items t) : t.parent? n = some l.container := by
  unfold MarkedList.items at h
  cases hmarked : l.marked.head? with
  | none => simp [hmarked] at h
  | some first =>
      rw [hmarked] at h
      exact (Tree.mem_named_children_of_kind.mp h).1

/-- The items of a list are nodes of the tree. -/
theorem lt_size_of_mem_items (h : n ∈ l.items t) : n < t.size :=
  Tree.lt_size_of_mem_ancestors (Tree.parent_mem_ancestors (parent_of_mem_items h))

end Plan

end Excise
