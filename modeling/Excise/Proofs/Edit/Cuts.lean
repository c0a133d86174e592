import Excise.Edit.Application
import Excise.Proofs.Edit.Substitution

/-!
# Cutting items out of a list

The edits of a list that keeps some of its items are cuts of two kinds (`item_cut_of_mem`): one item
with the gap after it, or the items after the last that stays with the gap before them. A cut covers
items that go and gaps beside them and nothing else (`ItemCut.covered`).
-/

namespace Excise

namespace Tree

variable {t : Tree} {n a b item : Node} {marked items rest : List Node} {e : Edit} {i : Nat}

/-- The byte at an offset is a byte of the node. -/
def Holds (t : Tree) (n : Node) (i : Nat) : Prop := t.start n ≤ i ∧ i < t.stop n

/-- A cut of marked items: one up to the item after it, or those after the last that stays, from
the end of this. -/
inductive ItemCut (t : Tree) (marked items : List Node) (e : Edit) : Prop where
  | single (front : List Node) {item next : Node} {rest : List Node}
      (split : items = front ++ item :: next :: rest) (goes : item ∈ marked)
      (edit : e = ⟨t.start item, t.start next, [], .item, 1⟩)
  | trailing (front : List Node) {item : Node} {rest : List Node}
      (split : items = front ++ item :: rest) (stays : item ∉ marked) (others : rest ≠ [])
      (go : ∀ i ∈ rest, i ∈ marked)
      (edit : e = ⟨t.stop item, t.stop (rest.getLast others), [], .item, rest.length⟩)

/-- A cut of the items after the first is one of all items. -/
theorem ItemCut.cons (h : t.ItemCut marked rest e) : t.ItemCut marked (item :: rest) e := by
  cases h with
  | single front split goes edit =>
      subst split
      exact .single (item :: front) rfl goes edit
  | trailing front split stays others go edit =>
      subst split
      exact .trailing (item :: front) rfl stays others go edit

/-- The edits of a list are cuts of its items. -/
theorem item_cut_of_mem (h : e ∈ t.cutItems marked items) : t.ItemCut marked items e := by
  induction items with
  | nil => exact absurd h List.not_mem_nil
  | cons item rest ih =>
      rw [cutItems] at h
      split at h
      case isTrue hgoes =>
        split at h
        case isTrue hstays =>
          rcases List.mem_cons.mp h with rfl | h
          · cases rest with
            | nil => simp at hstays
            | cons next rest => exact .single [] rfl hgoes rfl
          · exact (ih h).cons
        case isFalse => exact absurd h List.not_mem_nil
      case isFalse hstays =>
        split at h
        case isTrue hgo =>
          obtain rfl := List.mem_singleton.mp h
          refine .trailing [] rfl hstays hgo.1 hgo.2 ?_
          rw [List.getLast?_eq_some_getLast hgo.1]
          rfl
        case isFalse => exact (ih h).cons

/-- A cut writes nothing. -/
theorem ItemCut.text_eq (h : t.ItemCut marked items e) : e.text = [] := by
  cases h with
  | single _ _ _ edit => rw [edit]
  | trailing _ _ _ _ _ edit => rw [edit]

/-- The edits of a list cut items. -/
theorem kind_of_mem_cuts (he : e ∈ t.cutItems marked items) : e.kind = .item := by
  cases item_cut_of_mem he with
  | single _ _ _ edit => rw [edit]
  | trailing _ _ _ _ _ edit => rw [edit]

/-- Of items that follow one another none ends after the last. -/
theorem stop_le_last (hne : items ≠ []) (hmem : item ∈ items)
    (hapart : items.Pairwise fun a b => t.stop a ≤ t.start b)
    (hordered : ∀ b ∈ items, t.start b ≤ t.stop b) : t.stop item ≤ t.stop (items.getLast hne) := by
  rw [← List.dropLast_append_getLast hne] at hmem hapart
  rcases List.mem_append.mp hmem with hbefore | hlast
  · have hle := (List.pairwise_append.mp hapart).2.2 item hbefore _ (List.mem_singleton_self _)
    exact Nat.le_trans hle (hordered _ (List.getLast_mem hne))
  · exact Nat.le_of_eq (congrArg t.stop (List.mem_singleton.mp hlast))

/-- Where items follow one another and some stay, every item that goes is in a cut. -/
theorem exists_cut (hmem : item ∈ items) (hgoes : item ∈ marked) (hstays : ∃ j ∈ items, j ∉ marked)
    (hordered : ∀ b ∈ items, t.start b ≤ t.stop b)
    (hapart : items.Pairwise fun a b => t.stop a ≤ t.start b) :
    ∃ e ∈ t.cutItems marked items, e.start ≤ t.start item ∧ t.stop item ≤ e.stop := by
  induction items with
  | nil => exact absurd hmem List.not_mem_nil
  | cons first rest ih =>
      obtain ⟨hfirst, hrest⟩ := List.pairwise_cons.mp hapart
      have hin : (∃ j ∈ rest, j ∉ marked) → item ∈ rest →
          ∃ e ∈ t.cutItems marked rest, e.start ≤ t.start item ∧ t.stop item ≤ e.stop :=
        fun hkept hitem => ih hitem hkept (fun b hb => hordered b (List.mem_cons_of_mem first hb))
          hrest
      rw [cutItems]
      by_cases hmarked : first ∈ marked
      · obtain ⟨j, hj, hjstays⟩ := hstays
        have hkept : ∃ j ∈ rest, j ∉ marked := by
          rcases List.mem_cons.mp hj with rfl | hj
          · exact absurd hmarked hjstays
          · exact ⟨j, hj, hjstays⟩
        rw [if_pos hmarked, if_pos hkept]
        rcases List.mem_cons.mp hmem with rfl | hitem
        · cases rest with
          | nil => simp at hkept
          | cons next rest =>
              exact ⟨_, List.mem_cons_self, Nat.le_refl _, hfirst next List.mem_cons_self⟩
        · obtain ⟨e, he, hspans⟩ := hin hkept hitem
          exact ⟨e, List.mem_cons_of_mem _ he, hspans⟩
      · have hitem : item ∈ rest := (List.mem_cons.mp hmem).resolve_left fun heq =>
          hmarked (heq ▸ hgoes)
        rw [if_neg hmarked]
        by_cases htail : rest ≠ [] ∧ ∀ i ∈ rest, i ∈ marked
        · rw [if_pos htail]
          refine ⟨_, List.mem_singleton_self _, hfirst item hitem, ?_⟩
          rw [List.getLast?_eq_some_getLast htail.1]
          exact stop_le_last htail.1 hitem hrest fun b hb =>
            hordered b (List.mem_cons_of_mem first hb)
        · rw [if_neg htail]
          refine hin ?_ hitem
          simp only [not_and, not_forall] at htail
          obtain ⟨j, hj, hjstays⟩ := htail (List.ne_nil_of_mem hitem)
          exact ⟨j, hj, hjstays⟩

/-- The byte at an offset is between two neighbouring items, of which one goes. -/
def IsGapAt (t : Tree) (marked items : List Node) (i : Nat) : Prop :=
  ∃ a b, [a, b] <:+: items ∧ (a ∈ marked ∨ b ∈ marked) ∧ t.stop a ≤ i ∧ i < t.start b

/-- The bytes from the end of an item to the end of the last one after it are in these items or in
the gaps before them. -/
theorem covered_by_run (others : rest ≠ []) (hgo : ∀ b ∈ rest, b ∈ marked)
    (hstart : t.stop item ≤ i) (hstop : i < t.stop (rest.getLast others)) :
    (∃ b ∈ rest, t.Holds b i) ∨ t.IsGapAt marked (item :: rest) i := by
  induction rest generalizing item with
  | nil => exact absurd rfl others
  | cons b rest ih =>
      have hb : b ∈ marked := hgo b List.mem_cons_self
      rcases Nat.lt_or_ge i (t.start b) with hgap | hstarted
      · exact .inr ⟨item, b, ⟨[], rest, rfl⟩, .inr hb, hstart, hgap⟩
      · rcases Nat.lt_or_ge i (t.stop b) with hinside | hpast
        · exact .inl ⟨b, List.mem_cons_self, hstarted, hinside⟩
        · cases rest with
          | nil => exact absurd hstop (Nat.not_lt_of_le hpast)
          | cons c rest =>
              rw [List.getLast_cons (List.cons_ne_nil c rest)] at hstop
              rcases ih (List.cons_ne_nil c rest) (fun d hd => hgo d (List.mem_cons_of_mem b hd))
                hpast hstop with ⟨d, hd, hholds⟩ | ⟨a, d, hneighbours, hgap⟩
              · exact .inl ⟨d, List.mem_cons_of_mem b hd, hholds⟩
              · exact .inr ⟨a, d, hneighbours.trans (List.suffix_cons item _).isInfix, hgap⟩

/-- A cut covers marked items and gaps beside them. -/
theorem ItemCut.covered (h : t.ItemCut marked items e) (hi : e.Covers i) :
    (∃ b ∈ marked, t.Holds b i) ∨ t.IsGapAt marked items i := by
  cases h with
  | @single front item next rest split goes edit =>
      obtain ⟨hstart, hstop⟩ := edit ▸ hi
      rcases Nat.lt_or_ge i (t.stop item) with hinside | hpast
      · exact .inl ⟨item, goes, hstart, hinside⟩
      · exact .inr ⟨item, next, ⟨front, rest, by simp [split]⟩, .inl goes, hpast, hstop⟩
  | @trailing front item rest split stays others go edit =>
      obtain ⟨hstart, hstop⟩ := edit ▸ hi
      rcases covered_by_run others go hstart hstop with ⟨b, hb, hholds⟩ | ⟨a, b, hab, hgap⟩
      · exact .inl ⟨b, go b hb, hholds⟩
      · exact .inr ⟨a, b, hab.trans (split ▸ List.suffix_append front _).isInfix, hgap⟩

/-- A cut of a list whose items follow one another has a range in the source that is not empty. -/
theorem ItemCut.is_within (h : t.ItemCut marked items e)
    (hsource : ∀ b ∈ items, t.start b ≤ t.stop b ∧ t.stop b ≤ t.source.length)
    (hmarked : ∀ b ∈ items, b ∈ marked → t.start b < t.stop b)
    (horder : items.Pairwise fun a b => t.stop a ≤ t.start b) : e.IsWithin t.source := by
  cases h with
  | @single front item next rest split goes edit =>
      rw [split] at hsource hmarked horder
      have hpair := (List.pairwise_append.mp horder).2.1
      have hnext := (List.pairwise_cons.mp hpair).1 next List.mem_cons_self
      have hbounds := hsource next (by simp)
      have hitem := hmarked item (by simp) goes
      rw [edit]
      constructor
      · show t.start item < t.start next
        omega
      · show t.start next ≤ t.source.length
        omega
  | @trailing front item rest split stays others go edit =>
      rw [split] at hsource hmarked horder
      have hlast : rest.getLast others ∈ rest := List.getLast_mem others
      have hpair := (List.pairwise_append.mp horder).2.1
      have hafter := (List.pairwise_cons.mp hpair).1 _ hlast
      have hbounds := hsource (rest.getLast others) (by simp [hlast])
      have hitem := hmarked _ (by simp [hlast]) (go _ hlast)
      rw [edit]
      constructor
      · show t.stop item < t.stop (rest.getLast others)
        omega
      · exact hbounds.2

end Tree

end Excise
