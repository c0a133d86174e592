import Excise.Syntax.Tree

/-!
# Ancestors and descendants

The rows of a tree list its nodes in pre-order, so one node is inside another exactly if every row
from the outer one up to it is deeper (`mem_ancestors`, `mem_descendants`). The two lists are
therefore converses (`mem_descendants_iff_mem_ancestors`), a node's ancestors are its parent and
the ancestors of that (`ancestors_of_parent`), and the children are the nodes with that parent
(`mem_children`).
-/

namespace Excise.Tree

variable {t : Tree} {a b n p : Nat}

/-- A node past the end has an empty row. -/
theorem row_of_size_le (h : t.size ≤ n) : t.row n = default := by
  rw [row, Array.getElem?_eq_none h]
  rfl

/-- A node past the end has depth zero. -/
theorem depth_of_size_le (h : t.size ≤ n) : t.depth n = 0 := by
  rw [depth, row_of_size_le h]
  rfl

/-- A node past the end starts at zero. -/
theorem start_of_size_le (h : t.size ≤ n) : t.start n = 0 := by
  rw [start, row_of_size_le h]
  rfl

/-- A node past the end ends at zero. -/
theorem stop_of_size_le (h : t.size ≤ n) : t.stop n = 0 := by
  rw [stop, row_of_size_le h]
  rfl

/-- The depth of a node is that of its row. -/
theorem depth_of_lt (h : n < t.size) : t.depth n = (t.rows[n]).depth := by
  have hrow : t.rows[n]? = some (t.rows[n]) := Array.getElem?_eq_getElem h
  simp [depth, row, hrow]

/-- A node below the root level is a row of the tree. -/
theorem lt_size_of_depth_pos (h : 0 < t.depth n) : n < t.size := by
  rcases Nat.lt_or_ge n t.size with hn | hn
  · exact hn
  · have hzero := depth_of_size_le hn
    omega

/-- The root is the one row of depth zero. -/
theorem depth_eq_zero_iff (h : n < t.size) : t.depth n = 0 ↔ n = 0 := by
  rw [depth_of_lt h]
  constructor
  · intro hzero
    rcases Nat.eq_zero_or_pos n with hn | hn
    · exact hn
    · have hpos := t.depth_pos n h hn
      omega
  · rintro rfl
    exact t.depth_root

/-- From one row to the next the depth grows by one at most. -/
theorem depth_succ_le_succ : t.depth (n + 1) ≤ t.depth n + 1 := by
  by_cases h : n + 1 < t.size
  · rw [depth_of_lt h, depth_of_lt (Nat.lt_of_succ_lt h)]
    exact t.depth_succ_le n h
  · rw [depth_of_size_le (Nat.le_of_not_lt h)]
    omega

/-- The rows that `ancestorsBelow` finds are those above which nothing as shallow stands. -/
theorem mem_ancestors_below {d i : Nat} :
    a ∈ t.ancestorsBelow d i ↔
      a < i ∧ t.depth a < d ∧ ∀ j, a < j → j < i → t.depth a < t.depth j := by
  induction i generalizing d with
  | zero => simp [ancestorsBelow]
  | succ i ih =>
      rw [ancestorsBelow]
      split
      case isTrue hi =>
        rw [List.mem_cons, ih]
        constructor
        · rintro (rfl | ⟨hlt, hdepth, hbetween⟩)
          · exact ⟨by omega, hi, fun j hj hji => by omega⟩
          · refine ⟨by omega, by omega, fun j hj hji => ?_⟩
            rcases Nat.lt_succ_iff_lt_or_eq.mp hji with hlti | rfl
            · exact hbetween j hj hlti
            · exact hdepth
        · rintro ⟨hlt, hdepth, hbetween⟩
          by_cases ha : a = i
          · exact .inl ha
          · exact .inr ⟨by omega, hbetween i (by omega) (by omega),
              fun j hj hji => hbetween j hj (by omega)⟩
      case isFalse hi =>
        rw [ih]
        constructor
        · rintro ⟨hlt, hdepth, hbetween⟩
          refine ⟨by omega, hdepth, fun j hj hji => ?_⟩
          rcases Nat.lt_succ_iff_lt_or_eq.mp hji with hlti | rfl
          · exact hbetween j hj hlti
          · omega
        · rintro ⟨hlt, hdepth, hbetween⟩
          have ha : a ≠ i := by
            rintro rfl
            exact hi hdepth
          exact ⟨by omega, hdepth, fun j hj hji => hbetween j hj (by omega)⟩

/-- An ancestor is an earlier row such that every row after it up to the node is deeper. -/
theorem mem_ancestors :
    a ∈ t.ancestors n ↔ a < n ∧ ∀ j, a < j → j ≤ n → t.depth a < t.depth j := by
  rw [ancestors, mem_ancestors_below]
  constructor
  · rintro ⟨hlt, hdepth, hbetween⟩
    refine ⟨hlt, fun j hj hjn => ?_⟩
    rcases Nat.lt_or_eq_of_le hjn with hjlt | rfl
    · exact hbetween j hj hjlt
    · exact hdepth
  · rintro ⟨hlt, hbetween⟩
    exact ⟨hlt, hbetween n hlt (Nat.le_refl n), fun j hj hjn => hbetween j hj (by omega)⟩

/-- Membership in the part of a range up to the first row that is not deeper. -/
theorem mem_takeWhile_deeper {d s k : Nat} :
    n ∈ (List.range' s k).takeWhile (fun i => d < t.depth i) ↔
      s ≤ n ∧ n < s + k ∧ ∀ j, s ≤ j → j ≤ n → d < t.depth j := by
  induction k generalizing s with
  | zero => simp; omega
  | succ k ih =>
      rw [List.range'_succ, List.takeWhile_cons]
      split
      case isTrue hs =>
        have hdeeper : d < t.depth s := of_decide_eq_true hs
        rw [List.mem_cons, ih]
        constructor
        · rintro (rfl | ⟨hsn, hnk, hbetween⟩)
          · refine ⟨Nat.le_refl _, by omega, fun j hj hjn => ?_⟩
            rwa [Nat.le_antisymm hjn hj]
          · refine ⟨by omega, by omega, fun j hj hjn => ?_⟩
            rcases Nat.lt_or_eq_of_le hj with hlt | rfl
            · exact hbetween j hlt hjn
            · exact hdeeper
        · rintro ⟨hsn, hnk, hbetween⟩
          by_cases hn : n = s
          · exact .inl hn
          · exact .inr ⟨by omega, by omega, fun j hj hjn => hbetween j (by omega) hjn⟩
      case isFalse hs =>
        have hnot : ¬ d < t.depth s := fun h => hs (decide_eq_true h)
        constructor
        · intro h
          exact absurd h List.not_mem_nil
        · rintro ⟨hsn, hnk, hbetween⟩
          exact absurd (hbetween s (Nat.le_refl s) hsn) hnot

/-- A descendant is a later row such that every row up to it is deeper. -/
theorem mem_descendants :
    n ∈ t.descendants a ↔ a < n ∧ ∀ j, a < j → j ≤ n → t.depth a < t.depth j := by
  rw [descendants, mem_takeWhile_deeper]
  constructor
  · rintro ⟨hlt, -, hbetween⟩
    exact ⟨hlt, hbetween⟩
  · rintro ⟨hlt, hbetween⟩
    have hdepth := hbetween n hlt (Nat.le_refl n)
    have hsize : n < t.size := lt_size_of_depth_pos (by omega)
    exact ⟨hlt, by omega, hbetween⟩

/-- A node is inside another exactly if the other is around it. -/
theorem mem_descendants_iff_mem_ancestors : n ∈ t.descendants a ↔ a ∈ t.ancestors n := by
  rw [mem_descendants, mem_ancestors]

/-- An ancestor is an earlier row. -/
theorem lt_of_mem_ancestors (h : a ∈ t.ancestors n) : a < n := (mem_ancestors.mp h).1

/-- A node with an ancestor is a row of the tree. -/
theorem lt_size_of_mem_ancestors (h : a ∈ t.ancestors n) : n < t.size := by
  obtain ⟨hlt, hbetween⟩ := mem_ancestors.mp h
  have hdepth := hbetween n hlt (Nat.le_refl n)
  exact lt_size_of_depth_pos (by omega)

/-- What is around an ancestor is around the node. -/
theorem ancestors_trans (hab : a ∈ t.ancestors b) (hbn : b ∈ t.ancestors n) :
    a ∈ t.ancestors n := by
  rw [mem_ancestors] at hab hbn ⊢
  refine ⟨by omega, fun j hj hjn => ?_⟩
  by_cases hjb : j ≤ b
  · exact hab.2 j hj hjb
  · exact Nat.lt_trans (hab.2 b hab.1 (Nat.le_refl b)) (hbn.2 j (by omega) hjn)

/-- The ancestors of a node that has a parent are the parent and the ancestors of that. -/
theorem ancestors_of_parent (h : t.parent? n = some p) : t.ancestors n = p :: t.ancestors p := by
  have hbelow : ∀ d i, (t.ancestorsBelow d i).head? = some p →
      t.ancestorsBelow d i = p :: t.ancestors p := by
    intro d i
    induction i with
    | zero => simp [ancestorsBelow]
    | succ i ih =>
        rw [ancestorsBelow]
        split
        · intro hhead
          obtain rfl : i = p := by simpa using hhead
          rfl
        · exact ih
  exact hbelow _ _ h

/-- A node without a parent has no ancestors. -/
theorem ancestors_of_no_parent (h : t.parent? n = none) : t.ancestors n = [] :=
  List.head?_eq_none_iff.mp h

/-- The parent is an ancestor. -/
theorem parent_mem_ancestors (h : t.parent? n = some p) : p ∈ t.ancestors n := by
  simp [ancestors_of_parent h]

/-- The parent is an earlier row. -/
theorem parent_lt (h : t.parent? n = some p) : p < n :=
  lt_of_mem_ancestors (parent_mem_ancestors h)

/-- The other ancestors are those of the parent. -/
theorem mem_ancestors_of_parent (h : t.parent? n = some p) :
    a ∈ t.ancestors n ↔ a = p ∨ a ∈ t.ancestors p := by
  rw [ancestors_of_parent h, List.mem_cons]

/-- To prove a fact of every node, prove it of nodes without a parent, and of a node from its
parent. -/
@[elab_as_elim]
theorem parent_induction {motive : Nat → Prop} (n : Nat)
    (root : ∀ n, t.parent? n = none → motive n)
    (child : ∀ n p, t.parent? n = some p → motive p → motive n) : motive n := by
  induction n using Nat.strongRecOn with
  | ind n ih =>
      cases h : t.parent? n with
      | none => exact root n h
      | some p => exact child n p h (ih p (parent_lt h))

/-- After an ancestor in the list of ancestors come its own ancestors. -/
theorem ancestors_of_append {before after : List Node}
    (h : t.ancestors n = before ++ a :: after) : after = t.ancestors a := by
  induction n using parent_induction (t := t) generalizing before with
  | root n hn => simp [ancestors_of_no_parent hn] at h
  | child n p hp ih =>
      rw [ancestors_of_parent hp] at h
      cases before with
      | nil =>
          obtain ⟨rfl, rfl⟩ := List.cons.inj h
          rfl
      | cons c before => exact ih (List.cons.inj h).2

/-- Around a node there is an ancestor of each smaller depth. -/
theorem exists_ancestor_of_depth {d : Nat} (h : d < t.depth n) :
    ∃ a ∈ t.ancestors n, t.depth a = d := by
  induction n with
  | zero =>
      rw [(depth_eq_zero_iff t.size_pos).mpr rfl] at h
      exact absurd h (Nat.not_lt_zero d)
  | succ n ih =>
      have hnext : t.depth (n + 1) ≤ t.depth n + 1 := depth_succ_le_succ
      rcases Nat.lt_or_eq_of_le (show d ≤ t.depth n by omega) with hd | rfl
      · obtain ⟨a, ha, rfl⟩ := ih hd
        obtain ⟨hlt, hbetween⟩ := mem_ancestors.mp ha
        refine ⟨a, mem_ancestors.mpr ⟨by omega, fun j hj hjn => ?_⟩, rfl⟩
        rcases Nat.lt_succ_iff_lt_or_eq.mp (Nat.lt_succ_of_le hjn) with hjlt | rfl
        · exact hbetween j hj (Nat.le_of_lt_succ hjlt)
        · exact h
      · refine ⟨n, mem_ancestors.mpr ⟨Nat.lt_succ_self n, fun j hj hjn => ?_⟩, rfl⟩
        rwa [Nat.le_antisymm hjn hj]

/-- Every node but the root has a parent. -/
theorem exists_parent (h : n < t.size) (hn : n ≠ 0) : ∃ p, t.parent? n = some p := by
  have hdepth : t.depth n ≠ 0 := fun hzero => hn ((depth_eq_zero_iff h).mp hzero)
  obtain ⟨a, ha, -⟩ := exists_ancestor_of_depth (Nat.pos_of_ne_zero hdepth)
  cases hparent : t.parent? n with
  | none => simp [ancestors_of_no_parent hparent] at ha
  | some p => exact ⟨p, rfl⟩

/-- A child is one level deeper than its parent. -/
theorem depth_of_parent (h : t.parent? n = some p) : t.depth n = t.depth p + 1 := by
  obtain ⟨hlt, hbetween⟩ := mem_ancestors.mp (parent_mem_ancestors h)
  have hdeeper := hbetween n hlt (Nat.le_refl n)
  rcases Nat.lt_or_eq_of_le (Nat.succ_le_of_lt hdeeper) with hgap | heq
  · -- An ancestor one level below the parent would have to be around the parent.
    obtain ⟨a, ha, hdepth⟩ := exists_ancestor_of_depth hgap
    rcases (mem_ancestors_of_parent h).mp ha with rfl | hap
    · omega
    · obtain ⟨hbelow, hpath⟩ := mem_ancestors.mp hap
      have := hpath p hbelow (Nat.le_refl p)
      omega
  · exact heq.symm

/-- The children of a node are the nodes whose parent it is. -/
theorem mem_children : n ∈ t.children p ↔ t.parent? n = some p := by
  rw [children, List.mem_filter, decide_eq_true_eq, mem_descendants_iff_mem_ancestors]
  constructor
  · rintro ⟨hp, hdepth⟩
    cases hparent : t.parent? n with
    | none => simp [ancestors_of_no_parent hparent] at hp
    | some q =>
        rcases (mem_ancestors_of_parent hparent).mp hp with rfl | hpq
        · rfl
        · have hq := depth_of_parent hparent
          obtain ⟨hlt, hbetween⟩ := mem_ancestors.mp hpq
          have := hbetween q hlt (Nat.le_refl q)
          omega
  · intro hparent
    exact ⟨parent_mem_ancestors hparent, depth_of_parent hparent⟩

/-- The named children of a node are the named nodes whose parent it is. -/
theorem mem_named_children : n ∈ t.namedChildren p ↔ t.parent? n = some p ∧ t.named n := by
  rw [namedChildren, List.mem_filter, mem_children]

/-- The named children of a kind are the named nodes of that kind whose parent it is. -/
theorem mem_named_children_of_kind {kind : String} :
    n ∈ t.namedChildrenOfKind p kind ↔ t.parent? n = some p ∧ t.named n ∧ t.kind n = kind := by
  rw [namedChildrenOfKind, List.mem_filter, mem_named_children, decide_eq_true_eq, and_assoc]

/-- The children of a node are in pre-order. -/
theorem children_in_order (t : Tree) (n : Node) : (t.children n).Pairwise (· < ·) := by
  have hrange : (List.range' (n + 1) (t.size - (n + 1))).Pairwise (· < ·) :=
    List.pairwise_lt_range'
  exact (hrange.sublist (List.takeWhile_sublist _)).filter _

/-- So are those of one kind that the grammar names. -/
theorem named_children_of_kind_in_order (t : Tree) (n : Node) (kind : String) :
    (t.namedChildrenOfKind n kind).Pairwise (· < ·) :=
  ((t.children_in_order n).filter _).filter _

/-- A node is another one or inside it. -/
def Within (t : Tree) (n a : Node) : Prop := n = a ∨ n ∈ t.descendants a

/-- The nodes inside a node are searched. -/
instance (t : Tree) (n a : Node) : Decidable (t.Within n a) :=
  inferInstanceAs (Decidable (_ ∨ _))

/-- A node is within itself and within its ancestors. -/
theorem within_iff : t.Within n a ↔ n = a ∨ a ∈ t.ancestors n := by
  rw [Within, mem_descendants_iff_mem_ancestors]

@[simp]
theorem within_refl : t.Within n n := .inl rfl

/-- A node is within its ancestors. -/
theorem within_of_mem_ancestors (h : a ∈ t.ancestors n) : t.Within n a :=
  within_iff.mpr (.inr h)

/-- A node is within its parent. -/
theorem within_parent (h : t.parent? n = some p) : t.Within n p :=
  within_of_mem_ancestors (parent_mem_ancestors h)

theorem within_trans (hnb : t.Within n b) (hba : t.Within b a) : t.Within n a := by
  rw [within_iff] at hnb hba ⊢
  rcases hnb with rfl | hb
  · exact hba
  · rcases hba with rfl | ha
    · exact .inr hb
    · exact .inr (ancestors_trans ha hb)

/-- A node is no earlier row than what it is within. -/
theorem le_of_within (h : t.Within n a) : a ≤ n := by
  rcases within_iff.mp h with rfl | ha
  · exact Nat.le_refl _
  · exact Nat.le_of_lt (lt_of_mem_ancestors ha)

/-- The parent is within what is around a node. -/
theorem parent_within (hp : t.parent? n = some p) (ha : a ∈ t.ancestors n) : t.Within p a :=
  within_iff.mpr (((mem_ancestors_of_parent hp).mp ha).imp_left Eq.symm)

/-- Of two nodes that a node is within, one is within the other. -/
theorem within_total (ha : t.Within n a) (hb : t.Within n b) : t.Within a b ∨ t.Within b a := by
  induction n using parent_induction (t := t) with
  | root n hn =>
      rcases within_iff.mp ha with rfl | ha
      · exact .inl hb
      · simp [ancestors_of_no_parent hn] at ha
  | child n p hp ih =>
      rcases within_iff.mp ha with rfl | hna
      · exact .inl hb
      · rcases within_iff.mp hb with rfl | hnb
        · exact .inr ha
        · exact ih (parent_within hp hna) (parent_within hp hnb)

/-- A node is within one child of a node at most. -/
theorem child_unique {c d : Node} (hc : t.parent? c = some p) (hd : t.parent? d = some p)
    (hnc : t.Within n c) (hnd : t.Within n d) : c = d := by
  have hle : ∀ {c d : Node}, t.parent? c = some p → t.parent? d = some p → t.Within c d →
      c = d := by
    intro c d hc hd hcd
    rcases within_iff.mp hcd with heq | hancestor
    · exact heq
    · have := le_of_within (parent_within hc hancestor)
      have := parent_lt hd
      omega
  rcases within_total hnc hnd with hcd | hdc
  · exact hle hc hd hcd
  · exact (hle hd hc hdc).symm

/-- What a row of the tree is within is a row of the tree. -/
theorem lt_size_of_within (h : t.Within n a) (hn : n < t.size) : a < t.size := by
  rcases within_iff.mp h with rfl | ha
  · exact hn
  · exact Nat.lt_trans (lt_of_mem_ancestors ha) hn

/-- All that is within one child of a node comes before the next child. -/
theorem before_sibling {c d : Node} (hc : t.parent? c = some p) (hd : t.parent? d = some p)
    (hlt : c < d) (hn : t.Within n c) : n < d := by
  rcases Nat.lt_or_ge n d with hnd | hdn
  · exact hnd
  · -- Else the next child would be inside the one before it.
    have hc' : c ∈ t.ancestors n := by
      rcases within_iff.mp hn with rfl | hancestor
      · exact absurd hdn (Nat.not_le.mpr hlt)
      · exact hancestor
    have hdeeper := (mem_ancestors.mp hc').2 d hlt hdn
    rw [depth_of_parent hc, depth_of_parent hd] at hdeeper
    exact absurd hdeeper (Nat.lt_irrefl _)

/-- What is collected within children of a node, one after the other, is in pre-order if it is
within each of them. -/
theorem flat_map_in_order {parts : List Node} {collect : Node → List Node}
    (horder : parts.Pairwise (· < ·)) (hparts : ∀ c ∈ parts, t.parent? c = some p)
    (hwithin : ∀ c ∈ parts, ∀ n ∈ collect c, t.Within n c)
    (hcollect : ∀ c ∈ parts, (collect c).Pairwise (· < ·)) :
    (parts.flatMap collect).Pairwise (· < ·) := by
  rw [List.pairwise_flatMap]
  refine ⟨hcollect, horder.imp_of_mem fun {c d} hc hd hlt n hn m hm => ?_⟩
  exact Nat.lt_of_lt_of_le
    (before_sibling (hparts c hc) (hparts d hd) hlt (hwithin c hc n hn))
    (le_of_within (hwithin d hd m hm))

/-- A node inside another is within one of its children. -/
theorem exists_child_of_mem_ancestors (h : a ∈ t.ancestors n) :
    ∃ c, t.parent? c = some a ∧ t.Within n c := by
  induction n using parent_induction (t := t) with
  | root n hn => simp [ancestors_of_no_parent hn] at h
  | child n p hp ih =>
      rcases (mem_ancestors_of_parent hp).mp h with rfl | hap
      · exact ⟨n, hp, within_refl⟩
      · obtain ⟨c, hc, hwithin⟩ := ih hap
        exact ⟨c, hc, within_trans (within_parent hp) hwithin⟩

end Excise.Tree
