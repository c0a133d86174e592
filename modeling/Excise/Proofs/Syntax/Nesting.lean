import Excise.Proofs.Names.Nearest

/-!
# Trees with nested ranges

In the tree of a source the range of a node holds those of its children, which follow one another
(`Tree.IsNested`). Any two nodes are then within each other or apart (`IsNested.cases`), so no node
holds a part of another alone.
-/

namespace Excise.Tree

variable {t : Tree} {a b c n p : Nat}

/-- The ranges of the nodes are nested: those of children lie inside that of their parent, in order
and disjoint. -/
structure IsNested (t : Tree) : Prop where
  ordered : ∀ n ∈ t.nodes, t.start n ≤ t.stop n
  inside : ∀ p ∈ t.nodes, ∀ c ∈ t.children p, t.start p ≤ t.start c ∧ t.stop c ≤ t.stop p
  apart : ∀ p ∈ t.nodes, (t.children p).Pairwise fun a b => t.stop a ≤ t.start b

namespace IsNested

variable (h : t.IsNested)

include h

/-- No range ends before it starts. -/
theorem start_le_stop (n : Node) : t.start n ≤ t.stop n := by
  rcases Nat.lt_or_ge n t.size with hlt | hge
  · exact h.ordered n (List.mem_range.mpr hlt)
  · rw [start_of_size_le hge]
    exact Nat.zero_le _

/-- A child lies inside its parent. -/
theorem inside_parent (hp : t.parent? c = some p) :
    t.start p ≤ t.start c ∧ t.stop c ≤ t.stop p := by
  have hlt := lt_size_of_mem_ancestors (parent_mem_ancestors hp)
  exact h.inside p (List.mem_range.mpr (Nat.lt_trans (parent_lt hp) hlt)) c (mem_children.mpr hp)

/-- A node lies inside every node that it is within. -/
theorem inside_of_within (hwithin : t.Within n a) :
    t.start a ≤ t.start n ∧ t.stop n ≤ t.stop a := by
  induction n using parent_induction (t := t) with
  | root n hn =>
      rcases within_iff.mp hwithin with rfl | ha
      · exact ⟨Nat.le_refl _, Nat.le_refl _⟩
      · simp [ancestors_of_no_parent hn] at ha
  | child n p hp ih =>
      rcases within_iff.mp hwithin with rfl | ha
      · exact ⟨Nat.le_refl _, Nat.le_refl _⟩
      · have hparent := h.inside_parent hp
        have habove := ih (within_iff.mpr (((mem_ancestors_of_parent hp).mp ha).imp_left Eq.symm))
        exact ⟨Nat.le_trans habove.1 hparent.1, Nat.le_trans hparent.2 habove.2⟩

/-- Of two children of a node the first ends before the second starts. -/
theorem siblings_apart (ha : t.parent? a = some p) (hb : t.parent? b = some p) (hlt : a < b) :
    t.stop a ≤ t.start b := by
  have hrow :=
    Nat.lt_trans (parent_lt ha) (lt_size_of_mem_ancestors (parent_mem_ancestors ha))
  have hapart := h.apart p (List.mem_range.mpr hrow)
  have horder := t.children_in_order p
  obtain ⟨before, after, hsplit⟩ := List.append_of_mem (mem_children.mpr ha)
  have hmem := mem_children.mpr hb
  rw [hsplit] at hapart horder hmem
  rcases List.mem_append.mp hmem with hbefore | hrest
  · have hgt := (List.pairwise_append.mp horder).2.2 b hbefore a List.mem_cons_self
    exact absurd hgt (Nat.lt_asymm hlt)
  · rcases List.mem_cons.mp hrest with rfl | hafter
    · exact absurd hlt (Nat.lt_irrefl b)
    · exact (List.pairwise_cons.mp (List.pairwise_append.mp hapart).2.1).1 b hafter

/-- Two nodes are within each other or apart. -/
theorem cases (ha : a < t.size) (hb : b < t.size) :
    t.Within a b ∨ t.Within b a ∨ t.stop a ≤ t.start b ∨ t.stop b ≤ t.start a := by
  induction a using parent_induction (t := t) with
  | root a hnone =>
      -- The root has all nodes within it.
      by_cases hroot : a = 0
      · by_cases hzero : b = 0
        · exact .inl (within_iff.mpr (.inl (hroot.trans hzero.symm)))
        · exact .inr (.inl (within_of_mem_ancestors (hroot ▸ root_mem_ancestors hb hzero)))
      · obtain ⟨p, hp⟩ := exists_parent ha hroot
        simp [hnone] at hp
  | child a p hp ih =>
      rcases ih (Nat.lt_trans (parent_lt hp) ha) with hpb | hbp | hapart
      · exact .inl (within_trans (within_parent hp) hpb)
      · rcases within_iff.mp hbp with rfl | hancestor
        · exact .inl (within_parent hp)
        · obtain ⟨c, hc, hbc⟩ := exists_child_of_mem_ancestors hancestor
          have hinside := h.inside_of_within hbc
          rcases Nat.lt_trichotomy a c with hlt | rfl | hgt
          · exact .inr (.inr (.inl (Nat.le_trans (h.siblings_apart hp hc hlt) hinside.1)))
          · exact .inr (.inl hbc)
          · exact .inr (.inr (.inr (Nat.le_trans hinside.2 (h.siblings_apart hc hp hgt))))
      · have hinside := h.inside_parent hp
        rcases hapart with hbefore | hafter
        · exact .inr (.inr (.inl (Nat.le_trans hinside.2 hbefore)))
        · exact .inr (.inr (.inr (Nat.le_trans hafter hinside.1)))

end IsNested

/-- A node around one child of a node, and not the child itself, is around the others. -/
theorem within_of_sibling (ha : t.parent? a = some p) (hb : t.parent? b = some p)
    (hwithin : t.Within a n) (hne : a ≠ n) : t.Within b n := by
  have habove := (within_iff.mp hwithin).resolve_left hne
  exact within_of_mem_ancestors ((mem_ancestors_of_parent hb).mpr
    ((mem_ancestors_of_parent ha).mp habove))

end Excise.Tree
