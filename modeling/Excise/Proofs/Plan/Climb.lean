import Excise.Proofs.Usage.Reach

/-!
# Climbing to the statement around an expression

`Climbs` is the way up from an expression as far as it goes on: past nodes that neither hold the one
below as a value of their own nor are statements. `enclosing_entry_cases` says how it ends: at a
value, at a statement, or at a node without a parent. `EndsClimb` names the nodes around an
expression at which a climb can end, wherever it comes from: it passes the nodes below all of them
(`climbs_iff`), and asks for something if there is one (`exists_enclosing_entry_iff`).
-/

namespace Excise.Tree

variable {t : Tree} {e m n p v : Node}

/-- The climb from an expression passes a node. -/
inductive Climbs (t : Tree) (e : Node) : Node → Prop where
  | start : Climbs t e e
  | up {m p : Node} :
      Climbs t e m → t.parent? m = some p → ¬ t.HoldsAsValue m p → ¬ t.IsStatement p →
      Climbs t e p

/-- The expression is within every node that the climb passes. -/
theorem Climbs.within (h : t.Climbs e m) : t.Within e m := by
  induction h with
  | start => exact within_refl
  | up _ hp _ _ ih => exact within_trans ih (within_parent hp)

/-- The climb passes no statement. -/
theorem Climbs.statements (h : t.Climbs e m) :
    ∀ a ∈ t.ancestors e, t.IsStatement a → a ∈ t.ancestors m := by
  induction h with
  | start => exact fun a ha _ => ha
  | @up m p _ hp _ hstatement ih =>
      intro a ha hs
      rcases (mem_ancestors_of_parent hp).mp (ih a ha hs) with rfl | hap
      · exact absurd hs hstatement
      · exact hap

/-- What the climb comes to from a node that it passes is what it comes to from the start. -/
theorem Climbs.entry_eq (h : t.Climbs e m) :
    t.enclosingEntry? e = t.enclosingEntryThrough? e m (t.ancestors m) := by
  induction h with
  | start => rfl
  | @up m p _ hp hvalue hstatement ih =>
      rw [ih, ancestors_of_parent hp, enclosingEntryThrough?, if_neg hvalue, if_neg hstatement]

/-- A climb that comes to a value of a node's own puts the placeholder there. -/
theorem Climbs.entry_of_value (h : t.Climbs e v) (hp : t.parent? v = some p)
    (hvalue : t.HoldsAsValue v p) : t.enclosingEntry? e = some (t.placeholderEntry v) := by
  rw [h.entry_eq, ancestors_of_parent hp, enclosingEntryThrough?, if_pos hvalue]

/-- A climb that comes to a statement removes it, or replaces the expression in it. -/
theorem Climbs.entry_of_statement (h : t.Climbs e m) (hp : t.parent? m = some p)
    (hvalue : ¬ t.HoldsAsValue m p) (hstatement : t.IsStatement p) :
    t.enclosingEntry? e =
      some (if t.IsFreeExpressionStatement p then t.statementEntry p
        else t.placeholderEntry e) := by
  rw [h.entry_eq, ancestors_of_parent hp, enclosingEntryThrough?, if_neg hvalue, if_pos hstatement]

/-- A climb that comes to a node without a parent asks for nothing. -/
theorem Climbs.entry_of_root (h : t.Climbs e m) (hp : t.parent? m = none) :
    t.enclosingEntry? e = none := by
  rw [h.entry_eq, ancestors_of_no_parent hp, enclosingEntryThrough?]

/-- How a climb ends. -/
inductive ClimbEnd (t : Tree) (e : Node) : Prop where
  | value {v p : Node} (climbs : t.Climbs e v) (parent : t.parent? v = some p)
      (holds : t.HoldsAsValue v p) (entry : t.enclosingEntry? e = some (t.placeholderEntry v))
  | removed {m p : Node} (climbs : t.Climbs e m) (parent : t.parent? m = some p)
      (free : t.IsFreeExpressionStatement p)
      (entry : t.enclosingEntry? e = some (t.statementEntry p))
  | replaced {m p : Node} (climbs : t.Climbs e m) (parent : t.parent? m = some p)
      (statement : t.IsStatement p) (bound : ¬ t.IsFreeExpressionStatement p)
      (entry : t.enclosingEntry? e = some (t.placeholderEntry e))
  | root {m : Node} (climbs : t.Climbs e m) (parent : t.parent? m = none)
      (entry : t.enclosingEntry? e = none)

/-- Every climb ends in one of the four ways. -/
theorem enclosing_entry_cases (t : Tree) (e : Node) : t.ClimbEnd e := by
  have hend : ∀ m, t.Climbs e m → t.ClimbEnd e := by
    intro m
    induction m using parent_induction (t := t) with
    | root m hm => exact fun h => .root h hm (h.entry_of_root hm)
    | child m p hp ih =>
        intro h
        by_cases hvalue : t.HoldsAsValue m p
        · exact .value h hp hvalue (h.entry_of_value hp hvalue)
        · by_cases hstatement : t.IsStatement p
          · have hentry := h.entry_of_statement hp hvalue hstatement
            by_cases hfree : t.IsFreeExpressionStatement p
            · rw [if_pos hfree] at hentry
              exact .removed h hp hfree hentry
            · rw [if_neg hfree] at hentry
              exact .replaced h hp hstatement hfree hentry
          · exact ih (h.up hp hvalue hstatement)
  exact hend e .start

/-- No climb from `e` goes past the node: it is a statement around `e`, or it holds the part of it
that `e` is in as a value of its own. -/
def EndsClimb (t : Tree) (e p : Node) : Prop :=
  ∃ c, t.Within e c ∧ t.parent? c = some p ∧ (t.HoldsAsValue c p ∨ t.IsStatement p)

/-- The expression is inside a node that ends its climb. -/
theorem EndsClimb.mem_ancestors (h : t.EndsClimb e p) : p ∈ t.ancestors e := by
  obtain ⟨c, hc, hp, -⟩ := h
  rcases within_iff.mp hc with rfl | hancestor
  · exact parent_mem_ancestors hp
  · exact ancestors_trans (parent_mem_ancestors hp) hancestor

/-- A statement around an expression ends its climb. -/
theorem ends_climb_of_statement (h : p ∈ t.ancestors e) (hstatement : t.IsStatement p) :
    t.EndsClimb e p := by
  obtain ⟨c, hp, hc⟩ := exists_child_of_mem_ancestors h
  exact ⟨c, hc, hp, .inr hstatement⟩

/-- A climb passes no node that ends it, and none around such a node. -/
theorem Climbs.not_ended (h : t.Climbs e m) (hp : t.EndsClimb e p) : ¬ t.Within p m := by
  have haround := hp.mem_ancestors
  induction h with
  | start =>
      intro hwithin
      have := le_of_within hwithin
      have := lt_of_mem_ancestors haround
      omega
  | @up m q hm hq hvalue hstatement ih =>
      intro hwithin
      rcases within_iff.mp hwithin with rfl | hancestor
      · obtain ⟨c, hc, hcp, hends⟩ := hp
        obtain rfl := child_unique hcp hq hc hm.within
        exact hends.elim hvalue hstatement
      · -- The node is below `q`, so it is below the child of `q` that the climb came from.
        rcases within_total (within_of_mem_ancestors haround) hm.within with hpm | hmp
        · exact ih hpm
        · rcases within_iff.mp hmp with rfl | hpm
          · exact ih within_refl
          · have := le_of_within (parent_within hq hpm)
            have := lt_of_mem_ancestors hancestor
            omega

/-- A climb passes a node around the expression if nothing ends it up to there. -/
theorem climbs_of_not_ended {e m : Nat} (hwithin : t.Within e m)
    (hfree : ∀ p, t.EndsClimb e p → ¬ t.Within p m) : t.Climbs e m := by
  -- From the node down to the expression, by the rows that are left between them.
  induction hd : e - m using Nat.strongRecOn generalizing m with
  | ind d ih =>
      rcases within_iff.mp hwithin with rfl | hancestor
      · exact .start
      · obtain ⟨c, hc, hec⟩ := exists_child_of_mem_ancestors hancestor
        have hlt := parent_lt hc
        have hle := le_of_within hec
        have hclimbs : t.Climbs e c := by
          refine ih (e - c) (by omega) hec (fun p hp hpc => ?_) rfl
          exact hfree p hp (within_trans hpc (within_parent hc))
        refine hclimbs.up hc (fun hvalue => ?_) (fun hstatement => ?_)
        · exact hfree m ⟨c, hec, hc, .inl hvalue⟩ within_refl
        · exact hfree m ⟨c, hec, hc, .inr hstatement⟩ within_refl

/-- A climb passes the nodes around the expression up to the first that ends it. -/
theorem climbs_iff :
    t.Climbs e m ↔ t.Within e m ∧ ∀ p, t.EndsClimb e p → ¬ t.Within p m :=
  ⟨fun h => ⟨h.within, fun _ hp => h.not_ended hp⟩, fun h => climbs_of_not_ended h.1 h.2⟩

/-- An expression statement is a statement. -/
theorem IsFreeExpressionStatement.is_statement (h : t.IsFreeExpressionStatement p) :
    t.IsStatement p := by
  refine .inl ?_
  rw [h.1]
  decide

/-- A climb asks for something exactly if a node ends it. -/
theorem exists_enclosing_entry_iff :
    (∃ entry, t.enclosingEntry? e = some entry) ↔ ∃ p, t.EndsClimb e p := by
  constructor
  · rintro ⟨entry, hentry⟩
    cases enclosing_entry_cases t e with
    | @value v p climbs parent holds _ => exact ⟨p, v, climbs.within, parent, .inl holds⟩
    | @removed m p climbs parent free _ =>
        exact ⟨p, m, climbs.within, parent, .inr free.is_statement⟩
    | @replaced m p climbs parent statement _ _ =>
        exact ⟨p, m, climbs.within, parent, .inr statement⟩
    | root _ _ hnone => simp [hnone] at hentry
  · rintro ⟨p, hp⟩
    cases enclosing_entry_cases t e with
    | value _ _ _ hentry => exact ⟨_, hentry⟩
    | removed _ _ _ hentry => exact ⟨_, hentry⟩
    | replaced _ _ _ _ hentry => exact ⟨_, hentry⟩
    | @root m climbs parent _ =>
        -- Everything around the expression is within a node without a parent.
        have haround := within_of_mem_ancestors hp.mem_ancestors
        rcases within_total haround climbs.within with hpm | hmp
        · exact absurd hpm (climbs.not_ended hp)
        · rcases within_iff.mp hmp with rfl | habove
          · exact absurd within_refl (climbs.not_ended hp)
          · simp [ancestors_of_no_parent parent] at habove

end Excise.Tree
