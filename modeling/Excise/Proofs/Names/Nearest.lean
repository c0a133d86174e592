import Excise.Names.Scope
import Excise.Proofs.Syntax.Ancestry

/-!
# The scopes closest to a node

`Tree.Closest` names the closest node around another with a property. The innermost scope around a
node is the closest one that opens a scope (`scope_around_closest`), and what is hoisted from there
goes to the closest function scope (`hoist_scope_around_closest`).
-/

namespace Excise.Tree

variable {t : Tree} {a n s : Nat} {P : Node → Prop}

/-- `s` is the closest node around `n` with a property. -/
structure Closest (t : Tree) (P : Node → Prop) (n s : Node) : Prop where
  around : s ∈ t.ancestors n
  holds : P s
  nearest : ∀ a ∈ t.ancestors n, P a → t.Within s a

/-- Nodes within each other are the same. -/
theorem within_antisymm (h : t.Within a n) (h' : t.Within n a) : a = n := by
  rcases within_iff.mp h with rfl | hlt
  · rfl
  · rcases within_iff.mp h' with rfl | hgt
    · rfl
    · have := lt_of_mem_ancestors hlt
      have := lt_of_mem_ancestors hgt
      omega

/-- There is only one closest node. -/
theorem Closest.unique {s' : Node} (h : t.Closest P n s) (h' : t.Closest P n s') : s = s' :=
  within_antisymm (h.nearest s' h'.around h'.holds) (h'.nearest s h.around h.holds)

/-- The first ancestor with a property is the closest. -/
theorem closest_of_find [DecidablePred P] (h : (t.ancestors n).find? (fun a => P a) = some s) :
    t.Closest P n s := by
  obtain ⟨hs, before, after, hsplit, hbefore⟩ := List.find?_eq_some_iff_append.mp h
  refine ⟨by simp [hsplit], of_decide_eq_true hs, fun a ha hP => ?_⟩
  rw [hsplit, List.mem_append, List.mem_cons] at ha
  rcases ha with ha | rfl | ha
  · exact absurd hP (by simpa using hbefore a ha)
  · exact within_refl
  · exact within_of_mem_ancestors (ancestors_of_append hsplit ▸ ha)

/-- Every node but the root has the root around it. -/
theorem root_mem_ancestors (hn : n < t.size) (hroot : n ≠ 0) : 0 ∈ t.ancestors n := by
  have hdepth : t.depth n ≠ 0 := fun hzero => hroot ((depth_eq_zero_iff hn).mp hzero)
  obtain ⟨a, ha, hzero⟩ := exists_ancestor_of_depth (Nat.pos_of_ne_zero hdepth)
  have hlt := Nat.lt_trans (lt_of_mem_ancestors ha) hn
  rwa [(depth_eq_zero_iff hlt).mp hzero] at ha

/-- The nodes inside the root are all the others. -/
theorem mem_descendants_root : n ∈ t.descendants 0 ↔ n < t.size ∧ n ≠ 0 := by
  rw [mem_descendants_iff_mem_ancestors]
  constructor
  · intro h
    exact ⟨lt_size_of_mem_ancestors h, Nat.ne_of_gt (lt_of_mem_ancestors h)⟩
  · rintro ⟨hlt, hroot⟩
    exact root_mem_ancestors hlt hroot

/-- Outermost scopes are function scopes. -/
theorem OpensOutermostScope.opens_function (h : t.OpensOutermostScope n) :
    t.OpensFunctionScope n := by
  rcases h with rfl | hprogram
  · exact .inl rfl
  · exact .inr (by simp [functionKinds, hprogram])

/-- The innermost scope around a node is the closest ancestor that opens one. -/
theorem scope_around_closest (hn : n ∈ t.descendants 0) :
    t.Closest t.OpensScope n (t.scopeAround n) := by
  have hhead : ∀ l : List Node, (t.throughOutermost l).head? = l.head? := by
    intro l
    cases l with
    | nil => rfl
    | cons s rest =>
        rw [throughOutermost]
        split <;> rfl
  have hroot : (0 : Node) ∈ t.ancestors n := mem_descendants_iff_mem_ancestors.mp hn
  cases hfind : (t.ancestors n).find? (fun a => t.OpensScope a) with
  | none =>
      have hopens : t.OpensScope 0 := .inl (.inl rfl)
      exact absurd hopens (by simpa using List.find?_eq_none.mp hfind 0 hroot)
  | some s =>
      have hscope : t.scopeAround n = s := by
        rw [scopeAround, scopeChain, hhead, List.head?_filter, hfind, Option.getD_some]
      rw [hscope]
      exact closest_of_find hfind

/-- The chain of scopes passes over no function scope. -/
theorem find_function_scope :
    (t.scopeChain n).find? (fun s => t.OpensFunctionScope s) =
      (t.ancestors n).find? (fun s => t.OpensFunctionScope s) := by
  have hthrough : ∀ l : List Node, (t.throughOutermost l).find? (fun s => t.OpensFunctionScope s) =
      l.find? (fun s => t.OpensFunctionScope s) := by
    intro l
    induction l with
    | nil => rfl
    | cons s rest ih =>
        rw [throughOutermost]
        split
        case isTrue houtermost => simp [houtermost.opens_function]
        case isFalse => simp [List.find?_cons, ih]
  rw [scopeChain, hthrough, List.find?_filter]
  congr 1
  funext s
  have hopens : t.OpensFunctionScope s → t.OpensScope s := .inl
  simpa using hopens

/-- A scope that is no function scope hoists to the closest function scope around it. -/
theorem hoist_scope_closest (hn : n ∈ t.descendants 0) (hblock : ¬ t.OpensFunctionScope n) :
    t.Closest t.OpensFunctionScope n (t.hoistScope n) := by
  have hroot : (0 : Node) ∈ t.ancestors n := mem_descendants_iff_mem_ancestors.mp hn
  rw [hoistScope, if_neg hblock, find_function_scope]
  cases hfind : (t.ancestors n).find? (fun s => t.OpensFunctionScope s) with
  | none =>
      have hopens : t.OpensFunctionScope 0 := .inl rfl
      exact absurd hopens (by simpa using List.find?_eq_none.mp hfind 0 hroot)
  | some s => exact closest_of_find hfind

/-- The innermost scope around a node hoists to the closest function scope around the node. -/
theorem hoist_scope_around_closest (hn : n ∈ t.descendants 0) :
    t.Closest t.OpensFunctionScope n (t.hoistScope (t.scopeAround n)) := by
  have hscope := scope_around_closest hn
  by_cases hfunction : t.OpensFunctionScope (t.scopeAround n)
  · rw [hoistScope, if_pos hfunction]
    exact ⟨hscope.around, hfunction, fun a ha hP => hscope.nearest a ha (.inl hP)⟩
  · have hinside : t.scopeAround n ∈ t.descendants 0 :=
      mem_descendants_root.mpr ⟨Nat.lt_trans (lt_of_mem_ancestors hscope.around)
        (lt_size_of_mem_ancestors hscope.around), fun hzero => hfunction (.inl hzero)⟩
    have hhoist := hoist_scope_closest hinside hfunction
    refine ⟨ancestors_trans hhoist.around hscope.around, hhoist.holds, fun a ha hP => ?_⟩
    rcases within_iff.mp (hscope.nearest a ha (.inl hP)) with rfl | habove
    · exact absurd hP hfunction
    · exact hhoist.nearest a habove hP

end Excise.Tree
