import Excise.Names.Resolution
import Excise.Proofs.Syntax.Ancestry

/-!
# Where bindings come from

Every binding that the tables of a resolution give out is one of its bindings
(`mem_bindings_of_binding_of`), and every use of a binding is an identifier (`use_kind`).
-/

namespace Excise

variable {t : Tree} {n scope : Node} {b : Binding} {name : String} {bindings : List Binding}
  {declared : List (Node × Binding)}

/-- What a scope gives for a name is one of the bindings. -/
theorem binding_at_mem (h : bindingAt? bindings scope name = some b) : b ∈ bindings :=
  List.mem_of_find?_eq_some h

/-- An entry that a table gives for a key is in the table. -/
theorem mem_of_lookup {table : List (Node × Binding)} (h : table.lookup n = some b) :
    (n, b) ∈ table := by
  obtain ⟨before, after, rfl, -⟩ := List.lookup_eq_some_iff.mp h
  simp

namespace Tree

/-- A name is looked up among the bindings. -/
theorem lookup_mem (h : t.lookup? bindings n name = some b) : b ∈ bindings := by
  obtain ⟨scope, -, hscope⟩ := List.exists_of_findSome?_eq_some h
  exact binding_at_mem hscope

/-- A declaring node declares one of the bindings. -/
theorem binding_mem_of_declared (h : (n, b) ∈ t.declaredWith bindings) : b ∈ bindings := by
  simp only [declaredWith, List.mem_filterMap, Option.map_eq_some_iff, Prod.mk.injEq] at h
  obtain ⟨d, -, c, hc, -, rfl⟩ := h
  exact binding_at_mem hc

/-- A use stands where an identifier can be used, and means one of the bindings. -/
theorem mem_uses (h : (n, b) ∈ t.usesWith bindings declared) :
    t.kind n ∈ referenceKinds ∧ t.InUsePosition n ∧ b ∈ bindings := by
  rw [usesWith, List.mem_filterMap] at h
  obtain ⟨m, -, h⟩ := h
  split at h
  case isTrue hm =>
    simp only [Option.map_eq_some_iff, Prod.mk.injEq] at h
    obtain ⟨c, hc, rfl, rfl⟩ := h
    exact ⟨hm.1, hm.2.2, lookup_mem hc⟩
  case isFalse => simp at h

/-- A use declares nothing. -/
theorem not_declared_of_mem_uses (h : (n, b) ∈ t.usesWith bindings declared) :
    declared.lookup n = none := by
  rw [usesWith, List.mem_filterMap] at h
  obtain ⟨m, -, h⟩ := h
  split at h
  case isTrue hm =>
    simp only [Option.map_eq_some_iff, Prod.mk.injEq] at h
    obtain ⟨c, -, rfl, -⟩ := h
    exact Option.isNone_iff_eq_none.mp hm.2.1
  case isFalse => simp at h

end Tree

namespace Resolution

/-- The uses of a binding are the entries of the table of uses that name it. -/
theorem mem_uses_of {r : Resolution} : n ∈ r.usesOf b ↔ (n, b) ∈ r.uses := by
  simp only [usesOf, List.mem_map, List.mem_filter, decide_eq_true_eq]
  constructor
  · rintro ⟨⟨m, c⟩, ⟨hmem, rfl⟩, rfl⟩
    exact hmem
  · intro hmem
    exact ⟨(n, b), ⟨hmem, rfl⟩, rfl⟩

/-- A use of a binding is an identifier. -/
theorem use_kind (h : n ∈ t.resolution.usesOf b) : t.kind n ∈ Tree.referenceKinds :=
  (Tree.mem_uses (mem_uses_of.mp h)).1

/-- A use of a binding declares nothing. -/
theorem not_declares_of_use (h : n ∈ t.resolution.usesOf b) : ¬ t.resolution.Declares n := by
  have hmem : (n, b) ∈ t.usesWith t.bindings t.resolution.declared := mem_uses_of.mp h
  simp [Declares, Tree.not_declared_of_mem_uses hmem]

/-- The binding of a node is one of the bindings of the tree. -/
theorem mem_bindings_of_binding_of (h : t.resolution.bindingOf? n = some b) :
    b ∈ t.resolution.bindings := by
  rcases Option.or_eq_some_iff.mp h with hdeclared | ⟨-, huse⟩
  · exact Tree.binding_mem_of_declared (mem_of_lookup hdeclared)
  · exact (Tree.mem_uses (mem_of_lookup huse)).2.2

/-- What a pattern declares are bindings of the tree. -/
theorem mem_bindings_of_bindings_in {pattern : Option Node}
    (h : b ∈ t.resolution.bindingsIn t pattern) : b ∈ t.resolution.bindings := by
  obtain ⟨i, -, hi⟩ := List.mem_filterMap.mp h
  exact Tree.binding_mem_of_declared (mem_of_lookup hi)

end Resolution

end Excise
