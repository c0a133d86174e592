import Excise.Proofs.Edit.Pruning
import Excise.Proofs.Plan.Origin

/-!
# What kinds of node a plan cuts out

A plan deletes statements of a few kinds and removes items of two kinds of list (`cutKinds`), where
exported names stand in export statements. `kind_of_cut` says so of all that is cut out when the
plan is carried out, with the owners of the lists that lose all their items. The root of a program
is therefore left (`leaves_root`).
-/

namespace Excise

namespace Tree

variable {t : Tree} {target : String} {c i m n : Nat}

/-- The kinds of node that a plan cuts out. -/
def cutKinds : List String :=
  ["import_statement", "expression_statement", "export_statement", "variable_declarator",
    "export_specifier"] ++ declarationKinds

/-- The node is a list of declarators, or one of names in an export statement. -/
def IsCutList (t : Tree) (c : Node) : Prop :=
  t.kind c ∈ declarationKinds ∨ t.ParentIs c "export_statement"

/-- A statement with the `export` around it. -/
theorem kind_of_whole_statement (h : t.kind n ∈ cutKinds) :
    t.kind (t.wholeStatement n) ∈ cutKinds := by
  rw [wholeStatement]
  split
  case h_1 p hp =>
    split
    case isTrue hexport => simp [hexport, cutKinds]
    case isFalse => exact h
  case h_2 => exact h

/-- What a list takes with it when it loses all its items. -/
theorem kind_of_list_owner (h : t.IsCutList c) : t.kind (t.listOwner c) ∈ cutKinds := by
  rw [listOwner]
  split
  case isTrue hdeclaration =>
    exact kind_of_whole_statement (List.mem_append_right _ hdeclaration)
  case isFalse hother =>
    obtain ⟨p, hp, hkind⟩ := h.resolve_left hother
    rw [Option.mem_def.mp hp, Option.getD_some, hkind]
    simp [cutKinds]

/-- A marked item is of one of the kinds. -/
theorem IsMarkedItem.kind_mem (h : t.IsMarkedItem target i) : t.kind i ∈ cutKinds := by
  rcases h.kind_eq with hkind | hkind
  · simp [hkind, cutKinds]
  · simp [hkind, cutKinds]

section ExportedNames

variable (hexports : ∀ s, t.kind s = "export_specifier" →
  ∀ c ∈ t.parent? s, t.ParentIs c "export_statement")

include hexports

/-- A marked item stands in such a list. -/
theorem IsMarkedItem.in_cut_list (h : t.IsMarkedItem target i) (hc : t.parent? i = some c) :
    t.IsCutList c := by
  cases h with
  | declarator _ _ declared =>
      obtain ⟨p, hp, hkind⟩ := declared
      exact .inl (Option.mem_unique hp hc ▸ hkind)
  | specifier usage role =>
      have hfits := usage.fits
      rw [UsageFits, role] at hfits
      exact .inr (hexports i hfits.1 c hc)

/-- What a plan deletes is of one of the kinds. -/
theorem kind_of_deletion (h : m ∈ (Analysis.run t target).plan.deletions) :
    t.kind m ∈ cutKinds := by
  rcases deletion_origin h with ⟨n, himport | heffect, rfl⟩ | ⟨i, c, hmarked, hc, -, rfl⟩
  · exact kind_of_whole_statement (by simp [himport.2.1, cutKinds])
  · exact kind_of_whole_statement (by simp [heffect.1, cutKinds])
  · exact kind_of_list_owner (hmarked.in_cut_list hexports hc)

/-- What is cut out when the plan of an analysis is carried out is of one of the kinds. -/
theorem kind_of_cut (h : m ∈ (Analysis.run t target).plan.cutNodes t) : t.kind m ∈ cutKinds := by
  rcases List.mem_append.mp h with hstatement | hmem
  · rcases Plan.mem_statements.mp hstatement with hdelete | ⟨l, hl, -, rfl⟩
    · exact kind_of_deletion hexports hdelete
    · obtain ⟨i, hi, hparent, -⟩ := Plan.exists_first_marked hl
      exact kind_of_list_owner ((item_origin hi).1.in_cut_list hexports hparent)
  · exact (item_origin hmem).1.kind_mem

end ExportedNames

/-- The plan of an analysis leaves the root of a program. -/
theorem leaves_root (hroot : t.kind 0 = "program")
    (hexports : ∀ s, t.kind s = "export_specifier" →
      ∀ c ∈ t.parent? s, t.ParentIs c "export_statement") :
    (Analysis.run t target).plan.Leaves t 0 := by
  refine ⟨t.size_pos, fun m hm hwithin => ?_,
    fun m _ hm => Nat.not_lt_zero m (lt_of_mem_ancestors hm)⟩
  rcases within_iff.mp hwithin with rfl | hm'
  · have hkind := kind_of_cut hexports hm
    rw [hroot] at hkind
    simp [cutKinds, declarationKinds] at hkind
  · exact Nat.not_lt_zero m (lt_of_mem_ancestors hm')

end Tree

end Excise
