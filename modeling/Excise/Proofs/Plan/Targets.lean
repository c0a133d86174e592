import Excise.Proofs.Plan.Origin

/-!
# Whole statements and spare items

Where declarators stand in declarations and exported names in export statements, a plan deletes
whole statements only, and removes an item only from a list that has another of its kind
(`deletions_are_whole_statements`). A deletion gets to its statement from an import, from an effect
or from the only item of a list (`deletion_origin`); in each case the `export` around it goes too.
-/

namespace Excise.Tree

variable {t : Tree} {target : String} {c i m n : Nat}

/-- The kinds of statement that a plan deletes. -/
def deletedKinds : List String :=
  ["import_statement", "expression_statement", "export_statement"] ++ declarationKinds

/-- The node is a statement of such a kind, together with the `export` around it. -/
structure IsWholeStatement (t : Tree) (n : Node) : Prop where
  kind_mem : t.kind n ∈ deletedKinds
  not_exported : t.kind n ≠ "export_statement" → ¬ t.ParentIs n "export_statement"

/-- Every declarator is a named child of a declaration. -/
def DeclaratorsListed (t : Tree) : Prop :=
  ∀ d ∈ t.nodes, t.kind d = "variable_declarator" →
    t.named d ∧ ∃ p ∈ t.parent? d, t.kind p ∈ declarationKinds

/-- The nodes are looked up one by one. -/
instance : Decidable t.DeclaratorsListed :=
  inferInstanceAs (Decidable (∀ d ∈ t.nodes, t.kind d = "variable_declarator" →
    t.named d ∧ ∃ p ∈ t.parent? d, t.kind p ∈ declarationKinds))

/-- Every exported name is a named child of a list in an export statement. -/
def SpecifiersListed (t : Tree) : Prop :=
  ∀ s ∈ t.nodes, t.kind s = "export_specifier" →
    t.named s ∧ ∃ p ∈ t.parent? s, t.kind p = "export_clause" ∧ t.ParentIs p "export_statement"

/-- The nodes are looked up one by one. -/
instance : Decidable t.SpecifiersListed :=
  inferInstanceAs (Decidable (∀ s ∈ t.nodes, t.kind s = "export_specifier" →
    t.named s ∧ ∃ p ∈ t.parent? s, t.kind p = "export_clause" ∧ t.ParentIs p "export_statement"))

/-- Only an `export` around a statement is deleted for it. -/
theorem whole_statement_cases (t : Tree) (n : Node) :
    (t.wholeStatement n = n ∧ ¬ t.ParentIs n "export_statement") ∨
      t.parent? n = some (t.wholeStatement n) ∧
        t.kind (t.wholeStatement n) = "export_statement" := by
  rw [wholeStatement]
  split
  case h_1 p hp =>
    split
    case isTrue hexport => exact .inr ⟨hp, hexport⟩
    case isFalse hother =>
      refine .inl ⟨rfl, ?_⟩
      rintro ⟨q, hq, hkind⟩
      exact hother (Option.some.inj (hp.symm.trans hq) ▸ hkind)
  case h_2 hroot =>
    refine .inl ⟨rfl, ?_⟩
    rintro ⟨q, hq, -⟩
    simp [hroot] at hq

/-- A statement of such a kind, with the `export` around it. -/
theorem is_whole_statement (h : t.kind n ∈ deletedKinds) :
    t.IsWholeStatement (t.wholeStatement n) := by
  rcases t.whole_statement_cases n with ⟨heq, hfree⟩ | ⟨-, hexport⟩
  · rw [heq]
    exact ⟨h, fun _ => hfree⟩
  · exact ⟨by simp [hexport, deletedKinds], fun hother => absurd hexport hother⟩

/-- A list of declarators goes with its declaration. -/
theorem list_owner_of_declaration (h : t.kind c ∈ declarationKinds) :
    t.listOwner c = t.wholeStatement c := by
  rw [listOwner, if_pos h]

/-- A list of exported names goes with the statement around it. -/
theorem parent_of_export_list (h : t.kind c = "export_clause")
    (hparent : t.ParentIs c "export_statement") :
    t.parent? c = some (t.listOwner c) ∧ t.kind (t.listOwner c) = "export_statement" := by
  obtain ⟨p, hp, hkind⟩ := hparent
  rw [listOwner, if_neg (by simp [h, declarationKinds]), Option.mem_def.mp hp, Option.getD_some]
  exact ⟨rfl, hkind⟩

/-- An item that is not the only one of its kind in its list has a sibling there. -/
theorem exists_sibling (hnamed : t.named i) (hc : t.parent? i = some c)
    (hmore : (t.namedChildrenOfKind c (t.kind i)).length ≠ 1) :
    ∃ m ∈ t.namedChildrenOfKind c (t.kind i), m ≠ i := by
  have hi : i ∈ t.namedChildrenOfKind c (t.kind i) :=
    mem_named_children_of_kind.mpr ⟨hc, hnamed, rfl⟩
  by_contra hnone
  simp only [not_exists, not_and, not_not] at hnone
  have hnodup : (t.namedChildrenOfKind c (t.kind i)).Nodup :=
    (t.named_children_of_kind_in_order c _).imp Nat.ne_of_lt
  have hle := hnodup.length_le_of_subset (fun m hm => List.mem_singleton.mpr (hnone m hm))
  have hpos := List.length_pos_of_mem hi
  simp only [List.length_singleton] at hle
  omega

section Listed

variable (hdeclarators : t.DeclaratorsListed) (hspecifiers : t.SpecifiersListed)

include hdeclarators hspecifiers

/-- A marked item is a declarator in a declaration or a name in an export statement. -/
theorem IsMarkedItem.listed (h : t.IsMarkedItem target i) (hc : t.parent? i = some c) :
    t.named i ∧
      (t.kind i = "variable_declarator" ∧ t.kind c ∈ declarationKinds ∨
        t.kind i = "export_specifier" ∧ t.kind c = "export_clause" ∧
          t.ParentIs c "export_statement") := by
  have hrow : i ∈ t.nodes :=
    List.mem_range.mpr (lt_size_of_mem_ancestors (parent_mem_ancestors hc))
  rcases h.kind_eq with hkind | hkind
  · obtain ⟨hnamed, p, hp, hdeclaration⟩ := hdeclarators i hrow hkind
    exact ⟨hnamed, .inl ⟨hkind, Option.mem_unique hp hc ▸ hdeclaration⟩⟩
  · obtain ⟨hnamed, p, hp, hclause, hexport⟩ := hspecifiers i hrow hkind
    obtain rfl := Option.mem_unique hp hc
    exact ⟨hnamed, .inr ⟨hkind, hclause, hexport⟩⟩

/-- The list that a marked item stands in goes with a whole statement. -/
theorem IsMarkedItem.owner_is_whole (h : t.IsMarkedItem target i) (hc : t.parent? i = some c) :
    t.IsWholeStatement (t.listOwner c) := by
  rcases (h.listed hdeclarators hspecifiers hc).2 with ⟨-, hdeclaration⟩ | ⟨-, hclause, hparent⟩
  · rw [list_owner_of_declaration hdeclaration]
    exact is_whole_statement (List.mem_append_right _ hdeclaration)
  · have hexport := (parent_of_export_list hclause hparent).2
    exact ⟨by simp [hexport, deletedKinds], fun hother => absurd hexport hother⟩

end Listed

/-- Where declarators stand in declarations and exported names in export statements, every deletion
of a plan is an import, an effect, a declaration or an export as a whole statement, and every item
removed is a declarator or an exported name with another of its kind beside it. -/
theorem deletions_are_whole_statements (t : Tree) (target : String)
    (hdeclarators : t.DeclaratorsListed) (hspecifiers : t.SpecifiersListed) :
    (∀ n ∈ (Analysis.run t target).plan.deletions, t.IsWholeStatement n) ∧
      ∀ i ∈ (Analysis.run t target).plan.items,
        t.kind i ∈ ["variable_declarator", "export_specifier"] ∧
          ∃ c, t.parent? i = some c ∧ ∃ m ∈ t.namedChildrenOfKind c (t.kind i), m ≠ i := by
  constructor
  · intro n hn
    rcases deletion_origin hn with ⟨s, himport | heffect, rfl⟩ | ⟨i, c, hmarked, hc, -, rfl⟩
    · exact is_whole_statement (by simp [himport.2.1, deletedKinds])
    · exact is_whole_statement (by simp [heffect.1, deletedKinds])
    · exact hmarked.owner_is_whole hdeclarators hspecifiers hc
  · intro i hi
    obtain ⟨hmarked, c, hc, hmore⟩ := item_origin hi
    obtain ⟨hnamed, -⟩ := hmarked.listed hdeclarators hspecifiers hc
    exact ⟨by simpa using hmarked.kind_eq, c, hc, exists_sibling hnamed hc hmore⟩

/-- The program `export const b=require("debug");const c=1;export{b as a,c};`. -/
def exportedLoad : Tree :=
  (Tree.ofRows? (Bytes.ofText
      "export const b=require(\"debug\");const c=1;export\x7bb as a,c\x7d;")
    #[⟨0, true, "program", 0, 59, none⟩,
      ⟨1, true, "export_statement", 0, 32, none⟩,
      ⟨2, true, "lexical_declaration", 7, 32, some "declaration"⟩,
      ⟨3, false, "const", 7, 12, some "kind"⟩,
      ⟨3, true, "variable_declarator", 13, 31, none⟩,
      ⟨4, true, "identifier", 13, 14, some "name"⟩,
      ⟨4, true, "call_expression", 15, 31, some "value"⟩,
      ⟨5, true, "identifier", 15, 22, some "function"⟩,
      ⟨5, true, "arguments", 22, 31, some "arguments"⟩,
      ⟨6, true, "string", 23, 30, none⟩,
      ⟨7, true, "string_fragment", 24, 29, none⟩,
      ⟨1, true, "lexical_declaration", 32, 42, none⟩,
      ⟨2, false, "const", 32, 37, some "kind"⟩,
      ⟨2, true, "variable_declarator", 38, 41, none⟩,
      ⟨3, true, "identifier", 38, 39, some "name"⟩,
      ⟨3, true, "number", 40, 41, some "value"⟩,
      ⟨1, true, "export_statement", 42, 59, none⟩,
      ⟨2, true, "export_clause", 48, 58, none⟩,
      ⟨3, true, "export_specifier", 49, 55, none⟩,
      ⟨4, true, "identifier", 49, 50, some "name"⟩,
      ⟨4, true, "identifier", 54, 55, some "alias"⟩,
      ⟨3, true, "export_specifier", 56, 57, none⟩,
      ⟨4, true, "identifier", 56, 57, some "name"⟩]).get (by decide +kernel)

/-- Its plan deletes the first `export` as a whole, and takes one of two names out of the other. -/
theorem exported_load_deleted_whole :
    (exportedLoad.DeclaratorsListed ∧ exportedLoad.SpecifiersListed) ∧
      1 ∈ (Analysis.run exportedLoad "debug").plan.deletions ∧ exportedLoad.IsWholeStatement 1 ∧
      18 ∈ (Analysis.run exportedLoad "debug").plan.items ∧
      ∃ c, exportedLoad.parent? 18 = some c ∧
        ∃ m ∈ exportedLoad.namedChildrenOfKind c (exportedLoad.kind 18), m ≠ 18 := by
  have hdeclarators : exportedLoad.DeclaratorsListed := by decide +kernel
  have hspecifiers : exportedLoad.SpecifiersListed := by decide +kernel
  have hdeletion : 1 ∈ (Analysis.run exportedLoad "debug").plan.deletions := by decide +kernel
  have hitem : 18 ∈ (Analysis.run exportedLoad "debug").plan.items := by decide +kernel
  obtain ⟨hwhole, hspare⟩ :=
    deletions_are_whole_statements exportedLoad "debug" hdeclarators hspecifiers
  exact ⟨⟨hdeclarators, hspecifiers⟩, hdeletion, hwhole 1 hdeletion, hitem, (hspare 18 hitem).2⟩

end Excise.Tree
