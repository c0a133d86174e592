import Excise.Names.Resolution
import Excise.Proofs.Names.Placement
import Excise.Proofs.Syntax.Comments

/-!
# Names in trees with comments

Comments open no scope and declare no name, and all that decides about scopes and declarations is
found in its place. So the declarations, the bindings and their uses in a tree with comments are
those of the tree without, in their new places (`Commented.declarations_eq`,
`Commented.bindings_eq`, `Commented.uses_eq`).
-/

namespace Excise

/-- A declaration in the places of its nodes. -/
def Declaration.placed (place : Node → Node) (d : Declaration) : Declaration :=
  ⟨place d.identifier, place d.scope, d.kind⟩

/-- A binding in the places of its nodes. -/
def Binding.placed (place : Node → Node) (b : Binding) : Binding :=
  ⟨b.name, b.kind, place b.identifier, place b.scope⟩

/-- A table in new places gives the new value at the new place. -/
theorem lookup_map_places {α β : Type} {place : Node → Node} (hplace : place.Injective)
    (f : α → β) (table : List (Node × α)) (n : Node) :
    (table.map (Prod.map place f)).lookup (place n) = (table.lookup n).map f := by
  induction table with
  | nil => rfl
  | cons entry rest ih =>
      obtain ⟨m, v⟩ := entry
      rw [List.map_cons, Prod.map_apply, List.lookup_cons, List.lookup_cons, ih]
      by_cases hm : n = m
      · simp [hm]
      · simp [beq_false_of_ne hm, beq_false_of_ne (hplace.ne hm)]

namespace Tree

/-- A comment declares nothing. -/
theorem IsComment.declarations_at_eq {t : Tree} {n : Node} (h : t.IsComment n) :
    t.declarationsAt n = [] := by
  simp [declarationsAt, h.kind_eq, functionKinds, declaredClassKinds]

namespace Commented

variable {t t' : Tree} {place : Nat → Nat} {n : Nat} {bindings : List Binding}
  (h : t.Commented t' place)

include h

/-! ## Scopes -/

theorem place_eq_zero_iff (n : Nat) : place n = 0 ↔ n = 0 := by
  rw [← h.place_inj (m := n), h.root_place]

theorem opens_outermost_scope_iff (n : Nat) :
    t'.OpensOutermostScope (place n) ↔ t.OpensOutermostScope n := by
  rw [OpensOutermostScope, OpensOutermostScope, h.place_eq_zero_iff, h.kind_eq]

theorem opens_function_scope_iff (n : Nat) :
    t'.OpensFunctionScope (place n) ↔ t.OpensFunctionScope n := by
  rw [OpensFunctionScope, OpensFunctionScope, h.place_eq_zero_iff, h.kind_eq]

theorem opens_scope_iff (n : Nat) : t'.OpensScope (place n) ↔ t.OpensScope n := by
  rw [OpensScope, OpensScope, h.opens_function_scope_iff, IsNamedClassExpression,
    IsNamedClassExpression, h.kind_eq, h.child_by_field_eq, Option.isSome_map]

theorem through_outermost_eq (scopes : List Node) :
    t'.throughOutermost (scopes.map place) = (t.throughOutermost scopes).map place := by
  induction scopes with
  | nil => rfl
  | cons s rest ih =>
      rw [List.map_cons, throughOutermost, throughOutermost, ih]
      simp only [h.opens_outermost_scope_iff]
      split <;> rfl

theorem scope_chain_eq (n : Nat) : t'.scopeChain (place n) = (t.scopeChain n).map place := by
  rw [scopeChain, scopeChain, h.ancestors_eq, List.filter_map, h.through_outermost_eq]
  simp only [Function.comp_def, h.opens_scope_iff]

theorem scope_around_eq (n : Nat) : t'.scopeAround (place n) = place (t.scopeAround n) := by
  rw [scopeAround, scopeAround, h.scope_chain_eq, List.head?_map]
  cases (t.scopeChain n).head? with
  | none => exact h.root_place.symm
  | some s => rfl

theorem hoist_scope_eq (n : Nat) : t'.hoistScope (place n) = place (t.hoistScope n) := by
  rw [hoistScope, hoistScope, h.scope_chain_eq, List.find?_map]
  simp only [Function.comp_def, h.opens_function_scope_iff]
  split
  case isTrue => rfl
  case isFalse =>
    cases (t.scopeChain n).find? fun s => decide (t.OpensFunctionScope s) <;> rfl

/-! ## Declarations -/

theorem declare_eq (identifiers : List Node) (scope : Node) (kind : BindingKind) :
    t'.declare (identifiers.map place) (place scope) kind =
      (t.declare identifiers scope kind).map (Declaration.placed place) := by
  rw [declare, declare, List.filter_map, List.map_map, List.map_map]
  simp only [Function.comp_def, h.is_binding_identifier_iff]
  rfl

/-- The declaration of the name in a field. -/
theorem declare_field_eq (q : Node) (name : String) (scope : Node) (kind : BindingKind) :
    t'.declare (t'.childByField? (place q) name).toList (place scope) kind =
      (t.declare (t.childByField? q name).toList scope kind).map (Declaration.placed place) := by
  rw [h.child_by_field_eq, Option.toList_map, h.declare_eq]

/-- The declarations of the pattern in a field. -/
theorem declare_pattern_eq (q : Node) (name : String) (scope : Node) (kind : BindingKind) :
    t'.declare (t'.boundIdentifiersIn (t'.childByField? (place q) name)) (place scope) kind =
      (t.declare (t.boundIdentifiersIn (t.childByField? q name)) scope kind).map
        (Declaration.placed place) := by
  rw [h.child_by_field_eq, h.bound_identifiers_in_eq, h.declare_eq]

theorem declarator_identifiers_eq (n : Node) :
    t'.declaratorIdentifiers (place n) = (t.declaratorIdentifiers n).map place := by
  rw [declaratorIdentifiers, declaratorIdentifiers,
    h.named_children_of_kind_eq n (by decide), List.flatMap_map, List.map_flatMap]
  simp only [h.child_by_field_eq, h.bound_identifiers_in_eq]

theorem function_declarations_eq (n : Node) :
    t'.functionDeclarations (place n) =
      (t.functionDeclarations n).map (Declaration.placed place) := by
  simp only [functionDeclarations, h.kind_eq, h.scope_around_eq, h.declare_field_eq,
    apply_ite (List.map (Declaration.placed place)), List.map_nil]

theorem lexical_word_eq (n : Node) : t'.lexicalWord (place n) = t.lexicalWord n := by
  rw [lexicalWord, lexicalWord, h.word_text_eq n (by simp)]

theorem loop_declarations_eq (n : Node) :
    t'.loopDeclarations (place n) = (t.loopDeclarations n).map (Declaration.placed place) := by
  have hword := h.word_text_eq n (show "kind" ∈ ["kind", "operator"] by simp)
  rw [loopDeclarations, loopDeclarations]
  rw [h.child_by_field_eq] at hword ⊢
  cases hkind : t.childByField? n "kind" with
  | none => rfl
  | some word =>
      have htext : t'.text (place word) = t.text word := by simpa [hkind] using hword
      simp only [Option.map_some, htext]
      split
      case isTrue => rw [h.hoist_scope_eq, h.declare_pattern_eq]
      case isFalse => rw [h.declare_pattern_eq]

/-- The declarations of a parameter list. -/
theorem declare_parameters_eq (n : Node) (scope : Node) :
    t'.declare ((t'.namedChildren (place n)).flatMap t'.boundIdentifiers) (place scope) .parameter =
      (t.declare ((t.namedChildren n).flatMap t.boundIdentifiers) scope .parameter).map
        (Declaration.placed place) := by
  have hbound := (h.named_children n).flat_map_eq (fun m _ => h.bound_identifiers_eq m)
    fun i hi => hi.bound_within_eq t'.size
  rw [← h.declare_eq, ← hbound]

theorem declarations_at_eq (n : Node) :
    t'.declarationsAt (place n) = (t.declarationsAt n).map (Declaration.placed place) := by
  have hroot : t'.declare (t'.importedNames (place n)) 0 .imported =
      (t.declare (t.importedNames n) 0 .imported).map (Declaration.placed place) := by
    rw [h.imported_names_eq, ← h.declare_eq, h.root_place]
  simp only [declarationsAt, h.opens_outermost_scope_iff, h.kind_eq, h.function_declarations_eq,
    h.scope_around_eq, h.hoist_scope_eq, h.declare_field_eq, h.declare_pattern_eq,
    h.loop_declarations_eq, h.declare_parameters_eq, h.declarator_identifiers_eq, h.declare_eq,
    h.lexical_word_eq, hroot, apply_ite (List.map (Declaration.placed place)), List.map_nil]

/-- The declarations of the tree, in their places. -/
theorem declarations_eq :
    t'.declarations = t.declarations.map (Declaration.placed place) :=
  h.nodes.flat_map_eq (fun n _ => h.declarations_at_eq n) fun _ hi => hi.declarations_at_eq

/-- A declared name keeps its text. -/
theorem text_of_declaration {d : Declaration} (hd : d ∈ t.declarations) :
    t'.text (place d.identifier) = t.text d.identifier := by
  obtain ⟨construct, hplaces⟩ := places_iff_declared.mpr ⟨d, hd, rfl, rfl⟩
  have hkinds : ∀ k ∈ bindingKinds, k ∈ "string" :: referenceKinds := by decide +kernel
  exact h.text_eq _ (.inl (hkinds _ hplaces.is_identifier))

/-! ## Bindings and uses -/

theorem placed_inj {b c : Binding} : b.placed place = c.placed place ↔ b = c := by
  cases b
  cases c
  simp only [Binding.placed, Binding.mk.injEq, h.place_inj]

theorem binding_at_eq (bindings : List Binding) (scope : Node) (name : String) :
    bindingAt? (bindings.map (Binding.placed place)) (place scope) name =
      (bindingAt? bindings scope name).map (Binding.placed place) := by
  rw [bindingAt?, bindingAt?, List.find?_map]
  simp only [Function.comp_def, Binding.placed, h.place_inj]

theorem add_declaration_eq {d : Declaration} (hd : d ∈ t.declarations) (bindings : List Binding) :
    t'.addDeclaration (bindings.map (Binding.placed place)) (d.placed place) =
      (t.addDeclaration bindings d).map (Binding.placed place) := by
  have hat := h.binding_at_eq bindings d.scope (t.text d.identifier)
  simp only [addDeclaration, Declaration.placed, h.text_of_declaration hd, hat]
  cases bindingAt? bindings d.scope (t.text d.identifier) with
  | none => simp [Binding.placed, madeBinding, h.text_of_declaration hd]
  | some b => rfl

/-- The bindings of the tree, in their places. -/
theorem bindings_eq : t'.bindings = t.bindings.map (Binding.placed place) := by
  have hfold : ∀ (rest : List Declaration) (bindings : List Binding), rest ⊆ t.declarations →
      (rest.map (Declaration.placed place)).foldl t'.addDeclaration
          (bindings.map (Binding.placed place)) =
        (rest.foldl t.addDeclaration bindings).map (Binding.placed place) := by
    intro rest
    induction rest with
    | nil => exact fun _ _ => rfl
    | cons d rest ih =>
        intro bindings hrest
        obtain ⟨hd, hrest⟩ := List.cons_subset.mp hrest
        rw [List.map_cons, List.foldl_cons, List.foldl_cons, h.add_declaration_eq hd, ih _ hrest]
  rw [Tree.bindings, h.declarations_eq]
  exact hfold t.declarations [] (List.Subset.refl _)

/-- The declaring nodes with their bindings, in their places. -/
theorem declared_eq :
    t'.resolution.declared = t.resolution.declared.map (Prod.map place (Binding.placed place)) := by
  have hdeclared : ∀ u : Tree, u.resolution.declared = u.declaredWith u.bindings := fun u => rfl
  rw [hdeclared, hdeclared, declaredWith, declaredWith, h.declarations_eq, h.bindings_eq,
    List.filterMap_map, List.map_filterMap]
  refine List.filterMap_congr fun d hd => ?_
  have hat := h.binding_at_eq t.bindings d.scope (t.text d.identifier)
  rw [Function.comp_apply, Declaration.placed, h.text_of_declaration hd, hat, Option.map_map,
    Option.map_map]
  rfl

theorem declares_iff (n : Nat) : t'.resolution.Declares (place n) ↔ t.resolution.Declares n := by
  rw [Resolution.Declares, Resolution.Declares, h.declared_eq,
    lookup_map_places h.order.injective, Option.isSome_map]

theorem in_use_position_iff (n : Node) : t'.InUsePosition (place n) ↔ t.InUsePosition n := by
  have hreexports : ∀ m, t'.Reexports (place m) ↔ t.Reexports m := by
    intro m
    have hparents : ((t'.parent? (place m)).bind t'.parent?) =
        ((t.parent? m).bind t.parent?).map place := by
      rw [h.parent_eq]
      cases t.parent? m with
      | none => rfl
      | some p => exact h.parent_eq p
    rw [Reexports, Reexports, hparents]
    cases (t.parent? m).bind t.parent? with
    | none => rfl
    | some q => simp [h.child_by_field_eq]
  rw [InUsePosition, InUsePosition, h.parent_eq]
  cases t.parent? n with
  | none => simp
  | some p => simp [h.kind_eq, h.field_is_iff, hreexports]

/-- A name means the same binding, in its place. -/
theorem lookup_eq (bindings : List Binding) (n : Node) (name : String) :
    t'.lookup? (bindings.map (Binding.placed place)) (place n) name =
      (t.lookup? bindings n name).map (Binding.placed place) := by
  rw [lookup?, lookup?, h.scope_chain_eq, List.findSome?_map, List.map_findSome?]
  exact congrArg₂ _ (funext fun s => h.binding_at_eq bindings s name) rfl

/-- The uses with their bindings, in their places. -/
theorem uses_eq :
    t'.resolution.uses = t.resolution.uses.map (Prod.map place (Binding.placed place)) := by
  have huses : ∀ u : Tree, u.resolution.uses = u.usesWith u.bindings u.resolution.declared :=
    fun u => rfl
  rw [huses, huses, usesWith, usesWith]
  refine h.nodes.filter_map_eq (fun n _ => ?_) fun i hi => ?_
  · have hdeclares : (t'.resolution.declared.lookup (place n)).isNone =
        (t.resolution.declared.lookup n).isNone := by
      rw [h.declared_eq, lookup_map_places h.order.injective, Option.isNone_map]
    rw [h.kind_eq, hdeclares]
    simp only [h.in_use_position_iff]
    split
    case isTrue huse =>
      have htext := h.text_eq n (.inl (List.mem_cons_of_mem _ huse.1))
      rw [htext, h.bindings_eq, h.lookup_eq, Option.map_map, Option.map_map]
      rfl
    case isFalse => rfl
  · exact if_neg fun huse => by simp [hi.kind_eq, referenceKinds] at huse

/-- Every node belongs to the same binding, in its place. -/
theorem binding_of_eq (n : Node) :
    t'.resolution.bindingOf? (place n) =
      (t.resolution.bindingOf? n).map (Binding.placed place) := by
  rw [Resolution.bindingOf?, Resolution.bindingOf?, h.declared_eq, h.uses_eq,
    lookup_map_places h.order.injective, lookup_map_places h.order.injective, Option.map_or]

/-- The uses of a binding, in their places. -/
theorem uses_of_eq (b : Binding) :
    t'.resolution.usesOf (b.placed place) = (t.resolution.usesOf b).map place := by
  rw [Resolution.usesOf, Resolution.usesOf, h.uses_eq, List.filter_map, List.map_map, List.map_map]
  simp only [Function.comp_def, Prod.map_snd, h.placed_inj]
  rfl

/-- The bindings that a pattern declares, in their places. -/
theorem bindings_in_eq (pattern : Option Node) :
    t'.resolution.bindingsIn t' (pattern.map place) =
      (t.resolution.bindingsIn t pattern).map (Binding.placed place) := by
  rw [Resolution.bindingsIn, Resolution.bindingsIn, h.bound_identifiers_in_eq, List.filterMap_map,
    List.map_filterMap, h.declared_eq]
  refine List.filterMap_congr fun i _ => ?_
  exact lookup_map_places h.order.injective _ _ i

end Commented

end Tree

end Excise
