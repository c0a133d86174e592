import Excise.Names.Declaration
import Excise.Plan.Demand

/-!
# Trees of the same form

Two trees have the same form if they have the same rows but for the ranges, and the same words where
a word decides what a construct means (`Tree.SameForm`). Everything that the analysis reads off a
tree but the names and the module specifiers is the same in both: what is around a node and inside
it, the scopes, the declared identifiers, and what becomes of a value.
-/

namespace Excise.Tree

/-- The node is a word of its construct: what kind of declaration it is, or an operator. -/
def IsWord (t : Tree) (n : Node) : Prop := t.field n ∈ [some "kind", some "operator"]

/-- The field is looked up in a finite list. -/
instance (t : Tree) (n : Node) : Decidable (t.IsWord n) := inferInstanceAs (Decidable (_ ∈ _))

/-- The node is one whose text the analysis reads: an identifier, a string, or a word. -/
def IsLexeme (t : Tree) (n : Node) : Prop :=
  t.kind n ∈ "string" :: referenceKinds ∨ t.IsWord n

/-- The kind and the field decide it. -/
instance (t : Tree) (n : Node) : Decidable (t.IsLexeme n) :=
  inferInstanceAs (Decidable (_ ∨ _))

/-- The trees have the same rows but for the ranges, and the same words. -/
structure SameForm (t t' : Tree) : Prop where
  size_eq : t'.size = t.size
  depth_eq : ∀ n, t'.depth n = t.depth n
  named_eq : ∀ n, t'.named n = t.named n
  kind_eq : ∀ n, t'.kind n = t.kind n
  field_eq : ∀ n, t'.field n = t.field n
  word_eq : ∀ n, t.IsWord n → t'.text n = t.text n

/-- What a field holds fills the field. -/
theorem field_of_child_by_field {t : Tree} {n p : Node} {name : String}
    (h : t.childByField? p name = some n) : t.field n = some name := by
  have hfound := List.find?_some h
  exact of_decide_eq_true hfound

namespace SameForm

variable {t t' : Tree} (h : SameForm t t') (n m : Node)

include h

/-! ## Around a node and inside it -/

theorem nodes_eq : t'.nodes = t.nodes := by
  rw [nodes, nodes, h.size_eq]

theorem ancestors_below_eq (d i : Nat) : t'.ancestorsBelow d i = t.ancestorsBelow d i := by
  induction i generalizing d with
  | zero => rfl
  | succ i ih => simp only [ancestorsBelow, h.depth_eq, ih]

theorem ancestors_eq : t'.ancestors n = t.ancestors n := by
  rw [ancestors, ancestors, h.depth_eq, h.ancestors_below_eq]

theorem parent_eq : t'.parent? n = t.parent? n := by
  rw [parent?, parent?, h.ancestors_eq]

theorem descendants_eq : t'.descendants n = t.descendants n := by
  simp only [descendants, h.size_eq, h.depth_eq]

theorem children_eq : t'.children n = t.children n := by
  simp only [children, h.descendants_eq, h.depth_eq]

theorem named_children_eq : t'.namedChildren n = t.namedChildren n := by
  simp only [namedChildren, h.children_eq, h.named_eq]

theorem child_by_field_eq (name : String) :
    t'.childByField? n name = t.childByField? n name := by
  simp only [childByField?, h.children_eq, h.field_eq]

theorem named_children_of_kind_eq (kind : String) :
    t'.namedChildrenOfKind n kind = t.namedChildrenOfKind n kind := by
  simp only [namedChildrenOfKind, h.named_children_eq, h.kind_eq]

theorem field_is_iff (name : String) : t'.FieldIs n m name ↔ t.FieldIs n m name := by
  rw [FieldIs, FieldIs, h.child_by_field_eq]

/-- The word in a field of words is the same. -/
theorem word_text_eq {name : String} (hname : name ∈ ["kind", "operator"]) :
    (t'.childByField? n name).map t'.text = (t.childByField? n name).map t.text := by
  rw [h.child_by_field_eq]
  refine Option.map_congr fun word hword => h.word_eq word ?_
  rw [IsWord, field_of_child_by_field hword]
  simpa using hname

/-! ## Patterns, imports and scopes -/

theorem is_binding_identifier_iff : t'.IsBindingIdentifier n ↔ t.IsBindingIdentifier n := by
  rw [IsBindingIdentifier, IsBindingIdentifier, h.kind_eq]

theorem bound_parts_eq : t'.boundParts n = t.boundParts n := by
  simp only [boundParts, h.kind_eq, h.child_by_field_eq, h.named_children_eq]

theorem bound_within_eq (levels : Nat) : t'.boundWithin levels n = t.boundWithin levels n := by
  induction levels generalizing n with
  | zero => rfl
  | succ levels ih =>
      have hwithin : t'.boundWithin levels = t.boundWithin levels := funext ih
      simp only [boundWithin, h.is_binding_identifier_iff, h.bound_parts_eq, hwithin]

theorem bound_identifiers_eq : t'.boundIdentifiers n = t.boundIdentifiers n := by
  rw [boundIdentifiers, boundIdentifiers, h.size_eq, h.bound_within_eq]

theorem bound_identifiers_in_eq (pattern : Option Node) :
    t'.boundIdentifiersIn pattern = t.boundIdentifiersIn pattern := by
  cases pattern with
  | none => rfl
  | some p => exact h.bound_identifiers_eq p

theorem module_specifier_eq : t'.moduleSpecifier? n = t.moduleSpecifier? n := by
  simp only [moduleSpecifier?, h.child_by_field_eq, h.named_children_of_kind_eq]

theorem clause_part_names_eq : t'.clausePartNames n = t.clausePartNames n := by
  have hspecifier : t'.specifierName? = t.specifierName? := by
    funext m
    simp only [specifierName?, h.child_by_field_eq, h.kind_eq]
  simp only [clausePartNames, h.kind_eq, h.named_children_of_kind_eq, hspecifier]

theorem imported_names_eq : t'.importedNames n = t.importedNames n := by
  have hclause : t'.clauseNames = t.clauseNames := by
    funext m
    have hpart : t'.clausePartNames = t.clausePartNames := funext h.clause_part_names_eq
    simp only [clauseNames, h.kind_eq, h.named_children_of_kind_eq, h.named_children_eq, hpart]
  simp only [importedNames, h.named_children_eq, hclause]

theorem opens_outermost_scope_iff : t'.OpensOutermostScope n ↔ t.OpensOutermostScope n := by
  rw [OpensOutermostScope, OpensOutermostScope, h.kind_eq]

theorem opens_function_scope_iff : t'.OpensFunctionScope n ↔ t.OpensFunctionScope n := by
  rw [OpensFunctionScope, OpensFunctionScope, h.kind_eq]

theorem opens_scope_iff : t'.OpensScope n ↔ t.OpensScope n := by
  simp only [OpensScope, h.opens_function_scope_iff, h.kind_eq, IsNamedClassExpression,
    h.child_by_field_eq]

theorem through_outermost_eq (scopes : List Node) :
    t'.throughOutermost scopes = t.throughOutermost scopes := by
  induction scopes with
  | nil => rfl
  | cons s rest ih => simp only [throughOutermost, h.opens_outermost_scope_iff, ih]

theorem scope_chain_eq : t'.scopeChain n = t.scopeChain n := by
  simp only [scopeChain, h.ancestors_eq, h.opens_scope_iff, h.through_outermost_eq]

theorem scope_around_eq : t'.scopeAround n = t.scopeAround n := by
  rw [scopeAround, scopeAround, h.scope_chain_eq]

theorem hoist_scope_eq : t'.hoistScope n = t.hoistScope n := by
  simp only [hoistScope, h.opens_function_scope_iff, h.scope_chain_eq]

/-! ## Declarations -/

theorem declare_eq (identifiers : List Node) (scope : Node) (kind : BindingKind) :
    t'.declare identifiers scope kind = t.declare identifiers scope kind := by
  simp only [declare, h.is_binding_identifier_iff]

theorem declarator_identifiers_eq : t'.declaratorIdentifiers n = t.declaratorIdentifiers n := by
  simp only [declaratorIdentifiers, h.named_children_of_kind_eq, h.child_by_field_eq,
    h.bound_identifiers_in_eq]

theorem function_declarations_eq : t'.functionDeclarations n = t.functionDeclarations n := by
  simp only [functionDeclarations, h.kind_eq, h.child_by_field_eq, h.scope_around_eq,
    h.declare_eq]

theorem lexical_word_eq : t'.lexicalWord n = t.lexicalWord n := by
  rw [lexicalWord, lexicalWord, h.word_text_eq n (by simp)]

theorem loop_declarations_eq : t'.loopDeclarations n = t.loopDeclarations n := by
  have hword := h.word_text_eq n (show "kind" ∈ ["kind", "operator"] by simp)
  rw [h.child_by_field_eq] at hword
  simp only [loopDeclarations, h.child_by_field_eq]
  cases hkind : t.childByField? n "kind" with
  | none => rfl
  | some word =>
      have htext : t'.text word = t.text word := by simpa [hkind] using hword
      simp only [htext, h.bound_identifiers_in_eq, h.hoist_scope_eq, h.declare_eq]

theorem declarations_at_eq : t'.declarationsAt n = t.declarationsAt n := by
  have hbound : t'.boundIdentifiers = t.boundIdentifiers := funext h.bound_identifiers_eq
  simp only [declarationsAt, h.opens_outermost_scope_iff, h.kind_eq, h.function_declarations_eq,
    h.child_by_field_eq, h.scope_around_eq, h.declare_eq, h.bound_identifiers_in_eq,
    h.loop_declarations_eq, h.named_children_eq, hbound, h.declarator_identifiers_eq,
    h.hoist_scope_eq, h.lexical_word_eq, h.imported_names_eq]

theorem declarations_eq : t'.declarations = t.declarations := by
  have hat : t'.declarationsAt = t.declarationsAt := funext h.declarations_at_eq
  rw [declarations, declarations, h.nodes_eq, hat]

theorem in_use_position_iff : t'.InUsePosition n ↔ t.InUsePosition n := by
  have hparent : t'.parent? = t.parent? := funext h.parent_eq
  have hreexports : ∀ m, t'.Reexports m ↔ t.Reexports m := by
    intro m
    simp only [Reexports, hparent, h.child_by_field_eq]
  simp only [InUsePosition, h.parent_eq, h.kind_eq, h.field_is_iff, hreexports]

/-! ## What becomes of a value -/

theorem link_eq : t'.link? n m = t.link? n m := by
  simp only [link?, h.kind_eq, h.field_is_iff, h.named_children_eq]

theorem usage_chain_eq : t'.usageChain n = t.usageChain n := by
  have hthrough : ∀ (ancestors : List Node) (m : Node),
      t'.chainThrough m ancestors = t.chainThrough m ancestors := by
    intro ancestors
    induction ancestors with
    | nil => exact fun m => rfl
    | cons p rest ih =>
        intro m
        simp only [chainThrough, h.link_eq, ih]
  rw [usageChain, usageChain, h.ancestors_eq, hthrough]

theorem is_delete_iff : t'.IsDelete n ↔ t.IsDelete n := by
  have hword : ∀ operator ∈ t.childByField? n "operator",
      t'.text operator = t.text operator := by
    intro operator hoperator
    refine h.word_eq operator ?_
    rw [IsWord, field_of_child_by_field hoperator]
    simp
  rw [IsDelete, IsDelete, h.kind_eq, h.child_by_field_eq]
  refine and_congr_right fun _ => exists_congr fun operator => and_congr_right fun hoperator => ?_
  rw [hword operator hoperator]

theorem usage_under_eq (c : Chain) : t'.usageUnder n c m = t.usageUnder n c m := by
  simp only [usageUnder, definitionForm, receiver?, h.kind_eq, h.field_is_iff,
    h.child_by_field_eq, h.is_delete_iff]

theorem expression_usage_eq : t'.expressionUsage? n = t.expressionUsage? n := by
  have hunder : t'.usageUnder n (t.usageChain n) = t.usageUnder n (t.usageChain n) :=
    funext fun p => h.usage_under_eq n p _
  rw [expressionUsage?, expressionUsage?, h.usage_chain_eq, h.parent_eq, hunder]

theorem without_parentheses_eq (levels : Nat) :
    t'.withoutParentheses levels n = t.withoutParentheses levels n := by
  induction levels generalizing n with
  | zero => rfl
  | succ levels ih => simp only [withoutParentheses, h.kind_eq, h.named_children_eq, ih]

theorem is_statement_iff : t'.IsStatement n ↔ t.IsStatement n := by
  rw [IsStatement, IsStatement, h.kind_eq]

theorem whole_statement_eq : t'.wholeStatement n = t.wholeStatement n := by
  simp only [wholeStatement, h.parent_eq, h.kind_eq]

theorem list_item_entry_eq : t'.listItemEntry? n = t.listItemEntry? n := by
  simp only [ listItemEntry?, listOwner, h.parent_eq, h.named_children_of_kind_eq, h.kind_eq,
    h.whole_statement_eq]

theorem declarator_entry_eq : t'.declaratorEntry? n = t.declaratorEntry? n := by
  simp only [ declaratorEntry?, h.parent_eq, h.kind_eq, h.list_item_entry_eq]

theorem holds_as_value_iff : t'.HoldsAsValue n m ↔ t.HoldsAsValue n m := by
  simp only [HoldsAsValue, h.kind_eq, h.field_is_iff]

theorem is_free_expression_statement_iff :
    t'.IsFreeExpressionStatement n ↔ t.IsFreeExpressionStatement n := by
  simp only [IsFreeExpressionStatement, ParentIs, h.kind_eq, h.parent_eq]

theorem write_around_eq : t'.writeAround n = t.writeAround n := by
  simp only [writeAround, outsidePatterns, h.ancestors_eq, h.kind_eq]

end SameForm

end Excise.Tree
