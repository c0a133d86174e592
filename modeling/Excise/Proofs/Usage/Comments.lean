import Excise.Flow.Site
import Excise.Proofs.Names.Comments
import Excise.Proofs.Usage.Reach

/-!
# Chains of uses in trees with comments

A chain of uses climbs through a wrapper only from its first named child. Where that is an added
comment, the chain breaks off below (`Tree.ChainBreaks`), and the value is taken to be consumed
there: the use carries it to no variable (`Commented.expression_effect_of_breaks`). A chain that
does not break is the same in both trees, and the use carries the value to the same variables
(`Commented.expression_effect_of_whole`).
-/

namespace Excise

/-- A chain in the place of its top. -/
def Chain.placed (place : Node → Node) (c : Chain) : Chain := ⟨place c.top, c.links⟩

/-- A role in the places of its nodes. -/
def Role.placed (place : Node → Node) : Role → Role
  | .definition declarator form => .definition (place declarator) form
  | .written target => .written (target.map place)
  | .exported specifier => .exported (place specifier)
  | .called style => .called style
  | .statement => .statement
  | .read => .read

/-- A usage in the places of its nodes. -/
def Usage.placed (place : Node → Node) (u : Usage) : Usage :=
  ⟨place u.reference, place u.expression, u.role.placed place⟩

namespace Tree

variable {t t' : Tree} {place : Nat → Nat} {n p : Nat}

/-- The chain that starts at a node of no parent. -/
theorem usage_chain_of_no_parent (h : t.parent? n = none) : t.usageChain n = ⟨n, []⟩ := by
  rw [usageChain, ancestors_of_no_parent h, chainThrough]

/-- The chain that starts at a node whose parent is no link. -/
theorem usage_chain_of_no_link (hp : t.parent? n = some p) (hlink : t.link? n p = none) :
    t.usageChain n = ⟨n, []⟩ := by
  rw [usageChain, ancestors_of_parent hp, chainThrough, hlink]

/-- The chain that starts at a node whose parent is a link goes on from the parent. -/
theorem usage_chain_of_link {l : Link} (hp : t.parent? n = some p) (hlink : t.link? n p = some l) :
    t.usageChain n = ⟨(t.usageChain p).top, l :: (t.usageChain p).links⟩ := by
  rw [usageChain, ancestors_of_parent hp, chainThrough, hlink]
  rfl

/-- A wrapper that is a link is of one of the kinds of wrapper. -/
theorem wrapper_of_link (h : t.link? n p = some .wrapper) : t.kind p ∈ wrapperKinds := by
  simp only [link?] at h
  split_ifs at h with hcall hnew hmember hwrapper
  · simp at h
  · simp at h
  · simp at h
  · exact hwrapper.1

/-- The chain of uses that starts at the node comes to a wrapper whose first named child is an added
comment. -/
inductive ChainBreaks (t t' : Tree) (place : Node → Node) : Node → Prop where
  | here {n p : Node} (parent : t.parent? n = some p) (link : t.link? n p = some .wrapper)
      (fronted : t.IsFronted t' place p) : ChainBreaks t t' place n
  | further {n p : Node} {l : Link} (parent : t.parent? n = some p)
      (link : t.link? n p = some l) (breaks : ChainBreaks t t' place p) : ChainBreaks t t' place n

/-- A value below a wrapper that is no link is called or consumed there. -/
theorem carried_under_wrapper (hp : t.kind p ∈ wrapperKinds) (r : Resolution) (c : Chain) :
    t.carriedBindings r (t.usageUnder n c p) = [] := by
  have hkinds : ∀ k ∈ wrapperKinds, k ≠ "variable_declarator" ∧ k ≠ "assignment_expression" ∧
      k ≠ "unary_expression" ∧ k ≠ "expression_statement" ∧ k ∉ assignmentKinds ∧
      k ≠ "update_expression" ∧ k ≠ "export_specifier" := by
    decide +kernel
  obtain ⟨hdeclarator, hassignment, hunary, hstatement, hassigns, hupdate, hexport⟩ := hkinds _ hp
  simp only [usageUnder, receiver?, IsDelete, hdeclarator, hassignment, hunary, hstatement,
    hassigns, hupdate, hexport, false_and, if_false]
  split <;> rfl

namespace Commented

variable (h : t.Commented t' place)

include h

/-- An added comment in front cuts a wrapper's link, and all other links stay. -/
theorem link_eq (n p : Node) :
    t'.link? (place n) (place p) =
      if t.IsFronted t' place p ∧ t.link? n p = some .wrapper then none else t.link? n p := by
  have hhead : (t'.namedChildren (place p)).head? = some (place n) ↔
      ¬ t.IsFronted t' place p ∧ (t.namedChildren p).head? = some n := by
    by_cases hfronted : t.IsFronted t' place p
    · obtain ⟨i, hi, hadded⟩ := h.added_of_fronted hfronted
      simp only [hfronted, not_true, false_and, iff_false, hi, Option.some.injEq]
      exact fun heq => hadded.new n heq.symm
    · have hsame := not_not.mp hfronted
      rw [hsame, Option.map_eq_some_iff]
      simp only [h.place_inj, exists_eq_right, hfronted, not_false_iff, true_and]
  simp only [link?, h.kind_eq, h.field_is_iff, hhead]
  split_ifs <;> simp_all

/-- A chain that does not break is the same. -/
theorem usage_chain_of_whole (hn : ¬ t.ChainBreaks t' place n) :
    t'.usageChain (place n) = (t.usageChain n).placed place := by
  induction n using parent_induction (t := t) with
  | root n hroot =>
      have hroot' : t'.parent? (place n) = none := by rw [h.parent_eq, hroot, Option.map_none]
      rw [usage_chain_of_no_parent hroot, usage_chain_of_no_parent hroot', Chain.placed]
  | child n p hp ih =>
      have hp' := h.parent_place hp
      have hlink' := h.link_eq n p
      cases hlink : t.link? n p with
      | none =>
          rw [hlink, if_neg (by simp)] at hlink'
          rw [usage_chain_of_no_link hp hlink, usage_chain_of_no_link hp' hlink', Chain.placed]
      | some l =>
          have hfront : ¬ (t.IsFronted t' place p ∧ t.link? n p = some .wrapper) := fun hfront =>
            hn (.here hp hfront.2 hfront.1)
          rw [if_neg hfront, hlink] at hlink'
          rw [usage_chain_of_link hp hlink, usage_chain_of_link hp' hlink',
            ih fun hbreaks => hn (.further hp hlink hbreaks)]
          rfl

/-- A chain that breaks ends below a wrapper. -/
theorem usage_chain_of_breaks (hn : t.ChainBreaks t' place n) :
    ∃ p, t'.parent? (t'.usageChain (place n)).top = some p ∧ t'.kind p ∈ wrapperKinds := by
  induction hn with
  | @here n p parent link fronted =>
      have hlink' := h.link_eq n p
      rw [if_pos ⟨fronted, link⟩] at hlink'
      rw [usage_chain_of_no_link (h.parent_place parent) hlink']
      exact ⟨place p, h.parent_place parent, (h.kind_eq p).symm ▸ wrapper_of_link link⟩
  | @further n p l parent link breaks ih =>
      have hlink' := h.link_eq n p
      by_cases hfront : t.IsFronted t' place p ∧ t.link? n p = some .wrapper
      · rw [if_pos hfront] at hlink'
        rw [usage_chain_of_no_link (h.parent_place parent) hlink']
        exact ⟨place p, h.parent_place parent, (h.kind_eq p).symm ▸ wrapper_of_link hfront.2⟩
      · rw [if_neg hfront, link] at hlink'
        rw [usage_chain_of_link (h.parent_place parent) hlink']
        exact ih

/-! ## What becomes of a value -/

theorem definition_form_eq (c : Chain) (declarator : Node) :
    t'.definitionForm (c.placed place) (place declarator) = t.definitionForm c declarator := by
  have hpattern : (∃ name ∈ t'.childByField? (place declarator) "name",
      t'.kind name ∈ destructuringKinds) ↔
      ∃ name ∈ t.childByField? declarator "name", t.kind name ∈ destructuringKinds := by
    rw [h.child_by_field_eq]
    cases t.childByField? declarator "name" <;> simp [h.kind_eq]
  simp only [definitionForm, hpattern]
  rfl

theorem receiver_eq (n p : Node) :
    t'.receiver? (place n) (place p) = (t.receiver? n p).map place := by
  rw [receiver?, receiver?, h.kind_eq, h.child_by_field_eq, Option.filter_map]
  simp only [Function.comp_def, h.kind_eq, ne_eq, h.place_inj]
  split <;> rfl

theorem is_delete_iff (p : Node) : t'.IsDelete (place p) ↔ t.IsDelete p := by
  have hword := h.word_text_eq p (show "operator" ∈ ["kind", "operator"] by simp)
  rw [IsDelete, IsDelete, h.kind_eq]
  rw [h.child_by_field_eq] at hword ⊢
  cases hoperator : t.childByField? p "operator" with
  | none => simp
  | some operator =>
      have htext : t'.text (place operator) = t.text operator := by simpa [hoperator] using hword
      simp [htext]

theorem usage_under_eq (n p : Node) (c : Chain) :
    t'.usageUnder (place n) (c.placed place) (place p) =
      (t.usageUnder n c p).placed place := by
  have hcalls : (c.placed place).Calls ↔ c.Calls := Iff.rfl
  have htop : (c.placed place).top = place c.top := rfl
  have hstyle : (c.placed place).style = c.style := rfl
  simp only [usageUnder, h.kind_eq, htop, h.field_is_iff, h.definition_form_eq, h.receiver_eq,
    h.is_delete_iff, hcalls, hstyle]
  cases hreceiver : t.receiver? c.top p with
  | some left => split <;> rfl
  | none => split_ifs <;> rfl

/-- The variables that a usage carries its value to, in their places. -/
theorem carried_bindings_eq (u : Usage) :
    t'.carriedBindings t'.resolution (u.placed place) =
      (t.carriedBindings t.resolution u).map (Binding.placed place) := by
  obtain ⟨reference, expression, role⟩ := u
  cases role with
  | definition declarator form =>
      have hname := h.bindings_in_eq (t.childByField? declarator "name")
      rwa [← h.child_by_field_eq] at hname
  | written target =>
      simp only [carriedBindings, Usage.placed, Role.placed]
      rw [h.bound_identifiers_in_eq, List.filterMap_map, List.map_filterMap]
      exact congrArg₂ _ (funext h.binding_of_eq) rfl
  | called | exported | statement | read => rfl

/-- The effect on variables of a use whose chain does not break. -/
theorem expression_effect_of_whole (hn : ¬ t.ChainBreaks t' place n) :
    (t'.usageEffect t'.resolution (t'.expressionUsage? (place n))).bindings =
      (t.usageEffect t.resolution (t.expressionUsage? n)).bindings.map (Binding.placed place) := by
  have husage : t'.expressionUsage? (place n) =
      (t.expressionUsage? n).map (Usage.placed place) := by
    have htop : ((t.usageChain n).placed place).top = place (t.usageChain n).top := rfl
    rw [expressionUsage?, expressionUsage?, h.usage_chain_of_whole hn, htop, h.parent_eq,
      Option.map_map, Option.map_map]
    exact congrArg₂ _ (funext fun p => h.usage_under_eq n p _) rfl
  rw [husage]
  cases t.expressionUsage? n with
  | none => rfl
  | some u => exact h.carried_bindings_eq u

/-- A use whose chain breaks carries the value to no variable. -/
theorem expression_effect_of_breaks (hn : t.ChainBreaks t' place n) :
    (t'.usageEffect t'.resolution (t'.expressionUsage? (place n))).bindings = [] := by
  obtain ⟨p, hp, hkind⟩ := h.usage_chain_of_breaks hn
  rw [expressionUsage?, hp]
  exact carried_under_wrapper hkind _ _

/-- An expression carries its value to a variable exactly if its chain does not break and it did so
without the comments. -/
theorem mem_expression_effect {b' : Binding} :
    b' ∈ (t'.usageEffect t'.resolution (t'.expressionUsage? (place n))).bindings ↔
      ¬ t.ChainBreaks t' place n ∧
        ∃ b ∈ (t.usageEffect t.resolution (t.expressionUsage? n)).bindings,
          b.placed place = b' := by
  by_cases hn : t.ChainBreaks t' place n
  · simp [h.expression_effect_of_breaks hn, hn]
  · simp [h.expression_effect_of_whole hn, hn]

theorem holds_no_value_iff (n : Node) :
    t'.HoldsNoValue t'.resolution (place n) ↔ t.HoldsNoValue t.resolution n := by
  rw [HoldsNoValue, HoldsNoValue, h.declares_iff, h.parent_eq]
  cases t.parent? n with
  | none => simp
  | some p => simp [h.kind_eq, h.field_is_iff]

/-- The effect on variables of a use of a variable: that of the expression, or none. -/
theorem reference_effect_cases (n : Node) :
    (t.referenceEffect t.resolution n).bindings = [] ∧
        (t'.referenceEffect t'.resolution (place n)).bindings = [] ∨
      t.referenceEffect t.resolution n = t.usageEffect t.resolution (t.expressionUsage? n) ∧
        t'.referenceEffect t'.resolution (place n) =
          t'.usageEffect t'.resolution (t'.expressionUsage? (place n)) := by
  simp only [referenceEffect, referenceUsage?, h.holds_no_value_iff, h.kind_eq]
  split
  case isTrue => exact .inl ⟨rfl, rfl⟩
  case isFalse =>
    split
    case isTrue => exact .inl ⟨rfl, rfl⟩
    case isFalse => exact .inr ⟨rfl, rfl⟩

/-- A use of a variable carries the value to a variable exactly if its chain does not break and it
did so without the comments. -/
theorem mem_reference_effect {b' : Binding} :
    b' ∈ (t'.referenceEffect t'.resolution (place n)).bindings ↔
      ¬ t.ChainBreaks t' place n ∧
        ∃ b ∈ (t.referenceEffect t.resolution n).bindings, b.placed place = b' := by
  rcases h.reference_effect_cases n with ⟨hnone, hnone'⟩ | ⟨hsome, hsome'⟩
  · simp [hnone, hnone']
  · rw [hsome, hsome']
    exact h.mem_expression_effect

end Commented

end Tree

end Excise
