import Excise.Proofs.Names.Tables

/-!
# Lexical scoping

`uses_resolve_lexically`: a use of a name belongs to the binding of that name in the first scope,
from the inside out, in which some construct of the tree places an identifier of that name. A scope
can be seen from inside it as far as no `program` stands between (`Tree.Sees`), and the chain of
scopes around a node lists exactly those, each before the ones around it (`mem_scope_chain`,
`scope_chain_pairwise`).
-/

namespace Excise.Tree

variable {t : Tree} {a n s : Nat} {name : String} {b : Binding} {l : List Node}

/-- Each ancestor comes before its own ancestors. -/
theorem ancestors_pairwise (t : Tree) (n : Node) :
    (t.ancestors n).Pairwise fun a b => b ∈ t.ancestors a := by
  induction n using parent_induction (t := t) with
  | root n hn =>
      rw [ancestors_of_no_parent hn]
      exact .nil
  | child n p hp ih =>
      rw [ancestors_of_parent hp]
      exact .cons (fun b hb => hb) ih

/-- The part up to an outermost scope keeps the order. -/
theorem through_outermost_sublist (t : Tree) (l : List Node) :
    (t.throughOutermost l).Sublist l := by
  induction l with
  | nil => exact .slnil
  | cons s rest ih =>
      rw [throughOutermost]
      split
      · exact .cons_cons s (List.nil_sublist rest)
      · exact .cons_cons s ih

/-- The part up to an outermost scope leaves out what is around that. -/
theorem mem_through_outermost (h : l.Pairwise fun a b => b ∈ t.ancestors a) :
    s ∈ t.throughOutermost l ↔
      s ∈ l ∧ ∀ a ∈ l, t.OpensOutermostScope a → t.Within s a := by
  induction l with
  | nil => simp [throughOutermost]
  | cons x rest ih =>
      obtain ⟨habove, hrest⟩ := List.pairwise_cons.mp h
      rw [throughOutermost]
      split
      case isTrue houtermost =>
        rw [List.mem_singleton]
        constructor
        · rintro rfl
          refine ⟨List.mem_cons_self, fun a ha _ => ?_⟩
          rcases List.mem_cons.mp ha with rfl | ha
          · exact within_refl
          · exact within_of_mem_ancestors (habove a ha)
        · rintro ⟨hs, hwithin⟩
          rcases List.mem_cons.mp hs with rfl | hs
          · rfl
          · exact within_antisymm (hwithin x List.mem_cons_self houtermost)
              (within_of_mem_ancestors (habove s hs))
      case isFalse hinner =>
        rw [List.mem_cons, ih hrest, List.mem_cons]
        constructor
        · rintro (rfl | ⟨hs, hwithin⟩)
          · refine ⟨.inl rfl, fun a ha _ => ?_⟩
            rcases List.mem_cons.mp ha with rfl | ha
            · exact within_refl
            · exact within_of_mem_ancestors (habove a ha)
          · refine ⟨.inr hs, fun a ha houtermost => ?_⟩
            rcases List.mem_cons.mp ha with rfl | ha
            · exact absurd houtermost hinner
            · exact hwithin a ha houtermost
        · rintro ⟨rfl | hs, hwithin⟩
          · exact .inl rfl
          · exact .inr ⟨hs, fun a ha => hwithin a (List.mem_cons_of_mem x ha)⟩

/-- A node sees a scope: a node around it opens the scope, and no `program` around it is inside the
scope. -/
structure Sees (t : Tree) (n s : Node) : Prop where
  around : s ∈ t.ancestors n
  opens : t.OpensScope s
  programs : ∀ a ∈ t.ancestors n, t.kind a = "program" → t.Within s a

/-- The chain of scopes lists those that the node sees. -/
theorem mem_scope_chain : s ∈ t.scopeChain n ↔ t.Sees n s := by
  have hpairwise := (t.ancestors_pairwise n).filter fun a => decide (t.OpensScope a)
  rw [scopeChain, mem_through_outermost hpairwise, List.mem_filter, decide_eq_true_eq]
  constructor
  · rintro ⟨⟨haround, hopens⟩, houtermost⟩
    refine ⟨haround, hopens, fun a ha hprogram => ?_⟩
    have hopens' : t.OpensScope a := .inl (.inr (by simp [functionKinds, hprogram]))
    exact houtermost a (List.mem_filter.mpr ⟨ha, decide_eq_true hopens'⟩) (.inr hprogram)
  · rintro ⟨haround, hopens, hprograms⟩
    refine ⟨⟨haround, hopens⟩, fun a ha houtermost => ?_⟩
    rcases houtermost with rfl | hprogram
    · -- Whatever has an ancestor is inside the root.
      by_cases hroot : s = 0
      · exact hroot ▸ within_refl
      · exact within_of_mem_ancestors (root_mem_ancestors
          (Nat.lt_trans (lt_of_mem_ancestors haround) (lt_size_of_mem_ancestors haround)) hroot)
    · exact hprograms a (List.mem_filter.mp ha).1 hprogram

/-- Each scope of the chain comes before those around it. -/
theorem scope_chain_pairwise (t : Tree) (n : Node) :
    (t.scopeChain n).Pairwise fun a b => b ∈ t.ancestors a :=
  ((t.ancestors_pairwise n).filter _).sublist (t.through_outermost_sublist _)

/-- Some construct places an identifier of the name in the scope. -/
def HasName (t : Tree) (s : Node) (name : String) : Prop :=
  ∃ c i, t.Places c i s ∧ t.text i = name

/-- The first scope with the name, going outward from the node. -/
structure FirstWithName (t : Tree) (n : Node) (name : String) (s : Node) : Prop where
  sees : t.Sees n s
  has : t.HasName s name
  first : ∀ s', t.Sees n s' → t.HasName s' name → t.Within s s'

/-- A scope gives a binding for exactly the names that are placed in it. -/
theorem binding_at_is_some_iff :
    (bindingAt? t.bindings s name).isSome ↔ t.HasName s name := by
  rw [Option.isSome_iff_exists]
  constructor
  · rintro ⟨b, hb⟩
    obtain ⟨hscope, hname⟩ := binding_at_fits hb
    obtain ⟨d, hd, rfl⟩ := t.bindings_made.made_of_mem b (binding_at_mem hb)
    obtain ⟨c, hplaces⟩ := places_iff_declared.mpr ⟨d, hd, rfl, rfl⟩
    exact ⟨c, d.identifier, hscope ▸ hplaces, hname⟩
  · rintro ⟨c, i, hplaces, rfl⟩
    obtain ⟨d, hd, rfl, rfl⟩ := places_iff_declared.mp ⟨c, hplaces⟩
    obtain ⟨b, hb, hscope, hname⟩ := t.bindings_made.mem_of_made d hd
    exact ⟨b, t.bindings_made.distinct.binding_at.mpr ⟨hb, hscope, hname⟩⟩

/-- A scope without the name gives no binding for it. -/
theorem binding_at_eq_none_of_not_has (h : ¬ t.HasName s name) :
    bindingAt? t.bindings s name = none := by
  rw [← binding_at_is_some_iff, Option.not_isSome_iff_eq_none] at h
  exact h

/-- A name means nothing exactly if no scope that the node sees has it. -/
theorem lookup_eq_none_iff :
    t.lookup? t.bindings n name = none ↔ ∀ s, t.Sees n s → ¬ t.HasName s name := by
  rw [lookup?, List.findSome?_eq_none_iff]
  constructor
  · intro h s hs hhas
    have hat := h s (mem_scope_chain.mpr hs)
    rw [← binding_at_is_some_iff, hat] at hhas
    exact absurd hhas (by decide)
  · intro h s hs
    exact binding_at_eq_none_of_not_has (h s (mem_scope_chain.mp hs))

/-- What a name means is the binding of the first scope that has it. -/
theorem first_of_lookup (h : t.lookup? t.bindings n name = some b) :
    b ∈ t.bindings ∧ b.name = name ∧ t.FirstWithName n name b.scope := by
  obtain ⟨before, s, after, hchain, hat, hbefore⟩ := List.findSome?_eq_some_iff.mp h
  obtain ⟨rfl, hname⟩ := binding_at_fits hat
  have hhas : t.HasName b.scope name := binding_at_is_some_iff.mp (by simp [hat])
  refine ⟨binding_at_mem hat, hname, mem_scope_chain.mp (by simp [hchain]), hhas, ?_⟩
  intro s' hs' hhas'
  have hmem := mem_scope_chain.mpr hs'
  rw [hchain, List.mem_append, List.mem_cons] at hmem
  rcases hmem with hmem | rfl | hmem
  · rw [← binding_at_is_some_iff, hbefore s' hmem] at hhas'
    exact absurd hhas' (by decide)
  · exact within_refl
  · have hpairwise := hchain ▸ t.scope_chain_pairwise n
    have habove := (List.pairwise_append.mp hpairwise).2.1
    exact within_of_mem_ancestors ((List.pairwise_cons.mp habove).1 s' hmem)

/-- There is only one first scope with a name. -/
theorem FirstWithName.unique {s' : Node} (h : t.FirstWithName n name s)
    (h' : t.FirstWithName n name s') : s = s' :=
  within_antisymm (h.first s' h'.sees h'.has) (h'.first s h.sees h.has)

/-- A name means the binding of the first scope that has it. -/
theorem lookup_eq_some_iff :
    t.lookup? t.bindings n name = some b ↔
      b ∈ t.bindings ∧ b.name = name ∧ t.FirstWithName n name b.scope := by
  constructor
  · exact first_of_lookup
  · rintro ⟨hb, hname, hfirst⟩
    cases hlookup : t.lookup? t.bindings n name with
    | none => exact absurd hfirst.has (lookup_eq_none_iff.mp hlookup _ hfirst.sees)
    | some c =>
        obtain ⟨hc, hcname, hcfirst⟩ := first_of_lookup hlookup
        rw [t.bindings_made.distinct.eq hc hb (hcfirst.unique hfirst) (hcname.trans hname.symm)]

/-- A use of a name belongs to the binding of that name in the first scope, going outward, in which
an identifier of the name is placed, and to none if there is no such scope. The binding of a name in
a scope is the one to which all identifiers of the name belong that are placed there, and it is the
only one with this name and scope. -/
theorem uses_resolve_lexically (t : Tree) (n : Node) (hn : n ∈ t.nodes)
    (hkind : t.kind n ∈ referenceKinds) (hfree : ∀ c s, ¬ t.Places c n s)
    (huse : t.InUsePosition n) :
    (∀ b, t.resolution.bindingOf? n = some b ↔
        b ∈ t.resolution.bindings ∧ b.name = t.text n ∧
          t.FirstWithName n (t.text n) b.scope) ∧
      (t.resolution.bindingOf? n = none ↔ ∀ s, t.Sees n s → ¬ t.HasName s (t.text n)) ∧
      (∀ c i s, t.Places c i s → ∃ b ∈ t.resolution.bindings,
        t.resolution.bindingOf? i = some b ∧ b.scope = s ∧ b.name = t.text i) ∧
      ∀ b ∈ t.resolution.bindings, ∀ c ∈ t.resolution.bindings,
        b.scope = c.scope → b.name = c.name → b = c := by
  rw [binding_of_use hn hkind hfree huse]
  refine ⟨fun b => lookup_eq_some_iff, lookup_eq_none_iff, fun c i s hplaces => ?_,
    fun b hb c hc => t.bindings_made.distinct.eq hb hc⟩
  obtain ⟨d, hd, rfl, rfl⟩ := places_iff_declared.mp ⟨c, hplaces⟩
  exact binding_of_declaration hd

/-- The program `var a;function f(){{let a;}return a;var a}`. -/
def hoistedUse : Tree :=
  (Tree.ofRows? (Bytes.ofText "var a;function f()\x7b\x7blet a;\x7dreturn a;var a\x7d")
    #[⟨0, true, "program", 0, 42, none⟩,
      ⟨1, true, "variable_declaration", 0, 6, none⟩,
      ⟨2, true, "variable_declarator", 4, 5, none⟩,
      ⟨3, true, "identifier", 4, 5, some "name"⟩,
      ⟨1, true, "function_declaration", 6, 42, none⟩,
      ⟨2, true, "identifier", 15, 16, some "name"⟩,
      ⟨2, true, "formal_parameters", 16, 18, some "parameters"⟩,
      ⟨2, true, "statement_block", 18, 42, some "body"⟩,
      ⟨3, true, "statement_block", 19, 27, none⟩,
      ⟨4, true, "lexical_declaration", 20, 26, none⟩,
      ⟨5, false, "let", 20, 23, some "kind"⟩,
      ⟨5, true, "variable_declarator", 24, 25, none⟩,
      ⟨6, true, "identifier", 24, 25, some "name"⟩,
      ⟨3, true, "return_statement", 27, 36, none⟩,
      ⟨4, true, "identifier", 34, 35, none⟩,
      ⟨3, true, "variable_declaration", 36, 41, none⟩,
      ⟨4, true, "variable_declarator", 40, 41, none⟩,
      ⟨5, true, "identifier", 40, 41, some "name"⟩]).get (by decide +kernel)

/-- Its last use of `a` is past the block, and belongs to the declaration hoisted after it. -/
theorem hoisted_use_resolves :
    hoistedUse.resolution.bindingOf? 14 = some ⟨"a", .keyword "var", 17, 4⟩ ∧
      hoistedUse.FirstWithName 14 "a" 4 := by
  have hbinding : hoistedUse.resolution.bindingOf? 14 = some ⟨"a", .keyword "var", 17, 4⟩ := by
    decide +kernel
  have htext : hoistedUse.text 14 = "a" := by decide +kernel
  have hdeclared : ∀ d ∈ hoistedUse.declarations, d.identifier ≠ 14 := by decide +kernel
  have hfree : ∀ c s, ¬ hoistedUse.Places c 14 s := by
    intro c s hplaces
    obtain ⟨d, hd, hi, -⟩ := places_iff_declared.mp ⟨c, hplaces⟩
    exact hdeclared d hd hi
  have hlexical := uses_resolve_lexically hoistedUse 14 (by decide +kernel) (by decide +kernel)
    hfree (by decide +kernel)
  exact ⟨hbinding, htext ▸ ((hlexical.1 _).mp hbinding).2.2⟩

end Excise.Tree
