import Excise.Proofs.Names.Bindings
import Excise.Proofs.Names.Construct

/-!
# The tables of a resolution

The bindings of a tree are those that its declarations make: no two have both name and scope in
common, and there is one for each name that is placed in a scope (`bindings_made`). A declaring
identifier belongs to the binding of its name and scope (`binding_of_declaration`), and a use to the
one that its name means at it (`binding_of_use`).
-/

namespace Excise

variable {t : Tree} {n s : Nat} {name : String} {b c : Binding} {bindings : List Binding}
  {d : Declaration}

/-- No two bindings share scope and name. -/
def Distinct (bindings : List Binding) : Prop :=
  bindings.Pairwise fun b c => ¬ (b.scope = c.scope ∧ b.name = c.name)

/-- Distinct bindings of one name and scope are the same. -/
theorem Distinct.eq (h : Distinct bindings) (hb : b ∈ bindings) (hc : c ∈ bindings)
    (hscope : b.scope = c.scope) (hname : b.name = c.name) : b = c := by
  induction bindings with
  | nil => exact absurd hb List.not_mem_nil
  | cons a rest ih =>
      obtain ⟨hfirst, hrest⟩ := List.pairwise_cons.mp h
      rcases List.mem_cons.mp hb with rfl | hbrest
      · rcases List.mem_cons.mp hc with rfl | hcrest
        · rfl
        · exact absurd ⟨hscope, hname⟩ (hfirst c hcrest)
      · rcases List.mem_cons.mp hc with rfl | hcrest
        · exact absurd ⟨hscope.symm, hname.symm⟩ (hfirst b hbrest)
        · exact ih hrest hbrest hcrest

/-- What a scope gives for a name has both. -/
theorem binding_at_fits (h : bindingAt? bindings s name = some b) :
    b.scope = s ∧ b.name = name := by
  rw [bindingAt?] at h
  simpa using List.find?_some h

/-- A scope gives nothing for a name exactly if no binding has both. -/
theorem binding_at_eq_none_iff :
    bindingAt? bindings s name = none ↔ ∀ b ∈ bindings, b.scope = s → b.name ≠ name := by
  simp [bindingAt?]

/-- A scope gives for a name the binding that has both. -/
theorem Distinct.binding_at (h : Distinct bindings) :
    bindingAt? bindings s name = some b ↔ b ∈ bindings ∧ b.scope = s ∧ b.name = name := by
  constructor
  · intro hat
    exact ⟨binding_at_mem hat, binding_at_fits hat⟩
  · rintro ⟨hb, rfl, rfl⟩
    cases hat : bindingAt? bindings b.scope b.name with
    | none => exact absurd rfl (binding_at_eq_none_iff.mp hat b hb rfl)
    | some c =>
        obtain ⟨hscope, hname⟩ := binding_at_fits hat
        rw [h.eq (binding_at_mem hat) hb hscope hname]

namespace Tree

/-- One more declaration adds its binding or finds one of the same name and scope. -/
theorem add_declaration_cases (t : Tree) (bindings : List Binding) (d : Declaration) :
    (∃ b ∈ bindings, b.scope = d.scope ∧ b.name = t.text d.identifier ∧
        t.addDeclaration bindings d = bindings) ∨
      ((∀ b ∈ bindings, b.scope = d.scope → b.name ≠ t.text d.identifier) ∧
        t.addDeclaration bindings d = bindings ++ [t.madeBinding d]) := by
  rw [addDeclaration]
  split
  case h_1 b hat =>
    obtain ⟨hscope, hname⟩ := binding_at_fits hat
    exact .inl ⟨b, binding_at_mem hat, hscope, hname, rfl⟩
  case h_2 hat => exact .inr ⟨binding_at_eq_none_iff.mp hat, rfl⟩

/-- The bindings are those that the declarations make: distinct, each made by a declaration, and one
for each declared name. -/
structure MadeBy (t : Tree) (made : List Declaration) (bindings : List Binding) : Prop where
  distinct : Distinct bindings
  made_of_mem : ∀ b ∈ bindings, ∃ d ∈ made, t.madeBinding d = b
  mem_of_made : ∀ d ∈ made, ∃ b ∈ bindings, b.scope = d.scope ∧ b.name = t.text d.identifier

/-- One more declaration. -/
theorem MadeBy.add {made : List Declaration} (h : t.MadeBy made bindings) (d : Declaration) :
    t.MadeBy (made ++ [d]) (t.addDeclaration bindings d) := by
  rcases t.add_declaration_cases bindings d with ⟨b, hb, hscope, hname, heq⟩ | ⟨hnew, heq⟩
  · rw [heq]
    refine ⟨h.distinct, fun c hc => ?_, fun e he => ?_⟩
    · obtain ⟨e, he, rfl⟩ := h.made_of_mem c hc
      exact ⟨e, List.mem_append_left _ he, rfl⟩
    · rcases List.mem_append.mp he with he | he
      · exact h.mem_of_made e he
      · obtain rfl := List.mem_singleton.mp he
        exact ⟨b, hb, hscope, hname⟩
  · rw [heq]
    refine ⟨?_, fun c hc => ?_, fun e he => ?_⟩
    · refine List.pairwise_append.mpr ⟨h.distinct, List.pairwise_singleton _ _, ?_⟩
      rintro b hb c hc ⟨hscope, hname⟩
      obtain rfl := List.mem_singleton.mp hc
      exact hnew b hb hscope hname
    · rcases List.mem_append.mp hc with hc | hc
      · obtain ⟨e, he, rfl⟩ := h.made_of_mem c hc
        exact ⟨e, List.mem_append_left _ he, rfl⟩
      · obtain rfl := List.mem_singleton.mp hc
        exact ⟨d, by simp, rfl⟩
    · rcases List.mem_append.mp he with he | he
      · obtain ⟨b, hb, hscope, hname⟩ := h.mem_of_made e he
        exact ⟨b, List.mem_append_left _ hb, hscope, hname⟩
      · obtain rfl := List.mem_singleton.mp he
        exact ⟨t.madeBinding e, by simp, rfl, rfl⟩

/-- More declarations one by one. -/
theorem MadeBy.add_all {made : List Declaration} (h : t.MadeBy made bindings)
    (more : List Declaration) : t.MadeBy (made ++ more) (more.foldl t.addDeclaration bindings) := by
  induction more generalizing made bindings with
  | nil => rwa [List.append_nil]
  | cons d rest ih =>
      have hrest := ih (h.add d)
      rwa [List.append_assoc, List.singleton_append] at hrest

/-- The bindings of a tree are those that its declarations make. -/
theorem bindings_made (t : Tree) : t.MadeBy t.declarations t.bindings := by
  have hnone : t.MadeBy [] [] := ⟨List.Pairwise.nil, by simp, by simp⟩
  exact hnone.add_all t.declarations

/-- A table that gives each key of a list at most one value is searched by that function. -/
theorem lookup_filter_map {α : Type} (keys : List Node) (value : Node → Option α) :
    (keys.filterMap fun m => (value m).map (m, ·)).lookup n =
      if n ∈ keys then value n else none := by
  induction keys with
  | nil => rfl
  | cons k rest ih =>
      cases hk : value k with
      | none =>
          rw [List.filterMap_cons_none (by simp [hk]), ih]
          by_cases hn : n = k
          · subst hn
            simp [hk]
          · simp [hn]
      | some v =>
          rw [List.filterMap_cons_some (by simp [hk]; rfl), List.lookup_cons]
          by_cases hn : n = k
          · subst hn
            simp [hk]
          · simp [hn, ih, beq_false_of_ne hn]

/-- An identifier that no construct places is no declaring node. -/
theorem lookup_declared_of_free (h : ∀ c s, ¬ t.Places c n s) :
    t.resolution.declared.lookup n = none := by
  cases hlookup : t.resolution.declared.lookup n with
  | none => rfl
  | some b =>
      have hmem : (n, b) ∈ t.declaredWith t.bindings := mem_of_lookup hlookup
      simp only [declaredWith, List.mem_filterMap, Option.map_eq_some_iff, Prod.mk.injEq] at hmem
      obtain ⟨d, hd, c, -, rfl, -⟩ := hmem
      obtain ⟨construct, hplaces⟩ := places_iff_declared.mpr ⟨d, hd, rfl, rfl⟩
      exact absurd hplaces (h construct d.scope)

/-- A declaring identifier belongs to the binding of its name in its scope. -/
theorem lookup_declared (hd : d ∈ t.declarations) :
    t.resolution.declared.lookup d.identifier =
      bindingAt? t.bindings d.scope (t.text d.identifier) := by
  obtain ⟨b, hb, hscope, hname⟩ := t.bindings_made.mem_of_made d hd
  have hat := t.bindings_made.distinct.binding_at.mpr ⟨hb, hscope, hname⟩
  have hmem : (d.identifier, b) ∈ t.declaredWith t.bindings :=
    List.mem_filterMap.mpr ⟨d, hd, by simp [hat]⟩
  cases hlookup : t.resolution.declared.lookup d.identifier with
  | none => simpa using List.lookup_eq_none_iff.mp hlookup _ hmem
  | some c =>
      -- Another entry of the identifier would come from another declaration of it.
      have hother : (d.identifier, c) ∈ t.declaredWith t.bindings := mem_of_lookup hlookup
      simp only [declaredWith, List.mem_filterMap, Option.map_eq_some_iff, Prod.mk.injEq] at hother
      obtain ⟨e, he, a, ha, hidentifier, rfl⟩ := hother
      rw [declaration_unique he hd hidentifier] at ha
      exact ha.symm

/-- The binding of a declaring identifier. -/
theorem binding_of_declaration (hd : d ∈ t.declarations) :
    ∃ b ∈ t.bindings, t.resolution.bindingOf? d.identifier = some b ∧ b.scope = d.scope ∧
      b.name = t.text d.identifier := by
  obtain ⟨b, hb, hscope, hname⟩ := t.bindings_made.mem_of_made d hd
  have hat := t.bindings_made.distinct.binding_at.mpr ⟨hb, hscope, hname⟩
  refine ⟨b, hb, ?_, hscope, hname⟩
  rw [Resolution.bindingOf?, lookup_declared hd, hat, Option.some_or]

/-- The node that first declares a binding belongs to it. -/
theorem binding_of_identifier (hb : b ∈ t.resolution.bindings) :
    t.resolution.bindingOf? b.identifier = some b := by
  obtain ⟨d, hd, rfl⟩ := t.bindings_made.made_of_mem b hb
  have hat := t.bindings_made.distinct.binding_at.mpr ⟨hb, rfl, rfl⟩
  have hlookup := lookup_declared hd
  rw [Resolution.bindingOf?]
  exact Option.or_eq_some_iff.mpr (.inl (hlookup.trans hat))

/-- A node with a binding is an identifier of its name. -/
theorem name_of_binding_of (h : t.resolution.bindingOf? n = some b) :
    t.kind n ∈ referenceKinds ∧ t.text n = b.name := by
  rcases Option.or_eq_some_iff.mp h with hdeclared | ⟨-, huse⟩
  · have hmem : (n, b) ∈ t.declaredWith t.bindings := mem_of_lookup hdeclared
    simp only [declaredWith, List.mem_filterMap, Option.map_eq_some_iff, Prod.mk.injEq] at hmem
    obtain ⟨d, hd, c, hat, rfl, rfl⟩ := hmem
    obtain ⟨construct, hplaces⟩ := places_iff_declared.mpr ⟨d, hd, rfl, rfl⟩
    have hkinds : ∀ k ∈ bindingKinds, k ∈ referenceKinds := by decide +kernel
    exact ⟨hkinds _ hplaces.is_identifier, (binding_at_fits hat).2.symm⟩
  · have hmem : (n, b) ∈ t.usesWith t.bindings t.resolution.declared := mem_of_lookup huse
    refine ⟨(mem_uses hmem).1, ?_⟩
    simp only [usesWith, List.mem_filterMap] at hmem
    obtain ⟨m, -, hm⟩ := hmem
    split at hm
    case isTrue =>
      simp only [Option.map_eq_some_iff, Prod.mk.injEq] at hm
      obtain ⟨c, hlookup, rfl, rfl⟩ := hm
      obtain ⟨s, -, hat⟩ := List.exists_of_findSome?_eq_some hlookup
      exact (binding_at_fits hat).2.symm
    case isFalse => simp at hm

/-- A use belongs to the binding that its name means there. -/
theorem binding_of_use (hn : n ∈ t.nodes) (hkind : t.kind n ∈ referenceKinds)
    (hfree : ∀ c s, ¬ t.Places c n s) (huse : t.InUsePosition n) :
    t.resolution.bindingOf? n = t.lookup? t.bindings n (t.text n) := by
  have hdeclared := lookup_declared_of_free hfree
  have huses : t.resolution.uses = t.nodes.filterMap fun m =>
      (if t.kind m ∈ referenceKinds ∧ (t.resolution.declared.lookup m).isNone ∧ t.InUsePosition m
        then t.lookup? t.bindings m (t.text m) else none).map (m, ·) := by
    have hentry : t.resolution.uses = t.usesWith t.bindings t.resolution.declared := rfl
    rw [hentry, usesWith]
    congr 1
    funext m
    split <;> rfl
  rw [Resolution.bindingOf?, hdeclared, Option.none_or, huses, lookup_filter_map, if_pos hn,
    if_pos ⟨hkind, by simp [hdeclared], huse⟩]

end Tree

end Excise
