import Excise.Proofs.Flow.Idempotence
import Excise.Proofs.Plan.Targets

/-!
# A declarator goes only if it is tainted

A declarator goes as an item of its list, or with its declaration and the `export` around that,
which goes when the list has lost all its items (`Plan.TakesDeclarator`). Whichever way it is, a
tainted usage initializes it (`marked_of_taken`): a sibling that holds something else stays. All
that its pattern binds is then declared and tainted (`taken_declarators_tainted`), so that no name
loses its declarator while its uses stay.
-/

namespace Excise

/-- The node is the declaration, or the `export` around it. -/
def Tree.IsDeclarationStatement (t : Tree) (declaration n : Node) : Prop :=
  n = declaration ∨ t.parent? declaration = some n ∧ t.kind n = "export_statement"

/-- Two comparisons. -/
instance (t : Tree) (declaration n : Node) : Decidable (t.IsDeclarationStatement declaration n) :=
  inferInstanceAs (Decidable (_ ∨ _))

/-- The plan removes the declarator from its list, or deletes the declaration that it is in. -/
def Plan.TakesDeclarator (p : Plan) (t : Tree) (d : Node) : Prop :=
  d ∈ p.items ∨ ∃ declaration ∈ t.parent? d, ∃ n ∈ p.statements t,
    t.IsDeclarationStatement declaration n

/-- The tables are searched. -/
instance (p : Plan) (t : Tree) (d : Node) : Decidable (p.TakesDeclarator t d) :=
  inferInstanceAs (Decidable (_ ∨ ∃ declaration ∈ t.parent? d, ∃ n ∈ p.statements t, _))

namespace Tree

variable {t : Tree} {target : String} {c d e i m n : Nat} {u : Usage} {form : Definition}

/-- An `export` around the node exports it: a statement, a declaration or a list of names. -/
def IsExportable (t : Tree) (n : Node) : Prop := t.IsStatement n ∨ t.kind n = "export_clause"

/-- The kind decides it. -/
instance (t : Tree) (n : Node) : Decidable (t.IsExportable n) :=
  inferInstanceAs (Decidable (_ ∨ _))

/-- An `export` exports one thing. -/
def ExportsOneThing (t : Tree) : Prop :=
  ∀ e ∈ t.nodes, t.kind e = "export_statement" → ∀ a ∈ t.children e, ∀ b ∈ t.children e,
    t.IsExportable a → t.IsExportable b → a = b

/-- The children of the nodes are compared. -/
instance (t : Tree) : Decidable t.ExportsOneThing :=
  inferInstanceAs (Decidable (∀ e ∈ t.nodes, t.kind e = "export_statement" → ∀ a ∈ t.children e,
    ∀ b ∈ t.children e, t.IsExportable a → t.IsExportable b → a = b))

/-- Two things that one `export` is around are the same. -/
theorem ExportsOneThing.eq (h : t.ExportsOneThing) (hm : t.parent? m = some e)
    (hn : t.parent? n = some e) (hkind : t.kind e = "export_statement")
    (hexports : t.IsExportable m) (hexports' : t.IsExportable n) : m = n := by
  have hlt := lt_size_of_mem_ancestors (parent_mem_ancestors hm)
  have hrow : e ∈ t.nodes := List.mem_range.mpr ((parent_lt hm).trans hlt)
  exact h e hrow hkind m (mem_children.mpr hm) n (mem_children.mpr hn) hexports hexports'

/-- A declaration is a statement. -/
theorem exportable_of_declaration (h : t.kind n ∈ declarationKinds) : t.IsExportable n := by
  have hkinds : ∀ k ∈ declarationKinds, k ∈ declaringStatementKinds := by decide
  exact .inl (.inr (hkinds _ h))

/-- A declaration is no `export`. -/
theorem declaration_kind_ne (h : t.kind n ∈ declarationKinds) : t.kind n ≠ "export_statement" := by
  intro heq
  simp [heq, declarationKinds] at h

section Taken

variable (hsingle : t.ExportsOneThing)

include hsingle

/-- A statement that takes the declaration with it is that declaration. -/
theorem eq_of_whole_statement (hc : t.kind c ∈ declarationKinds) (hexports : t.IsExportable n)
    (hkind : t.kind n ≠ "export_statement")
    (h : t.IsDeclarationStatement c (t.wholeStatement n)) : n = c := by
  rcases t.whole_statement_cases n with ⟨heq, -⟩ | ⟨hparent, hexport⟩
  · rw [heq] at h
    exact h.resolve_right fun hwrapper => hkind hwrapper.2
  · rcases h with heq | ⟨hwrapper, -⟩
    · exact absurd (heq ▸ hexport) (declaration_kind_ne hc)
    · exact hsingle.eq hparent hwrapper hexport hexports (exportable_of_declaration hc)

variable (hdeclarators : t.DeclaratorsListed) (hspecifiers : t.SpecifiersListed)

include hdeclarators hspecifiers

/-- A list with a marked item whose owner takes the declaration with it is that declaration. -/
theorem IsMarkedItem.list_eq (hmarked : t.IsMarkedItem target i) (hparent : t.parent? i = some m)
    (hc : t.kind c ∈ declarationKinds) (h : t.IsDeclarationStatement c (t.listOwner m)) :
    m = c ∧ i ∈ t.namedChildrenOfKind c "variable_declarator" ∧
      t.kind i = "variable_declarator" := by
  obtain ⟨hnamed, hlisted⟩ := hmarked.listed hdeclarators hspecifiers hparent
  rcases hlisted with ⟨hkind, hdeclaration⟩ | ⟨-, hclause, hexport⟩
  · rw [list_owner_of_declaration hdeclaration] at h
    have heq := eq_of_whole_statement hsingle hc (exportable_of_declaration hdeclaration)
      (declaration_kind_ne hdeclaration) h
    exact ⟨heq, mem_named_children_of_kind.mpr ⟨heq ▸ hparent, hnamed, hkind⟩, hkind⟩
  · -- The `export` of a list of names is not around the declaration as well.
    obtain ⟨howner, hkind⟩ := parent_of_export_list hclause hexport
    rcases h with heq | ⟨hwrapper, -⟩
    · exact absurd (heq ▸ hkind) (declaration_kind_ne hc)
    · have heq := hsingle.eq howner hwrapper hkind (.inr hclause) (exportable_of_declaration hc)
      rw [← heq, hclause] at hc
      simp [declarationKinds] at hc

/-- A declarator that the plan of an analysis takes is marked. -/
theorem marked_of_taken (hd : t.kind d = "variable_declarator") (hrow : d ∈ t.nodes)
    (h : (Analysis.run t target).plan.TakesDeclarator t d) : t.IsMarkedItem target d := by
  rcases h with hitem | ⟨c, hparent, m, hm, hstatement⟩
  · exact (item_origin hitem).1
  · obtain ⟨hnamed, p, hp, hc⟩ := hdeclarators d hrow hd
    obtain rfl := Option.mem_unique hparent hp
    have hlisted : d ∈ t.namedChildrenOfKind c "variable_declarator" :=
      mem_named_children_of_kind.mpr ⟨hparent, hnamed, hd⟩
    rcases Plan.mem_statements.mp hm with hdeletion | ⟨l, hl, hfull, rfl⟩
    · rcases deletion_origin hdeletion with
        ⟨s, hremoved, rfl⟩ | ⟨i, q, hmarked, hq, hsole, rfl⟩
      · -- Neither an import nor an effect is a declaration.
        have hkind : t.kind s = "import_statement" ∨ t.kind s = "expression_statement" :=
          hremoved.imp (·.2.1) (·.1)
        have hexportable : t.IsExportable s := by
          rcases hkind with hkind | hkind
          · exact .inl (.inl (by rw [hkind]; decide))
          · exact .inl (.inl (by rw [hkind]; decide))
        have heq := eq_of_whole_statement hsingle hc hexportable
          (by rcases hkind with hkind | hkind <;> simp [hkind]) hstatement
        rw [← heq] at hc
        rcases hkind with hkind | hkind <;> simp [hkind, declarationKinds] at hc
      · obtain ⟨rfl, hi, hkind⟩ :=
          hmarked.list_eq hsingle hdeclarators hspecifiers hq hc hstatement
        rw [hkind] at hsole
        obtain ⟨only, honly⟩ := List.length_eq_one_iff.mp hsole
        rw [honly, List.mem_singleton] at hi hlisted
        rwa [hlisted, ← hi]
    · obtain ⟨first, hfirst, hq, hitems⟩ := Plan.exists_first_marked hl
      obtain ⟨heq, -, hkind⟩ := (item_origin hfirst).1.list_eq hsingle hdeclarators hspecifiers
        hq hc hstatement
      have hmem : d ∈ l.items t := by rwa [hitems, heq, hkind]
      exact (item_origin (Plan.marked_subset hl (hfull d hmem))).1

end Taken

/-- What the pattern of a declarator binds is declared. -/
theorem declared_of_declarator (hroot : t.kind 0 = "program")
    (hlisted : d ∈ t.namedChildrenOfKind c "variable_declarator")
    (hc : t.kind c ∈ declarationKinds)
    (hi : i ∈ t.boundIdentifiersIn (t.childByField? d "name")) :
    ∃ declaration ∈ t.declarations, declaration.identifier = i := by
  have hbinds : t.DeclaratorBinds c i :=
    mem_declarator_identifiers.mp (List.mem_flatMap.mpr ⟨d, hlisted, hi⟩)
  have hparent := parent_of_named_child_of_kind hlisted
  have hrow := lt_size_of_mem_ancestors (parent_mem_ancestors hparent)
  have hinside : c ∈ t.descendants 0 := by
    refine mem_descendants_root.mpr ⟨(parent_lt hparent).trans hrow, ?_⟩
    rintro rfl
    simp [hroot, declarationKinds] at hc
  have hplaces : ∃ s, t.Places c i s := by
    rcases List.mem_cons.mp hc with hvar | hlexical
    · exact ⟨_, .hoisted hinside hvar hbinds (hoist_scope_around_closest hinside)⟩
    · exact ⟨_, .lexical hinside (List.mem_singleton.mp hlexical) hbinds
        (scope_around_closest hinside)⟩
  obtain ⟨s, hs⟩ := hplaces
  obtain ⟨declaration, hdeclaration, hidentifier, -⟩ := places_iff_declared.mp ⟨c, hs⟩
  exact ⟨declaration, hdeclaration, hidentifier⟩

/-- A declared node has a binding. -/
theorem declares_of_declaration {declaration : Declaration} (h : declaration ∈ t.declarations) :
    t.resolution.Declares declaration.identifier := by
  obtain ⟨b, hb, hscope, hname⟩ := t.bindings_made.mem_of_made declaration h
  rw [Resolution.Declares, lookup_declared h,
    t.bindings_made.distinct.binding_at.mpr ⟨hb, hscope, hname⟩]
  rfl

/-- All that the pattern of a declarator binds is declared and tainted if a tainted usage
initializes the declarator. -/
theorem IsUsageAt.pattern_tainted (husage : t.IsUsageAt target n u)
    (hrole : u.role = .definition d form) (hroot : t.kind 0 = "program")
    (hlisted : d ∈ t.namedChildrenOfKind c "variable_declarator")
    (hc : t.kind c ∈ declarationKinds)
    (hi : i ∈ t.boundIdentifiersIn (t.childByField? d "name")) :
    t.resolution.Declares i ∧
      ∃ b ∈ (Analysis.run t target).tainted, t.resolution.bindingOf? i = some b := by
  obtain ⟨declaration, hdeclaration, rfl⟩ := declared_of_declarator hroot hlisted hc hi
  obtain ⟨b, -, hb, -⟩ := binding_of_declaration hdeclaration
  obtain ⟨p, hp, hbinds⟩ := mem_bound_identifiers_in.mp hi
  have hreceives : t.Receives target declaration.identifier :=
    .initialized husage hrole hp hbinds
  exact ⟨declares_of_declaration hdeclaration, b, hreceives.tainted hdeclaration rfl hb, hb⟩

/-- A declarator that goes, from its list or with its declaration, is initialized by a tainted
usage, and all that its pattern binds is declared and tainted. This holds of a program whose
declarators stand in declarations, whose exported names stand in export statements, and whose
exports each export one thing. -/
theorem taken_declarators_tainted (t : Tree) (target : String) (hroot : t.kind 0 = "program")
    (hdeclarators : t.DeclaratorsListed) (hspecifiers : t.SpecifiersListed)
    (hsingle : t.ExportsOneThing) :
    ∀ d ∈ t.nodes, t.kind d = "variable_declarator" →
      (Analysis.run t target).plan.TakesDeclarator t d →
        ∃ n u form, t.IsUsageAt target n u ∧ u.role = .definition d form ∧
          ∀ i ∈ t.boundIdentifiersIn (t.childByField? d "name"), t.resolution.Declares i ∧
            ∃ b ∈ (Analysis.run t target).tainted, t.resolution.bindingOf? i = some b := by
  intro d hrow hd htaken
  obtain ⟨hnamed, c, hparent, hc⟩ := hdeclarators d hrow hd
  have hlisted : d ∈ t.namedChildrenOfKind c "variable_declarator" :=
    mem_named_children_of_kind.mpr ⟨hparent, hnamed, hd⟩
  cases marked_of_taken hsingle hdeclarators hspecifiers hd hrow htaken with
  | @declarator n u form usage role _ =>
      exact ⟨n, u, form, usage, role, fun i hi =>
        usage.pattern_tainted role hroot hlisted hc hi⟩
  | specifier usage role =>
      have hfits := usage.fits
      rw [UsageFits, role] at hfits
      simp [hd] at hfits

/-- The program `export const {x:[b]}=require("debug");`. -/
def nestedLoad : Tree :=
  (Tree.ofRows? (Bytes.ofText "export const \x7bx:[b]\x7d=require(\"debug\");")
    #[⟨0, true, "program", 0, 38, none⟩,
      ⟨1, true, "export_statement", 0, 38, none⟩,
      ⟨2, true, "lexical_declaration", 7, 38, some "declaration"⟩,
      ⟨3, false, "const", 7, 12, some "kind"⟩,
      ⟨3, true, "variable_declarator", 13, 37, none⟩,
      ⟨4, true, "object_pattern", 13, 20, some "name"⟩,
      ⟨5, true, "pair_pattern", 14, 19, none⟩,
      ⟨6, true, "property_identifier", 14, 15, some "key"⟩,
      ⟨6, true, "array_pattern", 16, 19, some "value"⟩,
      ⟨7, true, "identifier", 17, 18, none⟩,
      ⟨4, true, "call_expression", 21, 37, some "value"⟩,
      ⟨5, true, "identifier", 21, 28, some "function"⟩,
      ⟨5, true, "arguments", 28, 37, some "arguments"⟩,
      ⟨6, true, "string", 29, 36, none⟩,
      ⟨7, true, "string_fragment", 30, 35, none⟩]).get (by decide +kernel)

/-- Its declarator goes with the `export`, and the variable inside its pattern is tainted. -/
theorem nested_load_tainted :
    (nestedLoad.kind 0 = "program" ∧ nestedLoad.DeclaratorsListed ∧ nestedLoad.SpecifiersListed ∧
        nestedLoad.ExportsOneThing) ∧
      (Analysis.run nestedLoad "debug").plan.TakesDeclarator nestedLoad 4 ∧
      nestedLoad.resolution.Declares 9 ∧
      ∃ b ∈ (Analysis.run nestedLoad "debug").tainted,
        nestedLoad.resolution.bindingOf? 9 = some b := by
  have hroot : nestedLoad.kind 0 = "program" := by decide +kernel
  have hdeclarators : nestedLoad.DeclaratorsListed := by decide +kernel
  have hspecifiers : nestedLoad.SpecifiersListed := by decide +kernel
  have hsingle : nestedLoad.ExportsOneThing := by decide +kernel
  have htaken : (Analysis.run nestedLoad "debug").plan.TakesDeclarator nestedLoad 4 := by
    decide +kernel
  obtain ⟨n, u, form, -, -, hpattern⟩ :=
    taken_declarators_tainted nestedLoad "debug" hroot hdeclarators hspecifiers hsingle 4
      (by decide +kernel) (by decide +kernel) htaken
  exact ⟨⟨hroot, hdeclarators, hspecifiers, hsingle⟩, htaken, hpattern 9 (by decide +kernel)⟩

end Tree

end Excise
