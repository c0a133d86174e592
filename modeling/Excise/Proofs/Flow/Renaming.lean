import Excise.Proofs.Flow.Order
import Excise.Proofs.Names.Respelling
import Excise.Proofs.Plan.Retext

/-!
# Following a module through a renamed program

If a variable gets a new name that no node has and that is not the name of the module loader, the
program has the same sites, and each has the same effect, as has each use (`IsRenaming.sites_eq`,
`IsRenaming.site_effect_eq`, `IsRenaming.reference_effect_eq`). The runs over both programs
therefore move in step: they taint the same variables in as many passes and plan the same for each
node (`IsRenaming.run_eq`). `renaming_irrelevant` says so of the program in which the new name is
written at every node of the variable.
-/

namespace Excise

variable {t t' : Tree} {b c : Binding} {name target : String} {n : Node} {visited : List Node}

namespace Tree

/-- The effect with the variables renamed and the texts of the other tree. -/
def renamedEffect (t' : Tree) (b : Binding) (name : String) (e : Effect) : Effect :=
  ⟨e.entry.map (Entry.retext t'.placeholderText), e.bindings.map (b.renamed name)⟩

namespace IsRenaming

variable (h : IsRenaming t t' b name) (hfresh : t.IsFresh name)

include h

/-- A string literal has the same value. -/
theorem literal_text_eq (n : Node) : t'.literalText? n = t.literalText? n := by
  rw [literalText?, literalText?, h.form.kind_eq]
  split
  case isTrue hstring =>
    rw [h.kept n (by simp [hstring])]
    -- A string is no identifier, so it belongs to no variable.
    intro hbinding
    have hkind := (name_of_binding_of hbinding).1
    rw [hstring] at hkind
    exact absurd hkind (by decide)
  case isFalse => rfl

include hfresh

/-- A pattern declares the same variables. -/
theorem bindings_in_eq (pattern : Option Node) :
    t'.resolution.bindingsIn t' pattern =
      (t.resolution.bindingsIn t pattern).map (b.renamed name) := by
  rw [Resolution.bindingsIn, Resolution.bindingsIn, h.form.bound_identifiers_in_eq,
    List.map_filterMap]
  refine List.filterMap_congr fun i _ => ?_
  rw [h.declared_eq hfresh, lookup_map_values]

/-- Identifiers belong to the same variables. -/
theorem filter_map_binding_of_eq (identifiers : List Node) :
    identifiers.filterMap t'.resolution.bindingOf? =
      (identifiers.filterMap t.resolution.bindingOf?).map (b.renamed name) := by
  rw [List.map_filterMap]
  exact List.filterMap_congr fun i _ => h.binding_of_eq hfresh

/-- A use passes the value on to the same variables. -/
theorem carried_bindings_eq (u : Usage) :
    t'.carriedBindings t'.resolution u =
      (t.carriedBindings t.resolution u).map (b.renamed name) := by
  rw [carriedBindings, carriedBindings]
  split
  · rw [h.form.child_by_field_eq, h.bindings_in_eq hfresh]
  · rw [h.form.bound_identifiers_in_eq, h.filter_map_binding_of_eq hfresh]
  · rfl

/-- A use has the same effect. -/
theorem usage_effect_eq (u : Option Usage) :
    t'.usageEffect t'.resolution u = t'.renamedEffect b name (t.usageEffect t.resolution u) := by
  cases u with
  | none => rfl
  | some u =>
      simp only [usageEffect, renamedEffect, Option.bind_some, Option.elim_some,
        h.form.usage_entry_eq, h.carried_bindings_eq hfresh]

/-- Every use of a variable has the same effect. -/
theorem reference_effect_eq (n : Node) :
    t'.referenceEffect t'.resolution n =
      t'.renamedEffect b name (t.referenceEffect t.resolution n) := by
  have hdeclares : t'.resolution.Declares n ↔ t.resolution.Declares n := by
    rw [Resolution.Declares, Resolution.Declares, h.declared_eq hfresh, lookup_map_values,
      Option.isSome_map]
  have hvalue : t'.HoldsNoValue t'.resolution n ↔ t.HoldsNoValue t.resolution n := by
    simp only [HoldsNoValue, hdeclares, h.form.parent_eq, h.form.kind_eq, h.form.field_is_iff]
  have husage : t'.referenceUsage? t'.resolution n = t.referenceUsage? t.resolution n := by
    simp only [referenceUsage?, hvalue, h.form.kind_eq, h.form.expression_usage_eq]
  rw [referenceEffect, referenceEffect, husage, h.usage_effect_eq hfresh]

/-- Every site has the same effect. -/
theorem site_effect_eq (site : Site) :
    t'.siteEffect t'.resolution site =
      t'.renamedEffect b name (t.siteEffect t.resolution site) := by
  cases site with
  | imported n =>
      simp only [siteEffect, statementEntry, h.form.whole_statement_eq, h.form.imported_names_eq,
        h.filter_map_binding_of_eq hfresh]
      rfl
  | required n =>
      rw [siteEffect, siteEffect, h.form.expression_usage_eq, h.usage_effect_eq hfresh]

/-- The same callees are the module loader. -/
theorem is_module_loader_iff (hloader : name ≠ "require") (n : Node) :
    t'.IsModuleLoader t'.resolution n ↔ t.IsModuleLoader t.resolution n := by
  rw [IsModuleLoader, IsModuleLoader, h.form.kind_eq, h.binding_of_eq hfresh, Option.isNone_map]
  refine and_congr_right fun hkind => ?_
  by_cases hb : t.resolution.bindingOf? n = some b
  · simp [hb, h.renamed n hb, hloader]
  · rw [h.kept n (by simp [hkind, referenceKinds]) hb]

/-- The program has the same sites. -/
theorem sites_eq (hloader : name ≠ "require") (target : String) :
    t'.sites t'.resolution target = t.sites t.resolution target := by
  have hliteral : t'.literalText? = t.literalText? := funext h.literal_text_eq
  have himports : ∀ n, t'.ImportsModule target n ↔ t.ImportsModule target n := by
    intro n
    rw [ImportsModule, ImportsModule, h.form.module_specifier_eq, hliteral]
  have hrequires : ∀ n, t'.RequiresModule t'.resolution target n ↔
      t.RequiresModule t.resolution target n := by
    intro n
    simp only [RequiresModule, firstArgument?, hliteral, h.form.child_by_field_eq,
      h.form.named_children_eq, h.is_module_loader_iff hfresh hloader]
  have hsite : t'.site? t'.resolution target = t.site? t.resolution target := by
    funext n
    simp only [site?, h.form.kind_eq, himports, hrequires]
  rw [sites, sites, h.form.nodes_eq, hsite]

/-- The effects in the two programs mirror each other. -/
theorem mirrors (hloader : name ≠ "require") (target : String) :
    Analysis.Mirrors t t' target (b.renamed name) where
  injective _ ha _ hc := renamed_inj hfresh ha hc
  sites := h.sites_eq hfresh hloader target
  site site _ := by rw [h.site_effect_eq hfresh, renamedEffect]
  uses _ hc := h.uses_of_eq hfresh hc
  use n := by rw [h.reference_effect_eq hfresh, renamedEffect]

/-- The same is asked for in both programs. -/
theorem asks_iff (hloader : name ≠ "require") {visited' : List Node} {entry : Entry}
    (hvisited : ∀ n, n ∈ visited' ↔ n ∈ visited) :
    Analysis.Asks t' target visited' entry ↔
      ∃ e, Analysis.Asks t target visited e ∧ e.retext t'.placeholderText = entry := by
  simp only [Analysis.Asks, h.sites_eq hfresh hloader, h.site_effect_eq hfresh,
    h.reference_effect_eq hfresh, renamedEffect, Option.map_eq_some_iff, hvisited]
  constructor
  · rintro (⟨site, hsite, e, he, heq⟩ | ⟨n, hn, e, he, heq⟩)
    · exact ⟨e, .inl ⟨site, hsite, he⟩, heq⟩
    · exact ⟨e, .inr ⟨n, hn, he⟩, heq⟩
  · rintro ⟨e, ⟨site, hsite, he⟩ | ⟨n, hn, he⟩, heq⟩
    · exact .inl ⟨site, hsite, e, he, heq⟩
    · exact .inr ⟨n, hn, e, he, heq⟩

/-- The analysis of the renamed program taints the same variables, takes as many passes, and plans
the same for each node. -/
theorem run_eq (hloader : name ≠ "require") (target : String) :
    (∀ c, c ∈ (Analysis.run t' target).tainted ↔
        ∃ a ∈ (Analysis.run t target).tainted, b.renamed name a = c) ∧
      (Analysis.run t' target).passes = (Analysis.run t target).passes ∧
      (Analysis.run t' target).plan.SameMap
        ((Analysis.run t target).plan.retext t'.placeholderText) := by
  have hmirrors := h.mirrors hfresh hloader target
  have hrun : Analysis.Finished t target (Analysis.run t target) := Analysis.finished_run
  have hrun' : Analysis.Finished t' target (Analysis.run t' target) := Analysis.finished_run
  obtain ⟨hpasses, hvisited⟩ := hmirrors.finished_eq hrun hrun'
  refine ⟨fun c => hmirrors.mem_tainted hrun.accounts hrun'.accounts hvisited, hpasses, ?_⟩
  obtain ⟨entries, hstrongest, hentries⟩ := hrun.accounts.strongest
  obtain ⟨entries', hstrongest', hentries'⟩ := hrun'.accounts.strongest
  refine hstrongest'.same_map (hstrongest.retext _) fun e => ?_
  rw [hentries', h.asks_iff hfresh hloader hvisited, List.mem_map]
  simp only [hentries]

end IsRenaming

/-- Where identifiers, strings and words share no bytes, a variable can be given any name that no
node has and that is not the name of the module loader. The nodes of the variable then have the new
name and all else has the text that it had; the same nodes declare and use the same variables, the
same variables are tainted, in as many passes, and the plan has the same nodes in the same tables,
each replaced with the text that belongs to it. -/
theorem renaming_irrelevant (t : Tree) (b : Binding) (name target : String)
    (hlexemes : t.LexemesApart) (hfresh : t.IsFresh name) (hloader : name ≠ "require") :
    let t' := t.renamed b name
    IsRenaming t t' b name ∧
      t'.resolution.bindings = t.resolution.bindings.map (b.renamed name) ∧
      t'.resolution.declared = t.resolution.declared.map (Prod.map id (b.renamed name)) ∧
      t'.resolution.uses = t.resolution.uses.map (Prod.map id (b.renamed name)) ∧
      (∀ c, c ∈ (Analysis.run t' target).tainted ↔
        ∃ a ∈ (Analysis.run t target).tainted, b.renamed name a = c) ∧
      (Analysis.run t' target).passes = (Analysis.run t target).passes ∧
      (Analysis.run t' target).plan.SameMap
        ((Analysis.run t target).plan.retext t'.placeholderText) := by
  have hrenaming := hlexemes.is_renaming b name
  exact ⟨hrenaming, hrenaming.bindings_eq hfresh, hrenaming.declared_eq hfresh,
    hrenaming.uses_eq hfresh, hrenaming.run_eq hfresh hloader target⟩

/-- The program `let d=require("debug");{let d=1;f({d})}d()`. -/
def shadowedName : Tree :=
  (Tree.ofRows? (Bytes.ofText "let d=require(\"debug\");\x7blet d=1;f(\x7bd\x7d)\x7dd()")
    #[⟨0, true, "program", 0, 42, none⟩,
      ⟨1, true, "lexical_declaration", 0, 23, none⟩,
      ⟨2, false, "let", 0, 3, some "kind"⟩,
      ⟨2, true, "variable_declarator", 4, 22, none⟩,
      ⟨3, true, "identifier", 4, 5, some "name"⟩,
      ⟨3, true, "call_expression", 6, 22, some "value"⟩,
      ⟨4, true, "identifier", 6, 13, some "function"⟩,
      ⟨4, true, "arguments", 13, 22, some "arguments"⟩,
      ⟨5, true, "string", 14, 21, none⟩,
      ⟨6, true, "string_fragment", 15, 20, none⟩,
      ⟨1, true, "statement_block", 23, 39, none⟩,
      ⟨2, true, "lexical_declaration", 24, 32, none⟩,
      ⟨3, false, "let", 24, 27, some "kind"⟩,
      ⟨3, true, "variable_declarator", 28, 31, none⟩,
      ⟨4, true, "identifier", 28, 29, some "name"⟩,
      ⟨4, true, "number", 30, 31, some "value"⟩,
      ⟨2, true, "expression_statement", 32, 38, none⟩,
      ⟨3, true, "call_expression", 32, 38, none⟩,
      ⟨4, true, "identifier", 32, 33, some "function"⟩,
      ⟨4, true, "arguments", 33, 38, some "arguments"⟩,
      ⟨5, true, "object", 34, 37, none⟩,
      ⟨6, true, "shorthand_property_identifier", 35, 36, none⟩,
      ⟨1, true, "expression_statement", 39, 42, none⟩,
      ⟨2, true, "call_expression", 39, 42, none⟩,
      ⟨3, true, "identifier", 39, 40, some "function"⟩,
      ⟨3, true, "arguments", 40, 42, some "arguments"⟩]).get (by decide +kernel)

/-- With the outer `d` under the name `load`, the program is `let load=require("debug");{let
d=1;f({d})}load()`, and `load` is the tainted variable. -/
theorem shadowed_name_renamed :
    let b : Binding := ⟨"d", .keyword "let", 4, 0⟩
    let t' := shadowedName.renamed b "load"
    t'.source = Bytes.ofText "let load=require(\"debug\");\x7blet d=1;f(\x7bd\x7d)\x7dload()" ∧
      (⟨"load", .keyword "let", 4, 0⟩ : Binding) ∈ (Analysis.run t' "debug").tainted ∧
      (Analysis.run t' "debug").passes = (Analysis.run shadowedName "debug").passes := by
  have hrows : ∀ n ∈ shadowedName.nodes, shadowedName.IsLexeme n →
      shadowedName.start n ≤ shadowedName.stop n ∧
        shadowedName.stop n ≤ shadowedName.source.length ∧
        (shadowedName.IsWord n → shadowedName.kind n ∉ referenceKinds) ∧
        ∀ m ∈ shadowedName.nodes, shadowedName.IsLexeme m → m ∉ shadowedName.descendants n ∧
          (m ≠ n → shadowedName.stop m ≤ shadowedName.start n ∨
            shadowedName.stop n ≤ shadowedName.start m) := by
    decide +kernel
  have hmem : ∀ {n}, shadowedName.IsLexeme n → n ∈ shadowedName.nodes :=
    fun hn => List.mem_range.mpr hn.lt_size
  have hlexemes : shadowedName.LexemesApart :=
    { range := fun n hn => ⟨(hrows n (hmem hn) hn).1, (hrows n (hmem hn) hn).2.1⟩
      apart := fun m n hm hn => ((hrows n (hmem hn) hn).2.2.2 m (hmem hm) hm).2
      outside := fun m n hm hn => ((hrows n (hmem hn) hn).2.2.2 m (hmem hm) hm).1
      words := fun n hn => (hrows n (hmem (.inr hn)) (.inr hn)).2.2.1 hn }
  have hfresh : shadowedName.IsFresh "load" := by
    rw [IsFresh]
    decide +kernel
  obtain ⟨-, -, -, -, htainted, hpasses, -⟩ := renaming_irrelevant shadowedName
    ⟨"d", .keyword "let", 4, 0⟩ "load" "debug" hlexemes hfresh (by decide)
  have hrun : (⟨"d", .keyword "let", 4, 0⟩ : Binding) ∈
      (Analysis.run shadowedName "debug").tainted := by
    decide +kernel
  exact ⟨by decide +kernel, (htainted _).mpr ⟨_, hrun, rfl⟩, hpasses⟩

end Tree

end Excise
