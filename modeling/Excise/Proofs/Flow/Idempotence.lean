import Excise.Proofs.Edit.CarryOut
import Excise.Proofs.Names.Pruning
import Excise.Proofs.Plan.Kinds

/-!
# A second run

When the plan of an analysis is carried out, all uses of the target module are gone. What could
bring one back is a call `require(…)` whose callee was a variable of the program and is none any
more, because the plan took its declarations out. `nothing_left_to_remove` says that this does not
happen where all that is declared inside what the plan takes out is either placed in scopes inside
it or receives the module (`Tree.Receives`), so that its uses go as well.
`abstract_class_uncovers_require` is a program where it does happen.
-/

namespace Excise

namespace Tree

variable {t : Tree} {target : String} {b : Binding} {c i m n s : Nat} {u : Usage}

/-! ## The callee of a call -/

/-- No construct places the callee of a call, which is no pattern of a construct. -/
theorem not_places_callee (hparent : t.parent? c = some n) (hkind : t.kind n = "call_expression") :
    ¬ t.Places m c s :=
  not_places_of_frame (frame_of_parent hparent (by simp [hkind, partKinds])) (.inl hkind)

/-- The callee of a call belongs to the variable that its name means there. -/
theorem binding_of_callee (hparent : t.parent? c = some n) (hkind : t.kind n = "call_expression")
    (hidentifier : t.kind c = "identifier") :
    t.resolution.bindingOf? c = t.lookup? t.bindings c (t.text c) :=
  binding_of_use (List.mem_range.mpr (lt_size_of_mem_ancestors (parent_mem_ancestors hparent)))
    (by simp [hidentifier, referenceKinds]) (fun _ _ => not_places_callee hparent hkind)
    ⟨n, hparent, by simp [hkind, importPartKinds], by simp [hkind]⟩

/-- An expression in a statement has a usage. -/
theorem exists_expression_usage (hkind : t.kind n ≠ "parenthesized_expression")
    (hstatement : ∃ a ∈ t.ancestors n, t.IsStatement a) : ∃ u, t.expressionUsage? n = some u := by
  obtain ⟨a, ha, hs⟩ := hstatement
  have habove := (chain_top_on_chain.leads_to hkind).statements a ha hs
  cases hparent : t.parent? (t.usageChain n).top with
  | none => simp [ancestors_of_no_parent hparent] at habove
  | some q => exact ⟨_, Option.map_eq_some_iff.mpr ⟨q, hparent, rfl⟩⟩

/-- It is enough to look at the calls and at the uses of the tainted variables to see that what
concerns the module stands in statements. -/
theorem in_statements
    (hcalls : ∀ n ∈ t.nodes, t.kind n = "call_expression" → ∃ a ∈ t.ancestors n, t.IsStatement a)
    (huses : ∀ b ∈ (Analysis.run t target).tainted, ∀ n ∈ t.resolution.usesOf b,
      ∃ a ∈ t.ancestors n, t.IsStatement a) :
    ∀ n, t.IsTargetRequire target n ∨ t.IsTaintedUse target n →
      ∃ a ∈ t.ancestors n, t.IsStatement a := by
  rintro n (hrequire | ⟨b, hb, hn⟩)
  · exact hcalls n hrequire.1 hrequire.2.1
  · exact huses b hb n hn

/-- The callee of a call in a statement that belongs to a tainted variable is a use of it. -/
theorem exists_callee_usage (hparent : t.parent? c = some n)
    (hkind : t.kind n = "call_expression") (hidentifier : t.kind c = "identifier")
    (hbinding : t.resolution.bindingOf? c = some b)
    (htainted : b ∈ (Analysis.run t target).tainted)
    (hstatements : ∀ m, t.IsTaintedUse target m → ∃ a ∈ t.ancestors m, t.IsStatement a) :
    t.IsTaintedUse target c ∧ ∃ u, t.IsUsageAt target c u := by
  have hfree := lookup_declared_of_free fun m s => not_places_callee hparent hkind (m := m) (s := s)
  have huse : t.IsTaintedUse target c := by
    refine ⟨b, htainted, Resolution.mem_uses_of.mpr (mem_of_lookup ?_)⟩
    rwa [Resolution.bindingOf?, hfree, Option.none_or] at hbinding
  have hvalue : ¬ t.HoldsNoValue t.resolution c := by
    simp [HoldsNoValue, Resolution.Declares, hfree, hparent, hkind, typePositionKinds]
  obtain ⟨u, hu⟩ := exists_expression_usage (n := c) (by simp [hidentifier]) (hstatements c huse)
  refine ⟨huse, u, .used huse ?_⟩
  rw [referenceUsage?, if_neg hvalue, if_neg (by simp [hidentifier]), hu]

/-! ## Names that receive the module -/

/-- The identifier is a name that receives the module: an import of it introduces the name, or a
declarator that is initialized from it has the name in its pattern. -/
inductive Receives (t : Tree) (target : String) (i : Node) : Prop where
  | imported {n : Node} :
      t.IsTargetImport target n → i ∈ t.importedNames n → Receives t target i
  | initialized {n d p : Node} {u : Usage} {form : Definition} :
      t.IsUsageAt target n u → u.role = .definition d form → t.childByField? d "name" = some p →
      t.Binds p i → Receives t target i

/-- The variable of a declared name that receives the module is tainted. -/
theorem Receives.tainted (h : t.Receives target i) {d : Declaration} (hd : d ∈ t.declarations)
    (hi : d.identifier = i) (hb : t.resolution.bindingOf? i = some b) :
    b ∈ (Analysis.run t target).tainted := by
  cases h with
  | imported himport hname => exact IsImported.tainted ⟨_, himport, i, hname, hb⟩
  | @initialized n declarator q u form husage hrole hq hbinds =>
      -- A declared name is in the table that the usage's variables are looked up in.
      have hdeclared : t.resolution.declared.lookup i = some b := by
        obtain ⟨c, -, hc, hscope, hname⟩ := binding_of_declaration hd
        have hlookup := lookup_declared hd
        rw [hi] at hc hlookup hname
        obtain rfl := Option.some.inj (hb.symm.trans hc)
        rw [hlookup]
        exact t.bindings_made.distinct.binding_at.mpr
          ⟨Resolution.mem_bindings_of_binding_of hb, hscope, hname⟩
      have hcarried : b ∈ t.carriedBindings t.resolution u := by
        rw [carriedBindings, hrole]
        show b ∈ t.resolution.bindingsIn t (t.childByField? declarator "name")
        rw [hq]
        exact List.mem_filterMap.mpr ⟨i, mem_bound_identifiers_in.mpr ⟨q, rfl, hbinds⟩, hdeclared⟩
      exact husage.tainted hcarried

/-- A tree without sites taints nothing and plans nothing. -/
theorem run_of_no_sites (h : t.sites t.resolution target = []) :
    (Analysis.run t target).tainted = [] ∧ (Analysis.run t target).plan.IsEmpty := by
  -- Every chain of uses that taints a variable starts at a site.
  have htainted : (Analysis.run t target).tainted = [] := by
    refine List.eq_nil_iff_forall_not_mem.mpr fun b hb => ?_
    have hreached := Analysis.mem_tainted_run.mp hb
    clear hb
    induction hreached with
    | site hsite => simp [h] at hsite
    | use _ _ _ ih => exact ih
  have hrecords : ∀ n, ¬ (Analysis.run t target).plan.Records n := by
    intro n hn
    obtain ⟨e, he, -⟩ := Analysis.records_run.mp hn
    rcases Analysis.mem_effects_run.mp he with ⟨site, hsite, -⟩ | ⟨b, hb, -⟩
    · simp [h] at hsite
    · simp [htainted] at hb
  refine ⟨htainted, ?_⟩
  have hdeletions : (Analysis.run t target).plan.deletions = [] :=
    List.eq_nil_iff_forall_not_mem.mpr fun n hn => hrecords n (.inl hn)
  have hitems : (Analysis.run t target).plan.items = [] :=
    List.eq_nil_iff_forall_not_mem.mpr fun n hn => hrecords n (.inr (.inl hn))
  have hreplacements : (Analysis.run t target).plan.replacements.keys = [] :=
    List.eq_nil_iff_forall_not_mem.mpr fun n hn => hrecords n (.inr (.inr hn))
  rw [Plan.IsEmpty, Plan.size, hdeletions, hitems, List.map_eq_nil_iff.mp hreplacements]
  rfl

end Tree

open Excise.Tree

namespace Plan.CarriedOut

variable {p : Plan} {t t' : Tree} {place : Nat → Nat} {target name : String} {c i m n q s : Nat}
  (h : p.CarriedOut t t' place) (hheads : p.SparesHeads t)

include h

/-- A string literal is one that was kept, and has the same value. -/
theorem exists_literal (hi : t'.literalText? i = some target) :
    ∃ s, p.Keeps t s ∧ place s = i ∧ t.literalText? s = some target := by
  have hkind : t'.kind i = "string" := by
    by_contra hne
    simp [literalText?, hne] at hi
  have hrow : i < t'.size := lt_size_of_kind (by simp [hkind])
  obtain ⟨s, hs, rfl, heq⟩ := h.exists_kept hrow (by simp [hkind, placeholderKinds])
  have hlexeme : t.IsLexeme s := .inl (by simp [heq, hkind])
  refine ⟨s, hs, rfl, ?_⟩
  rwa [literalText?, heq, ← h.text_eq s hs hlexeme]

omit h in
/-- The children of an import, or of its `require` clause, are kept. -/
theorem keeps_import_child (hheads : p.SparesHeads t) (hq : p.Keeps t q)
    (hkind : t.kind q ∈ ["import_statement", "import_require_clause"])
    (hc : t.parent? c = some q) : p.Keeps t c := by
  have htaken : c ∉ p.takenNodes t := fun hmem => (hheads.taken c hmem).2 q hc hkind
  simp only [takenNodes, List.mem_append, not_or] at htaken
  exact ⟨hq.leaves_child hc htaken.1, htaken.2⟩

/-- They are found again. -/
theorem import_children_eq (hheads : p.SparesHeads t) (hq : p.Keeps t q)
    (hkind : t.kind q ∈ ["import_statement", "import_require_clause"])
    (hname : name ∉ placeholderKinds) :
    t'.namedChildrenOfKind (place q) name = (t.namedChildrenOfKind q name).map place := by
  have hkeeps : ∀ c ∈ t.namedChildrenOfKind q name, decide (p.Keeps t c) = true := fun c hc =>
    decide_eq_true (keeps_import_child hheads hq hkind (parent_of_named_child_of_kind hc))
  rw [h.named_children_of_kind_eq hq hname, List.filter_eq_self.mpr hkeeps]

/-- The name of the module that a kept import names is kept. -/
theorem module_specifier_eq (hheads : p.SparesHeads t) (hn : p.Keeps t n)
    (hkind : t.kind n = "import_statement") :
    (∀ s ∈ t.moduleSpecifier? n, p.Keeps t s) ∧
      t'.moduleSpecifier? (place n) = (t.moduleSpecifier? n).map place := by
  have hclause : ∀ clause ∈ t.namedChildrenOfKind n "import_require_clause",
      p.Keeps t clause ∧ t.kind clause = "import_require_clause" := fun clause hmem =>
    ⟨keeps_import_child hheads hn (by simp [hkind]) (parent_of_named_child_of_kind hmem),
      kind_of_named_child_of_kind hmem⟩
  constructor
  · intro s hs
    rcases Option.or_eq_some_iff.mp hs with hsource | ⟨-, hstring⟩
    · exact keeps_import_child hheads hn (by simp [hkind]) (parent_of_field hsource)
    · obtain ⟨clause, hmem, hs⟩ := List.mem_flatMap.mp (List.mem_of_mem_head? hstring)
      obtain ⟨hkeeps, hrequire⟩ := hclause clause hmem
      exact keeps_import_child hheads hkeeps (by simp [hrequire])
        (parent_of_named_child_of_kind hs)
  · have hstrings : ∀ clause ∈ t.namedChildrenOfKind n "import_require_clause",
        t'.namedChildrenOfKind (place clause) "string" =
          (t.namedChildrenOfKind clause "string").map place := fun clause hmem => by
      obtain ⟨hkeeps, hrequire⟩ := hclause clause hmem
      exact h.import_children_eq hheads hkeeps (by simp [hrequire]) (by simp [placeholderKinds])
    have hsource : t'.childByField? (place n) "source" =
        (t.childByField? n "source").map place := by
      cases hfield : t.childByField? n "source" with
      | none => exact h.child_by_field_none hn hfield
      | some c =>
          have hc := keeps_import_child hheads hn (by simp [hkind]) (parent_of_field hfield)
          exact h.child_by_field_place hn hfield hc.1
    rw [moduleSpecifier?, moduleSpecifier?, hsource,
      h.import_children_eq hheads hn (by simp [hkind]) (by simp [placeholderKinds]),
      List.flatMap_map, Option.map_or, ← List.head?_map, List.map_flatMap]
    congr 2
    exact List.flatMap_congr hstrings

/-- An import of the module was an import of it that is kept. -/
theorem exists_target_import (hheads : p.SparesHeads t) (hi : t'.IsTargetImport target i) :
    ∃ n, p.Keeps t n ∧ t.IsTargetImport target n := by
  obtain ⟨hrow, hkind, himports⟩ := hi
  obtain ⟨n, hn, rfl, heq⟩ := h.exists_kept (List.mem_range.mp hrow)
    (by simp [hkind, placeholderKinds])
  rw [hkind] at heq
  obtain ⟨hkeeps, hspecifier⟩ := h.module_specifier_eq hheads hn heq
  rw [ImportsModule, hspecifier] at himports
  obtain ⟨s', hs', hliteral⟩ := Option.bind_eq_some_iff.mp himports
  obtain ⟨s, hs, rfl⟩ := Option.map_eq_some_iff.mp hs'
  obtain ⟨r, hr, hplace, hvalue⟩ := h.exists_literal hliteral
  rw [h.place_inj hr.1 (hkeeps s hs).1 hplace] at hvalue
  exact ⟨n, hn, List.mem_range.mpr hn.1.1, heq, Option.bind_eq_some_iff.mpr ⟨s, hs, hvalue⟩⟩

/-- The first argument of a call that is a string literal was the first argument before. -/
theorem first_argument_literal (hheads : p.SparesHeads t) (hn : p.Keeps t n)
    (hkind : t.kind n = "call_expression")
    (hi : (t'.firstArgument? (place n)).bind t'.literalText? = some target) :
    (t.firstArgument? n).bind t.literalText? = some target := by
  obtain ⟨s', hs', hliteral⟩ := Option.bind_eq_some_iff.mp hi
  obtain ⟨a', ha', hhead⟩ := Option.bind_eq_some_iff.mp hs'
  obtain ⟨s, hs, rfl, hvalue⟩ := h.exists_literal hliteral
  obtain ⟨a, ha, haleft, rfl⟩ := h.exists_child_by_field hn ha' fun c hc =>
    hn.leaves_child (parent_of_field hc) fun hmem =>
      (hheads.cut c hmem n (parent_of_field hc)).1 (by simp [hkind])
  -- A replaced argument list would have no kept string in it.
  have hinside := mem_children.mp (List.mem_filter.mp (List.mem_of_mem_head? hhead)).1
  have hakeeps : p.Keeps t a := by
    refine ⟨haleft, fun hreplaced => ?_⟩
    exact h.not_mem_placeholder hs haleft hreplaced
      (mem_descendants_iff_mem_ancestors.mpr (parent_mem_ancestors hinside))
  rw [h.named_children_eq hakeeps, List.head?_map] at hhead
  obtain ⟨r, hr, hplace⟩ := Option.map_eq_some_iff.mp hhead
  have hleft : ∀ c ∈ t.namedChildren a, decide (p.Leaves t c) = true := by
    intro c hc
    have hparent := (mem_named_children.mp hc).1
    refine decide_eq_true (hakeeps.leaves_child hparent fun hmem => ?_)
    exact (hheads.cut c hmem a hparent).2 (field_of_child_by_field ha)
  rw [List.filter_eq_self.mpr hleft] at hr
  have hrleft := of_decide_eq_true (hleft r (List.mem_of_mem_head? hr))
  rw [h.place_inj hrleft hs.1 hplace] at hr
  exact Option.bind_eq_some_iff.mpr ⟨s, Option.bind_eq_some_iff.mpr ⟨a, ha, hr⟩, hvalue⟩

/-- A call that loads the module was a call of `require` with its name, and all of it is kept. -/
theorem exists_require_call (hheads : p.SparesHeads t) (hi : t'.IsTargetRequire target i) :
    ∃ n c, p.Keeps t n ∧ t.kind n = "call_expression" ∧ t.childByField? n "function" = some c ∧
      p.Keeps t c ∧ t.kind c = "identifier" ∧ t.text c = "require" ∧
      t'.resolution.bindingOf? (place c) = none ∧
      (t.firstArgument? n).bind t.literalText? = some target := by
  obtain ⟨hrow, hkind, ⟨c', hc', hidentifier, htext, hfree⟩, hargument⟩ := hi
  obtain ⟨n, hn, rfl, heq⟩ := h.exists_kept (List.mem_range.mp hrow)
    (by simp [hkind, placeholderKinds])
  rw [hkind] at heq
  obtain ⟨c, hc, hcleft, rfl⟩ := h.exists_child_by_field hn hc' fun c hc =>
    hn.leaves_child (parent_of_field hc) fun hmem =>
      (hheads.cut c hmem n (parent_of_field hc)).1 (by simp [heq])
  have hckeeps : p.Keeps t c := by
    refine ⟨hcleft, fun hreplaced => ?_⟩
    have hplaceholder := (h.kind_of_replaced hcleft hreplaced).1
    simp [hidentifier, placeholderKinds] at hplaceholder
  have hckind : t.kind c = "identifier" := by rw [← h.kind_eq c hckeeps, hidentifier]
  refine ⟨n, c, hn, heq, hc, hckeeps, hckind, ?_, Option.isNone_iff_eq_none.mp hfree,
    h.first_argument_literal hheads hn heq hargument⟩
  rw [← h.text_eq c hckeeps (.inl (by simp [hckind, referenceKinds])), htext]

/-- A callee that means no variable any more has lost every declaration of the variable that it
meant. -/
theorem declarations_taken (hheads : p.SparesHeads t) (hparent : t.parent? c = some n)
    (hkind : t.kind n = "call_expression") (hc : p.Keeps t c)
    (hidentifier : t.kind c = "identifier") {b : Binding}
    (hbinding : t.resolution.bindingOf? c = some b)
    (hfree : t'.resolution.bindingOf? (place c) = none) :
    t.Sees c b.scope ∧ ∀ d ∈ t.declarations, t.resolution.bindingOf? d.identifier = some b →
      ¬ p.Keeps t d.identifier := by
  have htext : t'.text (place c) = t.text c :=
    h.text_eq c hc (.inl (by simp [hidentifier, referenceKinds]))
  have hparent' := h.parent_place hc.1 hparent
  have hn := hc.of_within (within_parent hparent)
  rw [binding_of_callee hparent hkind hidentifier, lookup_eq_some_iff] at hbinding
  obtain ⟨hb, hname, hfirst⟩ := hbinding
  rw [binding_of_callee hparent' ((h.kind_eq n hn).trans hkind)
    ((h.kind_eq c hc).trans hidentifier), htext, lookup_eq_none_iff] at hfree
  refine ⟨hfirst.sees, fun d hd hdb hkeeps => ?_⟩
  obtain ⟨construct, hplaces⟩ := places_iff_declared.mpr ⟨d, hd, rfl, rfl⟩
  obtain ⟨b', -, hb', hscope, hname'⟩ := binding_of_declaration hd
  obtain rfl := Option.some.inj (hdb.symm.trans hb')
  -- The declaration that is kept still places the name where the callee sees it.
  refine hfree _ (h.sees_place hheads hc.1 hfirst.sees)
    ⟨place construct, place d.identifier, ?_, ?_⟩
  · exact hscope ▸ h.places_place hheads hplaces hkeeps
  · have hkinds : ∀ k ∈ bindingKinds, k ∈ "string" :: referenceKinds := by decide +kernel
    rw [h.text_eq _ hkeeps (.inl (hkinds _ hplaces.is_identifier)), ← hname', hname]

end Plan.CarriedOut

namespace Tree

section SecondRun

variable {t t' : Tree} {target : String} {place : Nat → Nat} {i n : Nat} {u : Usage}
  (hroot : t.kind 0 = "program")
  (hdeclarators : ∀ d ∈ t.nodes, t.kind d = "variable_declarator" →
    t.named d ∧ ∃ p ∈ t.parent? d, t.kind p ∈ declarationKinds)
  (hstatements : ∀ n, t.IsTargetRequire target n ∨ t.IsTaintedUse target n →
    ∃ a ∈ t.ancestors n, t.IsStatement a)
  (hparentheses : ∀ p ∈ t.nodes, t.kind p = "parenthesized_expression" → t.HoldsOneExpression p)

/-- What the plan records is not kept. -/
theorem not_keeps_of_records {m : Node} (hm : (Analysis.run t target).plan.Records m)
    (hn : t.Within n m) : ¬ (Analysis.run t target).plan.Keeps t n := fun hkeeps =>
  (Plan.keeps_iff.mp hkeeps).2 m hm.mem_taken hn

include hroot hdeclarators hstatements hparentheses

/-- What a usage starts from is not kept. -/
theorem IsUsageAt.not_keeps (h : t.IsUsageAt target n u) :
    ¬ (Analysis.run t target).plan.Keeps t n := by
  have hstatement : ∃ a ∈ t.ancestors n, t.IsStatement a := by
    cases h with
    | required site _ => exact hstatements n (.inl site)
    | used use _ => exact hstatements n (.inr use)
  obtain ⟨m, hm, hn⟩ := h.planned hroot hdeclarators hparentheses hstatement
  exact not_keeps_of_records hm hn

/-- No call of the tree that is left loads the module. Its callee would have been a variable before,
whose declarations are all taken out: either what is around the callee went with them, or the
variable is tainted and the callee a use of it. -/
theorem no_require_left (hcarried : (Analysis.run t target).plan.CarriedOut t t' place)
    (hheads : (Analysis.run t target).plan.SparesHeads t)
    (hinside : ∀ m ∈ (Analysis.run t target).plan.takenNodes t, ∀ d ∈ t.declarations,
      t.Within d.identifier m → t.Within d.scope m ∨ t.Receives target d.identifier) :
    ¬ t'.IsTargetRequire target i := by
  intro hrequired
  obtain ⟨n, c, hn, hkind, hfield, hc, hidentifier, htext, hfree, hargument⟩ :=
    hcarried.exists_require_call hheads hrequired
  have hparent := parent_of_field hfield
  cases hbinding : t.resolution.bindingOf? c with
  | none =>
      -- The call loaded the module before, so the plan covers it.
      have hrequire : t.IsTargetRequire target n :=
        ⟨List.mem_range.mpr hn.1.1, hkind,
          ⟨c, hfield, hidentifier, htext, by simp [hbinding]⟩, hargument⟩
      obtain ⟨u, hu⟩ :=
        exists_expression_usage (by simp [hkind]) (hstatements n (.inl hrequire))
      exact (IsUsageAt.required hrequire hu).not_keeps hroot hdeclarators hstatements
        hparentheses hn
  | some b =>
      obtain ⟨hsees, htaken⟩ :=
        hcarried.declarations_taken hheads hparent hkind hc hidentifier hbinding hfree
      -- The declaration that made the variable is inside a node that was taken out.
      obtain ⟨d, hd, rfl⟩ :=
        t.bindings_made.made_of_mem b (Resolution.mem_bindings_of_binding_of hbinding)
      have hdb := binding_of_identifier (Resolution.mem_bindings_of_binding_of hbinding)
      have hrow : d.identifier < t.size := by
        obtain ⟨construct, hplaces⟩ := places_iff_declared.mpr ⟨d, hd, rfl, rfl⟩
        exact hplaces.is_identifier.lt_size
      have hlost := htaken d hd hdb
      simp only [Plan.keeps_iff, not_and, not_forall, not_not] at hlost
      obtain ⟨m, hm, hwithin⟩ := hlost hrow
      rcases hinside m hm d hd hwithin with hscope | hreceives
      · have hcm := within_trans (within_of_mem_ancestors hsees.around) hscope
        exact (Plan.keeps_iff.mp hc).2 m hm hcm
      · obtain ⟨-, u, hu⟩ := exists_callee_usage hparent hkind hidentifier hbinding
          (hreceives.tainted hd rfl hdb) fun m hm => hstatements m (.inr hm)
        exact hu.not_keeps hroot hdeclarators hstatements hparentheses hc

end SecondRun

/-- The plan of an analysis can be carried out, and the analysis of what is then left finds no site,
taints nothing and plans nothing. This holds of a program whose declarators stand in declarations,
whose exported names stand in export statements, whose uses of the module stand in statements and
whose parentheses hold one expression, if the plan spares the heads of calls and imports and if all
that is declared inside a node that it takes out is placed in a scope inside that node or receives
the module. -/
theorem nothing_left_to_remove (t : Tree) (target : String) (hroot : t.kind 0 = "program")
    (hdeclarators : ∀ d ∈ t.nodes, t.kind d = "variable_declarator" →
      t.named d ∧ ∃ p ∈ t.parent? d, t.kind p ∈ declarationKinds)
    (hexports : ∀ s ∈ t.nodes, t.kind s = "export_specifier" →
      ∃ c ∈ t.parent? s, t.kind c = "export_clause" ∧ t.ParentIs c "export_statement")
    (hstatements : ∀ n, t.IsTargetRequire target n ∨ t.IsTaintedUse target n →
      ∃ a ∈ t.ancestors n, t.IsStatement a)
    (hparentheses : ∀ p ∈ t.nodes, t.kind p = "parenthesized_expression" →
      t.HoldsOneExpression p)
    (hheads : (Analysis.run t target).plan.SparesHeads t)
    (hinside : ∀ m ∈ (Analysis.run t target).plan.takenNodes t, ∀ d ∈ t.declarations,
      t.Within d.identifier m → t.Within d.scope m ∨ t.Receives target d.identifier) :
    (∃ t' place, (Analysis.run t target).plan.carryOut? t = some t' ∧
        (Analysis.run t target).plan.CarriedOut t t' place) ∧
      ∀ t' place, (Analysis.run t target).plan.CarriedOut t t' place →
        t'.sites t'.resolution target = [] ∧ (Analysis.run t' target).tainted = [] ∧
          (Analysis.run t' target).plan.IsEmpty := by
  constructor
  · have hleft : (Analysis.run t target).plan.Leaves t 0 := by
      refine leaves_root hroot fun s hs c hc => ?_
      obtain ⟨q, hq, -, hexport⟩ :=
        hexports s (List.mem_range.mpr (lt_size_of_kind (by simp [hs]))) hs
      rwa [Option.mem_unique hc hq]
    obtain ⟨t', hmade, hcarried⟩ := Plan.exists_carried_out hleft
    exact ⟨t', _, hmade, hcarried⟩
  · intro t' place hcarried
    have hsites : t'.sites t'.resolution target = [] := by
      refine List.eq_nil_iff_forall_not_mem.mpr fun site hsite => ?_
      cases site with
      | imported i =>
          obtain ⟨n, hn, himport⟩ :=
            hcarried.exists_target_import hheads (imported_mem_sites.mp hsite)
          exact not_keeps_of_records himport.records within_whole_statement hn
      | required i =>
          exact no_require_left hroot hdeclarators hstatements hparentheses hcarried hheads
            hinside (required_mem_sites.mp hsite)
    exact ⟨hsites, run_of_no_sites hsites⟩

/-- The program `import d from"debug";function require(){return d;}require("debug");`. -/
def ownRequire : Tree :=
  (Tree.ofRows? (Bytes.ofText
      "import d from\"debug\";function require()\x7breturn d;\x7drequire(\"debug\");")
    #[⟨0, true, "program", 0, 67, none⟩,
      ⟨1, true, "import_statement", 0, 21, none⟩,
      ⟨2, true, "import_clause", 7, 8, none⟩,
      ⟨3, true, "identifier", 7, 8, none⟩,
      ⟨2, true, "string", 13, 20, some "source"⟩,
      ⟨3, true, "string_fragment", 14, 19, none⟩,
      ⟨1, true, "function_declaration", 21, 50, none⟩,
      ⟨2, true, "identifier", 30, 37, some "name"⟩,
      ⟨2, true, "formal_parameters", 37, 39, some "parameters"⟩,
      ⟨2, true, "statement_block", 39, 50, some "body"⟩,
      ⟨3, true, "return_statement", 40, 49, none⟩,
      ⟨4, true, "identifier", 47, 48, none⟩,
      ⟨1, true, "expression_statement", 50, 67, none⟩,
      ⟨2, true, "call_expression", 50, 66, none⟩,
      ⟨3, true, "identifier", 50, 57, some "function"⟩,
      ⟨3, true, "arguments", 57, 66, some "arguments"⟩,
      ⟨4, true, "string", 58, 65, none⟩,
      ⟨5, true, "string_fragment", 59, 64, none⟩]).get (by decide +kernel)

/-- Carrying its plan out leaves the function `require` and its call, and nothing to remove. -/
theorem own_require_left :
    ∃ t', (Analysis.run ownRequire "debug").plan.carryOut? ownRequire = some t' ∧
      t'.sites t'.resolution "debug" = [] ∧ (Analysis.run t' "debug").tainted = [] ∧
      (Analysis.run t' "debug").plan.IsEmpty := by
  have hexports : ∀ n ∈ ownRequire.nodes, ownRequire.kind n ≠ "export_specifier" := by
    decide +kernel
  have hparentheses : ∀ n ∈ ownRequire.nodes, ownRequire.kind n ≠ "parenthesized_expression" := by
    decide +kernel
  have himport : ownRequire.IsTargetImport "debug" 1 :=
    ⟨by decide +kernel, by decide +kernel, by decide +kernel⟩
  have hinside : ∀ m ∈ (Analysis.run ownRequire "debug").plan.takenNodes ownRequire,
      ∀ d ∈ ownRequire.declarations, ownRequire.Within d.identifier m →
        ownRequire.Within d.scope m ∨ d.identifier ∈ ownRequire.importedNames 1 := by
    decide +kernel
  obtain ⟨⟨t', place, hmade, hcarried⟩, hleft⟩ :=
    nothing_left_to_remove ownRequire "debug" (by decide +kernel) (by decide +kernel)
      (fun s hs hkind => absurd hkind (hexports s hs))
      (in_statements (by decide +kernel) (by decide +kernel))
      (fun p hp hkind => absurd hkind (hparentheses p hp))
      ⟨by decide +kernel, by decide +kernel⟩ fun m hm d hd hwithin =>
        (hinside m hm d hd hwithin).imp_right fun hname => .imported himport hname
  exact ⟨t', hmade, hleft t' place hcarried⟩

/-- The program `import debug from"debug";const f=(x=require("debug"))=>{…};`, where the body of the
function is `var require=1;abstract class C{[debug()](){}}`. -/
def hiddenLoader : Tree :=
  (Tree.ofRows? (Bytes.ofText ("import debug from\"debug\";const f=(x=require(\"debug\"))=>" ++
      "\x7bvar require=1;abstract class C\x7b[debug()]()\x7b\x7d\x7d\x7d;"))
    #[⟨0, true, "program", 0, 103, none⟩,
      ⟨1, true, "import_statement", 0, 25, none⟩,
      ⟨2, true, "import_clause", 7, 12, none⟩,
      ⟨3, true, "identifier", 7, 12, none⟩,
      ⟨2, true, "string", 17, 24, some "source"⟩,
      ⟨3, true, "string_fragment", 18, 23, none⟩,
      ⟨1, true, "lexical_declaration", 25, 103, none⟩,
      ⟨2, false, "const", 25, 30, some "kind"⟩,
      ⟨2, true, "variable_declarator", 31, 102, none⟩,
      ⟨3, true, "identifier", 31, 32, some "name"⟩,
      ⟨3, true, "arrow_function", 33, 102, some "value"⟩,
      ⟨4, true, "formal_parameters", 33, 53, some "parameters"⟩,
      ⟨5, true, "required_parameter", 34, 52, none⟩,
      ⟨6, true, "identifier", 34, 35, some "pattern"⟩,
      ⟨6, true, "call_expression", 36, 52, some "value"⟩,
      ⟨7, true, "identifier", 36, 43, some "function"⟩,
      ⟨7, true, "arguments", 43, 52, some "arguments"⟩,
      ⟨8, true, "string", 44, 51, none⟩,
      ⟨9, true, "string_fragment", 45, 50, none⟩,
      ⟨4, true, "statement_block", 55, 102, some "body"⟩,
      ⟨5, true, "variable_declaration", 56, 70, none⟩,
      ⟨6, true, "variable_declarator", 60, 69, none⟩,
      ⟨7, true, "identifier", 60, 67, some "name"⟩,
      ⟨7, true, "number", 68, 69, some "value"⟩,
      ⟨5, true, "abstract_class_declaration", 70, 101, none⟩,
      ⟨6, true, "type_identifier", 85, 86, some "name"⟩,
      ⟨6, true, "class_body", 86, 101, some "body"⟩,
      ⟨7, true, "method_definition", 87, 100, none⟩,
      ⟨8, true, "computed_property_name", 87, 96, some "name"⟩,
      ⟨9, true, "call_expression", 88, 95, none⟩,
      ⟨10, true, "identifier", 88, 93, some "function"⟩,
      ⟨10, true, "arguments", 93, 95, some "arguments"⟩,
      ⟨8, true, "formal_parameters", 96, 98, some "parameters"⟩,
      ⟨8, true, "statement_block", 98, 100, some "body"⟩]).get (by decide +kernel)

/-- Its plan takes out the body of the arrow function, with the variable `require` that its
parameter could see: when the plan is carried out, the parameter loads the module. Of what is
declared in expressions, all is placed inside the arrow function, which is the only one. -/
theorem abstract_class_uncovers_require :
    hiddenLoader.kind 0 = "program" ∧
      (∀ d ∈ hiddenLoader.nodes, hiddenLoader.kind d = "variable_declarator" →
        hiddenLoader.named d ∧
          ∃ p ∈ hiddenLoader.parent? d, hiddenLoader.kind p ∈ declarationKinds) ∧
      (∀ n ∈ hiddenLoader.nodes,
        hiddenLoader.kind n ∉ ["export_specifier", "parenthesized_expression"]) ∧
      (∀ n, hiddenLoader.IsTargetRequire "debug" n ∨ hiddenLoader.IsTaintedUse "debug" n →
        ∃ a ∈ hiddenLoader.ancestors n, hiddenLoader.IsStatement a) ∧
      (∀ d ∈ hiddenLoader.declarations, ∀ n ∈ hiddenLoader.nodes,
        hiddenLoader.kind n ∈ ["arrow_function", "call_expression", "number"] →
          hiddenLoader.Within d.identifier n → hiddenLoader.Within d.scope n) ∧
      (Analysis.run hiddenLoader "debug").plan.SparesHeads hiddenLoader ∧
      ∃ t', (Analysis.run hiddenLoader "debug").plan.carryOut? hiddenLoader = some t' ∧
        (Analysis.run hiddenLoader "debug").plan.CarriedOut hiddenLoader t'
          ((Analysis.run hiddenLoader "debug").plan.placeOf hiddenLoader) ∧
        t'.sites t'.resolution "debug" ≠ [] ∧ ¬ (Analysis.run t' "debug").plan.IsEmpty := by
  have hloads : ∃ t' ∈ (Analysis.run hiddenLoader "debug").plan.carryOut? hiddenLoader,
      t'.sites t'.resolution "debug" ≠ [] ∧ ¬ (Analysis.run t' "debug").plan.IsEmpty := by
    decide +kernel
  obtain ⟨t', hmade, hleft⟩ := hloads
  exact ⟨by decide +kernel, by decide +kernel, by decide +kernel,
    in_statements (by decide +kernel) (by decide +kernel), by decide +kernel,
    ⟨by decide +kernel, by decide +kernel⟩, t', hmade, Plan.carried_out hmade, hleft⟩

end Tree

end Excise
