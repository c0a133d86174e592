import Excise.Proofs.Flow.Saturation
import Excise.Proofs.Plan.Entry

/-!
# The plan covers every use of the target module

`target_uses_planned`: in a program whose declarators stand in declarations, whose uses stand in
statements and whose parentheses hold one expression, every import of the target module, every call
that loads it and every use of a tainted variable is within a node of the plan. A finished analysis
has asked for an entry for each of them, the entry is about a node around the use
(`within_usage_entry`), and a plan never forgets a node. The usages also say which variables are
tainted (`mem_tainted_iff`).
-/

namespace Excise

namespace Tree

variable {t : Tree} {target : String} {n c p v : Node} {u u' : Usage} {entry : Entry} {b : Binding}

/-- The node is a use of a tainted variable. -/
def IsTaintedUse (t : Tree) (target : String) (n : Node) : Prop :=
  ∃ b ∈ (Analysis.run t target).tainted, n ∈ t.resolution.usesOf b

/-- The usage is that of a call that loads the target module, or of a use of a tainted variable. -/
inductive IsUsageAt (t : Tree) (target : String) (n : Node) (u : Usage) : Prop where
  | required (site : t.IsTargetRequire target n) (usage : t.expressionUsage? n = some u)
  | used (use : t.IsTaintedUse target n) (usage : t.referenceUsage? t.resolution n = some u)

/-- The kinds of node that a usage starts from. -/
def usedKinds : List String := "call_expression" :: referenceKinds

/-- A usage starts from a call or an identifier. -/
theorem IsUsageAt.kind_mem (h : t.IsUsageAt target n u) : t.kind n ∈ usedKinds := by
  cases h with
  | required site usage => simp [usedKinds, site.2.1]
  | used use usage =>
      obtain ⟨b, -, hn⟩ := use
      exact List.mem_cons_of_mem _ (Resolution.use_kind hn)

/-- No usage starts from parentheses or one of their tokens. -/
theorem kind_ne_of_used (h : t.kind n ∈ usedKinds) :
    t.kind n ≠ "parenthesized_expression" ∧ t.kind n ≠ "(" ∧ t.kind n ≠ ")" := by
  have hkinds : ∀ k ∈ usedKinds, k ≠ "parenthesized_expression" ∧ k ≠ "(" ∧ k ≠ ")" := by
    decide +kernel
  exact hkinds _ h

/-- A usage stands where its role says. -/
theorem IsUsageAt.fits (h : t.IsUsageAt target n u) : t.UsageFits n u := by
  have hkind := (kind_ne_of_used h.kind_mem).1
  cases h with
  | required site usage => exact expression_usage_fits hkind usage
  | used use usage =>
      obtain ⟨b, -, hn⟩ := use
      exact reference_usage_fits (Resolution.use_kind hn) usage

/-- A call that loads the target module is no use of a variable. -/
theorem IsTargetRequire.not_used (h : t.IsTargetRequire target n) : ¬ t.IsTaintedUse target n := by
  have hkinds : "call_expression" ∉ referenceKinds := by decide
  rintro ⟨c, -, hn⟩
  exact hkinds (h.2.1 ▸ Resolution.use_kind hn)

/-- A node has one usage. -/
theorem IsUsageAt.unique (h : t.IsUsageAt target n u) (h' : t.IsUsageAt target n u') : u = u' := by
  cases h with
  | required site usage =>
      cases h' with
      | required _ usage' => exact Option.some.inj (usage.symm.trans usage')
      | used use _ => exact absurd use site.not_used
  | used use usage =>
      cases h' with
      | required site _ => exact absurd use site.not_used
      | used _ usage' => exact Option.some.inj (usage.symm.trans usage')

/-- An import of the target module introduces the variable. -/
def IsImported (t : Tree) (target : String) (b : Binding) : Prop :=
  ∃ m, t.IsTargetImport target m ∧ ∃ i ∈ t.importedNames m, t.resolution.bindingOf? i = some b

/-- A variable that an import of the target module introduces is tainted. -/
theorem IsImported.tainted (h : t.IsImported target b) : b ∈ (Analysis.run t target).tainted := by
  obtain ⟨m, himport, i, hi, hb⟩ := h
  exact Analysis.mem_tainted_run.mpr (Analysis.closed_reached.imports m himport i hi b hb)

/-- A variable that a usage carries the value to is tainted. -/
theorem IsUsageAt.tainted (h : t.IsUsageAt target n u)
    (hb : b ∈ t.carriedBindings t.resolution u) : b ∈ (Analysis.run t target).tainted := by
  rw [Analysis.mem_tainted_run]
  cases h with
  | required site usage => exact Analysis.closed_reached.requires n site u usage b hb
  | used use usage =>
      obtain ⟨c, hc, hn⟩ := use
      exact Analysis.closed_reached.uses c (Analysis.mem_tainted_run.mp hc) n hn u usage b hb

/-- A variable is tainted exactly if an import introduces it or a usage carries the value to it. -/
theorem mem_tainted_iff :
    b ∈ (Analysis.run t target).tainted ↔
      t.IsImported target b ∨
        ∃ m u, t.IsUsageAt target m u ∧ b ∈ t.carriedBindings t.resolution u := by
  constructor
  · rw [Analysis.mem_tainted_run]
    intro h
    cases h with
    | @site site _ hsite hb =>
        cases site with
        | imported m =>
            obtain ⟨i, hi, hbi⟩ := List.mem_filterMap.mp hb
            exact .inl ⟨m, imported_mem_sites.mp hsite, i, hi, hbi⟩
        | required m =>
            obtain ⟨u, hu, hbu⟩ := mem_usage_effect.mp hb
            exact .inr ⟨m, u, .required (required_mem_sites.mp hsite) hu, hbu⟩
    | @use c m _ hc hm hb =>
        obtain ⟨u, hu, hbu⟩ := mem_usage_effect.mp hb
        exact .inr ⟨m, u, .used ⟨c, Analysis.mem_tainted_run.mpr hc, hm⟩ hu, hbu⟩
  · rintro (himported | ⟨m, u, husage, hb⟩)
    · exact himported.tainted
    · exact husage.tainted hb

/-- A finished analysis has planned what every usage asks for. -/
theorem IsUsageAt.records (h : t.IsUsageAt target n u) (hentry : t.usageEntry? u = some entry) :
    (Analysis.run t target).plan.Records entry.node := by
  rw [Analysis.records_run]
  cases h with
  | required site usage =>
      refine ⟨_, Analysis.mem_effects_run.mpr (.inl ⟨_, required_mem_sites.mpr site, rfl⟩), entry,
        ?_, rfl⟩
      simpa [siteEffect, usageEffect, usage] using hentry
  | used use usage =>
      obtain ⟨b, hb, hn⟩ := use
      refine ⟨_, Analysis.mem_effects_run.mpr (.inr ⟨b, hb, n, hn, rfl⟩), entry, ?_, rfl⟩
      simpa [referenceEffect, usageEffect, usage] using hentry

/-- A finished analysis has planned to delete every import statement of the target module. -/
theorem IsTargetImport.records (h : t.IsTargetImport target n) :
    (Analysis.run t target).plan.Records (t.wholeStatement n) := by
  rw [Analysis.records_run]
  exact ⟨_, Analysis.mem_effects_run.mpr (.inl ⟨_, imported_mem_sites.mpr h, rfl⟩),
    t.statementEntry n, rfl, rfl⟩

/-- The node is an opening or closing parenthesis. -/
def IsParenthesisToken (t : Tree) (c : Node) : Prop :=
  t.kind c ∈ ["(", ")"] ∧ ¬ t.named c ∧ t.children c = []

/-- The kind, the mark of a named node and the children decide it. -/
instance (t : Tree) (c : Node) : Decidable (t.IsParenthesisToken c) :=
  inferInstanceAs (Decidable (_ ∧ _ ∧ _))

/-- Besides its parentheses the node has exactly one child, which the grammar names. -/
def HoldsOneExpression (t : Tree) (p : Node) : Prop :=
  ∃ inner, t.named inner ∧ (t.children p).filter (fun c => ¬ t.IsParenthesisToken c) = [inner]

/-- In such parentheses everything but the tokens is within the first named child. -/
theorem HoldsOneExpression.within_head (h : t.HoldsOneExpression p) :
    ∃ inner rest, t.namedChildren p = inner :: rest ∧
      ∀ c ∈ t.children p, ¬ t.IsParenthesisToken c → c = inner := by
  obtain ⟨inner, hnamed, hfilter⟩ := h
  have honly : ∀ c ∈ t.children p, ¬ t.IsParenthesisToken c → c = inner := by
    intro c hc htoken
    have hmem : c ∈ (t.children p).filter fun c => ¬ t.IsParenthesisToken c :=
      List.mem_filter.mpr ⟨hc, decide_eq_true htoken⟩
    rw [hfilter] at hmem
    exact List.mem_singleton.mp hmem
  have hinner : inner ∈ (t.children p).filter fun c => ¬ t.IsParenthesisToken c := by
    rw [hfilter]
    exact List.mem_singleton_self inner
  have hmem : inner ∈ t.namedChildren p :=
    List.mem_filter.mpr ⟨(List.mem_filter.mp hinner).1, hnamed⟩
  cases hchildren : t.namedChildren p with
  | nil => simp [hchildren] at hmem
  | cons c rest =>
      have hc : c ∈ t.namedChildren p := by simp [hchildren]
      obtain ⟨hchild, hcnamed⟩ := List.mem_filter.mp hc
      obtain rfl := honly c hchild fun htoken => htoken.2.1 hcnamed
      exact ⟨c, rest, rfl, honly⟩

/-- Taking off parentheses that hold one expression does not lose what a usage starts from. -/
theorem within_without_parentheses {levels : Nat} (hkind : t.kind n ∈ usedKinds)
    (hparentheses : ∀ p ∈ t.nodes, t.kind p = "parenthesized_expression" → t.HoldsOneExpression p)
    (h : t.Within n v) : t.Within n (t.withoutParentheses levels v) := by
  obtain ⟨hne, hopen, hclose⟩ := kind_ne_of_used hkind
  induction levels generalizing v with
  | zero => exact h
  | succ levels ih =>
      by_cases hv : t.kind v = "parenthesized_expression"
      · have hbelow : v ∈ t.ancestors n := by
          refine (within_iff.mp h).resolve_left ?_
          rintro rfl
          exact hne hv
        have hlt := lt_size_of_within h (lt_size_of_mem_ancestors hbelow)
        obtain ⟨inner, rest, hnamed, honly⟩ :=
          (hparentheses v (List.mem_range.mpr hlt) hv).within_head
        obtain ⟨c, hc, hnc⟩ := exists_child_of_mem_ancestors hbelow
        have htoken : ¬ t.IsParenthesisToken c := by
          rintro ⟨htoken, -, hleaf⟩
          rcases within_iff.mp hnc with rfl | hcn
          · rcases List.mem_cons.mp htoken with heq | heq
            · exact hopen heq
            · exact hclose (List.mem_singleton.mp heq)
          · obtain ⟨d, hd, -⟩ := exists_child_of_mem_ancestors hcn
            simpa [hleaf] using mem_children.mpr hd
        obtain rfl := honly c (mem_children.mpr hc) htoken
        rw [withoutParentheses, if_pos hv, hnamed]
        exact ih hnc
      · rwa [without_parentheses_of_kind hv]

/-- Where parentheses hold one expression, the entry of a usage is about a node around it. -/
theorem IsUsageAt.within_usage_entry (h : t.IsUsageAt target n u)
    (hparentheses : ∀ p ∈ t.nodes, t.kind p = "parenthesized_expression" → t.HoldsOneExpression p)
    (hentry : t.usageEntry? u = some entry) : t.Within n entry.node := by
  rcases usage_entry_node h.fits hentry with hwithin | ⟨v, hstops, rfl⟩
  · exact hwithin
  · rw [placeholder_entry_node]
    exact within_without_parentheses h.kind_mem hparentheses (hstops.within h.fits)

/-- A usage in a statement is within a node of the plan. -/
theorem IsUsageAt.planned (h : t.IsUsageAt target n u) (hroot : t.kind 0 = "program")
    (hdeclarators : ∀ d ∈ t.nodes, t.kind d = "variable_declarator" →
      t.named d ∧ ∃ p ∈ t.parent? d, t.kind p ∈ declarationKinds)
    (hparentheses : ∀ p ∈ t.nodes, t.kind p = "parenthesized_expression" → t.HoldsOneExpression p)
    (hstatement : ∃ a ∈ t.ancestors n, t.IsStatement a) :
    ∃ m, (Analysis.run t target).plan.Records m ∧ t.Within n m := by
  have hrow : ∀ m, t.Within n m → m ∈ t.nodes := by
    intro m hm
    obtain ⟨a, ha, -⟩ := hstatement
    exact List.mem_range.mpr (lt_size_of_within hm (lt_size_of_mem_ancestors ha))
  have hspecifier : ∀ s, t.Within n s → t.kind s = "export_specifier" → (t.parent? s).isSome := by
    intro s hs hkind
    -- The root is a program, so a specifier is another node and has a parent.
    have hne : s ≠ 0 := by
      rintro rfl
      simp [hroot] at hkind
    obtain ⟨p, hp⟩ := exists_parent (List.mem_range.mp (hrow s hs)) hne
    simp [hp]
  obtain ⟨entry, hentry⟩ := usage_entry_exists h.fits
    (fun d hd hkind => (hdeclarators d (hrow d hd) hkind).2) hspecifier hstatement
  exact ⟨_, h.records hentry, h.within_usage_entry hparentheses hentry⟩

/-- Every import statement of the target module, and every call that loads it and every use of a
tainted variable that has a usage, is within a node of the plan. -/
theorem target_uses_planned (t : Tree) (target : String) (hroot : t.kind 0 = "program")
    (hdeclarators : ∀ d ∈ t.nodes, t.kind d = "variable_declarator" →
      t.named d ∧ ∃ p ∈ t.parent? d, t.kind p ∈ declarationKinds)
    (hstatements : ∀ n, t.IsTargetRequire target n ∨ t.IsTaintedUse target n →
      ∃ a ∈ t.ancestors n, t.IsStatement a)
    (hparentheses : ∀ p ∈ t.nodes, t.kind p = "parenthesized_expression" →
      t.HoldsOneExpression p) :
    ∀ n, (t.IsTargetImport target n ∨ ∃ u, t.IsUsageAt target n u) →
      ∃ m, (Analysis.run t target).plan.Records m ∧ t.Within n m := by
  rintro n (himport | ⟨u, hu⟩)
  · exact ⟨_, himport.records, within_whole_statement⟩
  · have hstatement : ∃ a ∈ t.ancestors n, t.IsStatement a := by
      cases hu with
      | required site _ => exact hstatements n (.inl site)
      | used use _ => exact hstatements n (.inr use)
    exact hu.planned hroot hdeclarators hparentheses hstatement

/-- The program `const d=require("debug");(d)();`. -/
def aliasedCall : Tree :=
  (Tree.ofRows? (Bytes.ofText "const d=require(\"debug\");(d)();")
    #[⟨0, true, "program", 0, 31, none⟩,
      ⟨1, true, "lexical_declaration", 0, 25, none⟩,
      ⟨2, false, "const", 0, 5, some "kind"⟩,
      ⟨2, true, "variable_declarator", 6, 24, none⟩,
      ⟨3, true, "identifier", 6, 7, some "name"⟩,
      ⟨3, false, "=", 7, 8, none⟩,
      ⟨3, true, "call_expression", 8, 24, some "value"⟩,
      ⟨4, true, "identifier", 8, 15, some "function"⟩,
      ⟨4, true, "arguments", 15, 24, some "arguments"⟩,
      ⟨5, true, "string", 16, 23, none⟩,
      ⟨6, true, "string_fragment", 17, 22, none⟩,
      ⟨1, true, "expression_statement", 25, 31, none⟩,
      ⟨2, true, "call_expression", 25, 30, none⟩,
      ⟨3, true, "parenthesized_expression", 25, 28, some "function"⟩,
      ⟨4, false, "(", 25, 26, none⟩,
      ⟨4, true, "identifier", 26, 27, none⟩,
      ⟨4, false, ")", 27, 28, none⟩,
      ⟨3, true, "arguments", 28, 30, some "arguments"⟩]).get (by decide +kernel)

/-- The callee of its call is a use of a tainted variable and within a node of the plan. -/
theorem aliased_call_planned :
    aliasedCall.IsTaintedUse "debug" 15 ∧
      ∃ m, (Analysis.run aliasedCall "debug").plan.Records m ∧ aliasedCall.Within 15 m := by
  have huse : ∃ b ∈ (Analysis.run aliasedCall "debug").tainted,
      15 ∈ aliasedCall.resolution.usesOf b := by
    decide +kernel
  have husage : (aliasedCall.referenceUsage? aliasedCall.resolution 15).isSome := by
    decide +kernel
  have hrequires : ∀ n ∈ aliasedCall.nodes, aliasedCall.kind n = "call_expression" →
      ∃ a ∈ aliasedCall.ancestors n, aliasedCall.IsStatement a := by
    decide +kernel
  have huses : ∀ b ∈ (Analysis.run aliasedCall "debug").tainted,
      ∀ n ∈ aliasedCall.resolution.usesOf b,
        ∃ a ∈ aliasedCall.ancestors n, aliasedCall.IsStatement a := by
    decide +kernel
  have honly : ∀ p ∈ aliasedCall.nodes,
      aliasedCall.kind p = "parenthesized_expression" → p = 13 := by
    decide +kernel
  obtain ⟨u, hu⟩ := Option.isSome_iff_exists.mp husage
  refine ⟨huse, target_uses_planned aliasedCall "debug" (by decide +kernel) (by decide +kernel)
    ?_ ?_ 15 (.inr ⟨u, .used huse hu⟩)⟩
  · rintro n (hrequire | ⟨b, hb, hn⟩)
    · exact hrequires n hrequire.1 hrequire.2.1
    · exact huses b hb n hn
  · intro p hp hkind
    obtain rfl := honly p hp hkind
    exact ⟨15, by decide +kernel, by decide +kernel⟩

end Tree

end Excise
