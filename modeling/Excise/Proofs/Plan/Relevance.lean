import Excise.Proofs.Plan.Coverage

/-!
# The plan names only nodes that concern the target module

Every entry of a plan comes from an import of the target module or from a use, and is about a node
around it, with one exception: where the climb to the statement ends at a value, the placeholder
goes to the first named part inside the parentheses of the value, which may be a comment before the
expression. `planned_nodes_concern_target` says that the plan names an unrelated node in this case
alone, and never if parentheses hold one expression.
-/

namespace Excise

namespace Tree

variable {t : Tree} {target : String} {n m v : Node} {u : Usage} {entry : Entry}

/-- An import of the target module, a call that loads it or a use of a tainted variable is within
the node. -/
def ConcernsTarget (t : Tree) (target : String) (n : Node) : Prop :=
  ∃ m, t.Within m n ∧
    (t.IsTargetImport target m ∨ t.IsTargetRequire target m ∨ t.IsTaintedUse target m)

/-- A node around a usage concerns the target module. -/
theorem IsUsageAt.concerns_target (h : t.IsUsageAt target n u) (hwithin : t.Within n m) :
    t.ConcernsTarget target m := by
  cases h with
  | required site _ => exact ⟨n, hwithin, .inr (.inl site)⟩
  | used use _ => exact ⟨n, hwithin, .inr (.inr use)⟩

/-- A node of a finished plan is that of an import statement or of the entry of a usage. -/
theorem recorded_cases (h : (Analysis.run t target).plan.Records m) :
    (∃ n, t.IsTargetImport target n ∧ t.wholeStatement n = m) ∨
      ∃ n u entry, t.IsUsageAt target n u ∧ t.usageEntry? u = some entry ∧ entry.node = m := by
  obtain ⟨e, he, entry, hentry, rfl⟩ := Analysis.records_run.mp h
  rcases Analysis.mem_effects_run.mp he with ⟨site, hsite, rfl⟩ | ⟨b, hb, n, hn, rfl⟩
  · cases site with
    | imported n =>
        obtain rfl := Option.some.inj hentry
        exact .inl ⟨n, imported_mem_sites.mp hsite, rfl⟩
    | required n =>
        obtain ⟨u, hu, hasked⟩ := Option.bind_eq_some_iff.mp hentry
        exact .inr ⟨n, u, entry, .required (required_mem_sites.mp hsite) hu, hasked, rfl⟩
  · obtain ⟨u, hu, hasked⟩ := Option.bind_eq_some_iff.mp hentry
    exact .inr ⟨n, u, entry, .used ⟨b, hb, hn⟩ hu, hasked, rfl⟩

/-- The plan names nodes that concern the target module if the places of values at which climbs end
do so inside their parentheses. -/
theorem recorded_concerns_target
    (hvalues : ∀ n u v, t.IsUsageAt target n u → t.StopsAtValue u v →
      t.ConcernsTarget target (t.withoutParentheses t.size v))
    (h : (Analysis.run t target).plan.Records m) : t.ConcernsTarget target m := by
  rcases recorded_cases h with ⟨n, himport, rfl⟩ | ⟨n, u, entry, husage, hentry, rfl⟩
  · exact ⟨n, within_whole_statement, .inl himport⟩
  · rcases usage_entry_node husage.fits hentry with hwithin | ⟨v, hstops, rfl⟩
    · exact husage.concerns_target hwithin
    · rw [placeholder_entry_node]
      exact hvalues n u v husage hstops

/-- All nodes of a plan concern the target module exactly if this holds of what stands inside the
parentheses of each value at which a climb ends. It holds where parentheses hold one expression. -/
theorem planned_nodes_concern_target (t : Tree) (target : String) :
    ((∀ m, (Analysis.run t target).plan.Records m → t.ConcernsTarget target m) ↔
        ∀ n u v, t.IsUsageAt target n u → t.StopsAtValue u v →
          t.ConcernsTarget target (t.withoutParentheses t.size v)) ∧
      ((∀ p ∈ t.nodes, t.kind p = "parenthesized_expression" → t.HoldsOneExpression p) →
        ∀ m, (Analysis.run t target).plan.Records m → t.ConcernsTarget target m) := by
  refine ⟨⟨?_, ?_⟩, ?_⟩
  · intro hplanned n u v husage hstops
    have hrecorded := husage.records hstops.usage_entry
    rw [placeholder_entry_node] at hrecorded
    exact hplanned _ hrecorded
  · intro hvalues m hm
    exact recorded_concerns_target hvalues hm
  · intro hparentheses m hm
    refine recorded_concerns_target (fun n u v husage hstops => ?_) hm
    have hwithin := hstops.within husage.fits
    exact husage.concerns_target (within_without_parentheses husage.kind_mem hparentheses hwithin)

/-- The program `()=>(/**/require("debug")())`. -/
def commentedBody : Tree :=
  (Tree.ofRows? (Bytes.ofText "()=>(/**/require(\"debug\")())")
    #[⟨0, true, "program", 0, 28, none⟩,
      ⟨1, true, "expression_statement", 0, 28, none⟩,
      ⟨2, true, "arrow_function", 0, 28, none⟩,
      ⟨3, true, "formal_parameters", 0, 2, some "parameters"⟩,
      ⟨3, false, "=>", 2, 4, none⟩,
      ⟨3, true, "parenthesized_expression", 4, 28, some "body"⟩,
      ⟨4, false, "(", 4, 5, none⟩,
      ⟨4, true, "comment", 5, 9, none⟩,
      ⟨4, true, "call_expression", 9, 27, none⟩,
      ⟨5, true, "call_expression", 9, 25, some "function"⟩,
      ⟨6, true, "identifier", 9, 16, some "function"⟩,
      ⟨6, true, "arguments", 16, 25, some "arguments"⟩,
      ⟨7, true, "string", 17, 24, none⟩,
      ⟨8, true, "string_fragment", 18, 23, none⟩,
      ⟨5, true, "arguments", 25, 27, some "arguments"⟩,
      ⟨4, false, ")", 27, 28, none⟩]).get (by decide +kernel)

/-- The plan for it names the comment, which holds nothing. -/
theorem comment_planned :
    commentedBody.kind 0 = "program" ∧
      (∀ n ∈ commentedBody.nodes, commentedBody.kind n ≠ "export_specifier") ∧
      (Analysis.run commentedBody "debug").plan.Records 7 ∧
      ¬ commentedBody.ConcernsTarget "debug" 7 := by
  refine ⟨by decide +kernel, by decide +kernel, ?_, ?_⟩
  · have hkeys : 7 ∈ (Analysis.run commentedBody "debug").plan.replacements.keys := by
      decide +kernel
    exact .inr (.inr hkeys)
  · have hleaf : commentedBody.descendants 7 = [] := by decide +kernel
    have hkind : commentedBody.kind 7 = "comment" := by decide +kernel
    rintro ⟨m, hwithin, hm⟩
    rcases hwithin with rfl | hinside
    · rcases hm with himport | hrequire | ⟨b, -, huse⟩
      · simp [Tree.IsTargetImport, hkind] at himport
      · simp [Tree.IsTargetRequire, hkind] at hrequire
      · have hreference := Resolution.use_kind huse
        rw [hkind] at hreference
        exact absurd hreference (by decide)
    · simp [hleaf] at hinside

end Tree

end Excise
