import Excise.Proofs.Flow.Steps
import Excise.Proofs.Plan.Record
import Mathlib.Order.Bounds.Defs

/-!
# The end of an analysis

Every pass but the last taints a variable of the tree, so an analysis always ends with a pass that
taints nothing, and by then every use of a tainted variable has been visited (`settled_run`). The
tainted variables are the least set that holds what the sites introduce and is closed under the uses
of its variables (`tainted_is_least`), and the plan names exactly the nodes that the sites and the
uses of tainted variables ask for (`records_run`).
-/

namespace Excise

namespace Tree

variable {t : Tree} {target : String} {n : Node} {b : Binding}

/-- The variables that a use carries the value to are variables of the tree. -/
theorem carried_mem_bindings {u : Usage} (h : b ∈ t.carriedBindings t.resolution u) :
    b ∈ t.resolution.bindings := by
  rw [carriedBindings] at h
  split at h
  · exact Resolution.mem_bindings_of_bindings_in h
  · obtain ⟨i, -, hi⟩ := List.mem_filterMap.mp h
    exact Resolution.mem_bindings_of_binding_of hi
  · exact absurd h List.not_mem_nil

/-- The variables of an effect are those that its use carries the value to. -/
theorem mem_usage_effect {r : Resolution} {u : Option Usage} :
    b ∈ (t.usageEffect r u).bindings ↔ ∃ v, u = some v ∧ b ∈ t.carriedBindings r v := by
  cases u <;> simp [usageEffect]

/-- The variables that a use taints are variables of the tree. -/
theorem usage_effect_mem_bindings {u : Option Usage}
    (h : b ∈ (t.usageEffect t.resolution u).bindings) : b ∈ t.resolution.bindings := by
  obtain ⟨v, -, hb⟩ := mem_usage_effect.mp h
  exact carried_mem_bindings hb

/-- The variables that a site taints are variables of the tree. -/
theorem site_effect_mem_bindings {site : Site}
    (h : b ∈ (t.siteEffect t.resolution site).bindings) : b ∈ t.resolution.bindings := by
  cases site with
  | imported n =>
      obtain ⟨i, -, hi⟩ := List.mem_filterMap.mp h
      exact Resolution.mem_bindings_of_binding_of hi
  | required n => exact usage_effect_mem_bindings h

/-- The node is an import statement of the target module. -/
def IsTargetImport (t : Tree) (target : String) (n : Node) : Prop :=
  n ∈ t.nodes ∧ t.kind n = "import_statement" ∧ t.ImportsModule target n

/-- The node is a call that loads the target module. -/
def IsTargetRequire (t : Tree) (target : String) (n : Node) : Prop :=
  n ∈ t.nodes ∧ t.kind n = "call_expression" ∧ t.RequiresModule t.resolution target n

/-- The import statements of the target module are sites. -/
theorem imported_mem_sites :
    .imported n ∈ t.sites t.resolution target ↔ t.IsTargetImport target n := by
  simp only [sites, List.mem_filterMap, site?]
  constructor
  · rintro ⟨m, hm, h⟩
    split at h
    case isTrue himport =>
      obtain rfl : m = n := by simpa using h
      exact ⟨hm, himport⟩
    case isFalse => split at h <;> simp at h
  · rintro ⟨hn, himport⟩
    exact ⟨n, hn, if_pos himport⟩

/-- The calls that load the target module are sites. -/
theorem required_mem_sites :
    .required n ∈ t.sites t.resolution target ↔ t.IsTargetRequire target n := by
  simp only [sites, List.mem_filterMap, site?]
  constructor
  · rintro ⟨m, hm, h⟩
    split at h
    case isTrue => simp at h
    case isFalse =>
      split at h
      case isTrue hcall =>
        obtain rfl : m = n := by simpa using h
        exact ⟨hm, hcall⟩
      case isFalse => simp at h
  · rintro ⟨hn, hcall⟩
    refine ⟨n, hn, ?_⟩
    rw [if_neg (fun himport => by simp [hcall.1] at himport), if_pos hcall]

end Tree

namespace Analysis

variable {t : Tree} {r : Resolution} {target : String} {s : Analysis} {e : Effect}
  {n : Node} {b : Binding}

/-- Every use of a tainted variable has been visited. -/
def Settled (r : Resolution) (s : Analysis) : Prop :=
  ∀ b ∈ s.tainted, ∀ n ∈ r.usesOf b, n ∈ s.visited

/-- A pass only adds to the tainted variables. -/
theorem tainted_prefix_pass : s.tainted <+: (pass t r s).tainted :=
  tainted_prefix_visits (s := { s with passes := s.passes + 1 })

/-- A pass that taints nothing new settles the analysis. -/
theorem settled_of_pass (h : (pass t r s).tainted.length = s.tainted.length) :
    Settled r (pass t r s) := by
  intro b hb n hn
  -- The tainted variables are those from before the pass, and it visited all their uses.
  have htainted : s.tainted = (pass t r s).tainted := tainted_prefix_pass.eq_of_length h.symm
  have hfrontier : n ∈ frontier t r s := mem_frontier.mpr ⟨b, htainted ▸ hb, hn⟩
  exact mem_visited_visits.mpr (.inl hfrontier)

/-- All tainted variables are variables of the tree. -/
theorem Tracks.tainted_subset (h : Tracks t t.resolution target s) :
    s.tainted ⊆ t.resolution.bindings := by
  intro b hb
  obtain ⟨e, he, hbe⟩ := (h.reflects.mem_tainted b).mp hb
  rcases List.mem_append.mp he with he | he
  · obtain ⟨site, -, rfl⟩ := List.mem_map.mp he
    exact Tree.site_effect_mem_bindings hbe
  · obtain ⟨n, -, rfl⟩ := List.mem_map.mp he
    exact Tree.usage_effect_mem_bindings hbe

/-- There are no more tainted variables than variables. -/
theorem Tracks.length_tainted_le (h : Tracks t t.resolution target s) :
    s.tainted.length ≤ t.resolution.bindings.length :=
  h.reflects.nodup.length_le_of_subset h.tainted_subset

/-- A limit beyond the variables that are not tainted yet lets the passes come to their end. -/
theorem settled_saturate {limit : Nat} (h : Tracks t t.resolution target s)
    (hlimit : t.resolution.bindings.length < limit + s.tainted.length) :
    Settled t.resolution (saturate t t.resolution limit s) := by
  induction limit generalizing s with
  | zero =>
      have := h.length_tainted_le
      omega
  | succ limit ih =>
      rw [saturate]
      split
      case isTrue hlast => exact settled_of_pass hlast
      case isFalse hgrown =>
        have hle := (tainted_prefix_pass (t := t) (r := t.resolution) (s := s)).length_le
        exact ih h.pass (by omega)

/-- A finished analysis keeps track. -/
theorem tracks_run : Tracks t t.resolution target (run t target) :=
  tracks_of_sites.saturate _

/-- A finished analysis has visited every use of a tainted variable. -/
theorem settled_run : Settled t.resolution (run t target) :=
  settled_saturate tracks_of_sites (by omega)

/-- The tainted variables of a finished analysis are those that the value reaches. -/
theorem mem_tainted_run :
    b ∈ (run t target).tainted ↔ Reached t t.resolution target b := by
  constructor
  · exact tracks_run.reached b
  · intro h
    induction h with
    | @site site b hsite hb =>
        refine (tracks_run.reflects.mem_tainted b).mpr ⟨_, List.mem_append_left _ ?_, hb⟩
        exact List.mem_map_of_mem hsite
    | @use c n b hc hn hb ih =>
        refine (tracks_run.reflects.mem_tainted b).mpr ⟨_, List.mem_append_right _ ?_, hb⟩
        exact List.mem_map_of_mem (settled_run c ih n hn)

/-- The effects of a finished analysis: those of the sites, and those of the uses of tainted
variables. -/
theorem mem_effects_run :
    e ∈ effects t t.resolution target (run t target).visited ↔
      (∃ site ∈ t.sites t.resolution target, t.siteEffect t.resolution site = e) ∨
        ∃ b ∈ (run t target).tainted, ∃ n ∈ t.resolution.usesOf b,
          t.referenceEffect t.resolution n = e := by
  rw [effects, List.mem_append, List.mem_map, List.mem_map]
  constructor
  · rintro (hsite | ⟨n, hn, rfl⟩)
    · exact .inl hsite
    · obtain ⟨b, hb, hnb⟩ := tracks_run.visited_use n hn
      exact .inr ⟨b, hb, n, hnb, rfl⟩
  · rintro (hsite | ⟨b, hb, n, hn, rfl⟩)
    · exact .inl hsite
    · exact .inr ⟨n, settled_run b hb n hn, rfl⟩

/-- The plan of a finished analysis names the nodes of the entries of its effects. -/
theorem records_run :
    (run t target).plan.Records n ↔
      ∃ e ∈ effects t t.resolution target (run t target).visited, ∃ entry ∈ e.entry,
        entry.node = n := by
  rw [tracks_run.reflects.plan_eq, Plan.records_record_all]
  constructor
  · rintro (⟨entry, hentry, rfl⟩ | hempty)
    · obtain ⟨e, he, hsome⟩ := List.mem_filterMap.mp hentry
      exact ⟨e, he, entry, hsome, rfl⟩
    · exact absurd hempty Plan.not_records_empty
  · rintro ⟨e, he, entry, hentry, rfl⟩
    exact .inl ⟨entry, List.mem_filterMap.mpr ⟨e, he, hentry⟩, rfl⟩

end Analysis

/-- A set of variables is closed under the flow of a module: it holds what import statements of the
module introduce, what the uses of calls that load it carry on, and what the uses of its own
variables carry on. -/
structure Tree.ClosedUnderFlow (t : Tree) (target : String) (held : Set Binding) : Prop where
  imports : ∀ n, t.IsTargetImport target n →
    ∀ i ∈ t.importedNames n, ∀ b ∈ t.resolution.bindingOf? i, b ∈ held
  requires : ∀ n, t.IsTargetRequire target n →
    ∀ u ∈ t.expressionUsage? n, ∀ b ∈ t.carriedBindings t.resolution u, b ∈ held
  uses : ∀ b ∈ held, ∀ n ∈ t.resolution.usesOf b,
    ∀ u ∈ t.referenceUsage? t.resolution n, ∀ c ∈ t.carriedBindings t.resolution u, c ∈ held

namespace Analysis

variable {t : Tree} {target : String} {b : Binding}

/-- A closed set holds every variable that the value of the module reaches. -/
theorem Reached.mem_of_closed {held : Set Binding} (h : Reached t t.resolution target b)
    (hclosed : t.ClosedUnderFlow target held) : b ∈ held := by
  induction h with
  | @site site b hsite hb =>
      cases site with
      | imported n =>
          obtain ⟨i, hi, hbi⟩ := List.mem_filterMap.mp hb
          exact hclosed.imports n (Tree.imported_mem_sites.mp hsite) i hi b hbi
      | required n =>
          obtain ⟨u, hu, hbu⟩ := Tree.mem_usage_effect.mp hb
          exact hclosed.requires n (Tree.required_mem_sites.mp hsite) u hu b hbu
  | @use c n b hc hn hb ih =>
      obtain ⟨u, hu, hbu⟩ := Tree.mem_usage_effect.mp hb
      exact hclosed.uses c ih n hn u hu b hbu

/-- The variables that the value of the module reaches are a closed set. -/
theorem closed_reached : t.ClosedUnderFlow target {b | Reached t t.resolution target b} := by
  refine ⟨?_, ?_, ?_⟩
  · intro n hn i hi b hb
    exact .site (Tree.imported_mem_sites.mpr hn) (List.mem_filterMap.mpr ⟨i, hi, hb⟩)
  · intro n hn u hu b hb
    exact .site (Tree.required_mem_sites.mpr hn) (Tree.mem_usage_effect.mpr ⟨u, hu, hb⟩)
  · intro b hb n hn u hu c hc
    exact .use hb hn (Tree.mem_usage_effect.mpr ⟨u, hu, hc⟩)

/-- The tainted variables of a finished analysis are the least set that is closed under the flow of
the module, and no number of passes taints anything else. -/
theorem tainted_is_least (t : Tree) (target : String) :
    IsLeast {held | t.ClosedUnderFlow target held} {b | b ∈ (run t target).tainted} ∧
      ∀ limit, (saturate t t.resolution limit (ofSites t t.resolution target)).tainted ⊆
        (run t target).tainted := by
  have hset : {b | b ∈ (run t target).tainted} = {b | Reached t t.resolution target b} :=
    Set.ext fun b => mem_tainted_run
  refine ⟨⟨?_, ?_⟩, fun limit b hb => ?_⟩
  · rw [hset]
    exact closed_reached
  · intro held hclosed b hb
    exact (mem_tainted_run.mp hb).mem_of_closed hclosed
  · exact mem_tainted_run.mpr ((tracks_of_sites.saturate limit).reached b hb)

end Analysis

end Excise
