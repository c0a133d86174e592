import Excise.Flow.Analysis
import Excise.Proofs.Names.Bindings

/-!
# What one step of an analysis does

An analysis takes effects into account, those of the sites first and then those of the uses that
its passes visit. `absorb_eq` says everything that one of them changes. `Tracks` is the
invariant that the steps keep: the plan is the one of the effects so far, and the tainted variables
are exactly those that these effects name.
-/

namespace Excise.Analysis

variable {t : Tree} {r : Resolution} {target : String} {s : Analysis} {e : Effect} {n : Node}
  {b : Binding} {nodes : List Node}

/-- The report on a variable that becomes tainted. -/
def taintReport (t : Tree) (b : Binding) : AnalysisEvent :=
  .tainted b.name b.kind (t.bindingLine b)

/-- Tainting variables one by one adds those that are not tainted yet, each once. -/
theorem taint_all_eq (t : Tree) (s : Analysis) (bindings : List Binding) :
    ∃ added, bindings.foldl (taint t) s =
        { s with tainted := s.tainted ++ added, log := s.log ++ added.map (taintReport t) } ∧
      added.Nodup ∧ ∀ b, b ∈ added ↔ b ∈ bindings ∧ b ∉ s.tainted := by
  induction bindings generalizing s with
  | nil => exact ⟨[], by simp, List.nodup_nil, by simp⟩
  | cons c rest ih =>
      by_cases hc : c ∈ s.tainted
      · obtain ⟨added, heq, hnodup, hmem⟩ := ih s
        refine ⟨added, ?_, hnodup, fun b => ?_⟩
        · rw [List.foldl_cons, taint, if_pos hc, heq]
        · rw [hmem, List.mem_cons]
          constructor
          · rintro ⟨hb, hs⟩
            exact ⟨.inr hb, hs⟩
          · rintro ⟨rfl | hb, hs⟩
            · exact absurd hc hs
            · exact ⟨hb, hs⟩
      · obtain ⟨added, heq, hnodup, hmem⟩ :=
          ih { s with tainted := s.tainted ++ [c], log := s.log ++ [taintReport t c] }
        refine ⟨c :: added, ?_, ?_, fun b => ?_⟩
        · rw [List.foldl_cons, taint, if_neg hc]
          simpa [taintReport] using heq
        · rw [List.nodup_cons, hmem]
          exact ⟨fun h => h.2 (by simp), hnodup⟩
        · rw [List.mem_cons, hmem, List.mem_cons, List.mem_append, List.mem_singleton]
          constructor
          · rintro (rfl | ⟨hb, hs⟩)
            · exact ⟨.inl rfl, hc⟩
            · exact ⟨.inr hb, fun h => hs (.inl h)⟩
          · rintro ⟨hb, hs⟩
            by_cases hbc : b = c
            · exact .inl hbc
            · exact .inr ⟨hb.resolve_left hbc, fun h => h.elim hs hbc⟩

/-- Absorbing an effect records its entry and adds its variables that are not tainted yet. -/
theorem absorb_eq (t : Tree) (s : Analysis) (e : Effect) :
    ∃ added, absorb t s e =
        { s with
          tainted := s.tainted ++ added
          plan := s.plan.recordOptional e.entry
          log := s.log ++ added.map (taintReport t) } ∧
      added.Nodup ∧ ∀ b, b ∈ added ↔ b ∈ e.bindings ∧ b ∉ s.tainted :=
  taint_all_eq t { s with plan := s.plan.recordOptional e.entry } e.bindings

/-- Absorbing an effect visits nothing. -/
@[simp]
theorem absorb_visited : (absorb t s e).visited = s.visited := by
  obtain ⟨added, heq, -⟩ := absorb_eq t s e
  rw [heq]

/-- Absorbing an effect only adds to the tainted variables. -/
theorem tainted_prefix_absorb : s.tainted <+: (absorb t s e).tainted := by
  obtain ⟨added, heq, -⟩ := absorb_eq t s e
  rw [heq]
  exact List.prefix_append _ _

/-- Visiting a use for the first time absorbs its effect. -/
theorem visit_of_not_mem (t : Tree) (r : Resolution) (hn : n ∉ s.visited) :
    visit t r s n =
      absorb t { s with visited := s.visited ++ [n] } (t.referenceEffect r n) := by
  rw [visit, if_neg hn]

/-- Visiting a use again changes nothing. -/
theorem visit_of_mem (t : Tree) (r : Resolution) (hn : n ∈ s.visited) : visit t r s n = s := by
  rw [visit, if_pos hn]

/-- After a visit the use is visited, and no other that was not. -/
theorem mem_visited_visit {m : Node} : m ∈ (visit t r s n).visited ↔ m = n ∨ m ∈ s.visited := by
  by_cases hn : n ∈ s.visited
  · rw [visit_of_mem t r hn]
    constructor
    · exact .inr
    · rintro (rfl | hm)
      · exact hn
      · exact hm
  · rw [visit_of_not_mem t r hn, absorb_visited, List.mem_append, List.mem_singleton, or_comm]

/-- A visit only adds to the tainted variables. -/
theorem tainted_prefix_visit : s.tainted <+: (visit t r s n).tainted := by
  by_cases hn : n ∈ s.visited
  · simp [visit_of_mem t r hn]
  · rw [visit_of_not_mem t r hn]
    exact tainted_prefix_absorb (s := { s with visited := s.visited ++ [n] })

/-- After visits the uses are visited, and no others that were not. -/
theorem mem_visited_visits {m : Node} :
    m ∈ (nodes.foldl (visit t r) s).visited ↔ m ∈ nodes ∨ m ∈ s.visited := by
  induction nodes generalizing s with
  | nil => simp
  | cons n rest ih =>
      rw [List.foldl_cons, ih, mem_visited_visit, List.mem_cons, or_left_comm, ← or_assoc]

/-- Visits only add to the tainted variables. -/
theorem tainted_prefix_visits : s.tainted <+: (nodes.foldl (visit t r) s).tainted := by
  induction nodes generalizing s with
  | nil => exact List.prefix_refl _
  | cons n rest ih => exact tainted_prefix_visit.trans ih

/-- A pass visits the uses of the variables that are tainted when it begins. -/
theorem mem_frontier : n ∈ frontier t r s ↔ ∃ b ∈ s.tainted, n ∈ r.usesOf b := by
  simp [frontier]

/-- The plan of a state is the one of the effects, and its tainted variables are those that the
effects name. -/
structure Reflects (effects : List Effect) (s : Analysis) : Prop where
  plan_eq : s.plan = Plan.empty.recordAll (effects.filterMap Effect.entry)
  mem_tainted : ∀ b, b ∈ s.tainted ↔ ∃ e ∈ effects, b ∈ e.bindings
  nodup : s.tainted.Nodup

/-- Nothing is known before any effect. -/
theorem reflects_start : Reflects [] start :=
  ⟨rfl, by simp [start], List.nodup_nil⟩

/-- Absorbing one more effect. -/
theorem Reflects.absorb {effects : List Effect} (h : Reflects effects s) (t : Tree) (e : Effect) :
    Reflects (effects ++ [e]) (absorb t s e) := by
  obtain ⟨added, heq, hnodup, hadded⟩ := absorb_eq t s e
  rw [heq]
  refine ⟨?_, fun b => ?_, ?_⟩
  · cases he : e.entry <;> simp [Plan.recordAll, Plan.recordOptional, he, h.plan_eq]
  · rw [List.mem_append, hadded, h.mem_tainted]
    constructor
    · rintro (⟨other, hother, hb⟩ | ⟨hb, -⟩)
      · exact ⟨other, List.mem_append_left _ hother, hb⟩
      · exact ⟨e, by simp, hb⟩
    · rintro ⟨other, hother, hb⟩
      rcases List.mem_append.mp hother with hother | hother
      · exact .inl ⟨other, hother, hb⟩
      · obtain rfl := List.mem_singleton.mp hother
        -- A variable that an earlier effect names is not added again.
        by_cases hold : ∃ earlier ∈ effects, b ∈ earlier.bindings
        · exact .inl hold
        · exact .inr ⟨hb, hold⟩
  · rw [List.nodup_append]
    refine ⟨h.nodup, hnodup, fun a ha b hb hab => ?_⟩
    exact ((hadded b).mp hb).2 (hab ▸ ha)

/-- Absorbing more effects one by one. -/
theorem Reflects.absorb_all {effects : List Effect} (h : Reflects effects s) (t : Tree)
    (more : List Effect) : Reflects (effects ++ more) (more.foldl (Analysis.absorb t) s) := by
  induction more generalizing effects s with
  | nil => rwa [List.append_nil]
  | cons e rest ih =>
      have hrest := ih (h.absorb t e)
      rwa [List.append_assoc, List.singleton_append] at hrest

/-- The effects taken into account: those of the sites, and those of the uses visited. -/
def effects (t : Tree) (r : Resolution) (target : String) (visited : List Node) : List Effect :=
  (t.sites r target).map (t.siteEffect r) ++ visited.map (t.referenceEffect r)

/-- The value of the target module reaches a variable: a site introduces it, or a use of a variable
that it reaches passes it on. -/
inductive Reached (t : Tree) (r : Resolution) (target : String) : Binding → Prop where
  | site {site b} :
      site ∈ t.sites r target → b ∈ (t.siteEffect r site).bindings → Reached t r target b
  | use {c n b} :
      Reached t r target c → n ∈ r.usesOf c → b ∈ (t.referenceEffect r n).bindings →
      Reached t r target b

/-- A state reflects the sites and the uses that it visited, which are uses of tainted variables,
and the value reaches all tainted variables. -/
structure Tracks (t : Tree) (r : Resolution) (target : String) (s : Analysis) : Prop where
  reflects : Reflects (effects t r target s.visited) s
  visited_use : ∀ n ∈ s.visited, ∃ b ∈ s.tainted, n ∈ r.usesOf b
  reached : ∀ b ∈ s.tainted, Reached t r target b

/-- Absorbing the effects of the sites visits nothing. -/
theorem of_sites_visited : (ofSites t r target).visited = [] := by
  have hfold : ∀ (sites : List Site) (s : Analysis),
      (sites.foldl (fun s site => absorb t s (t.siteEffect r site)) s).visited = s.visited := by
    intro sites
    induction sites with
    | nil => exact fun s => rfl
    | cons site rest ih => exact fun s => (ih _).trans absorb_visited
  exact hfold (t.sites r target) start

/-- The state after the sites keeps track. -/
theorem tracks_of_sites : Tracks t r target (ofSites t r target) := by
  have hsites := reflects_start.absorb_all t ((t.sites r target).map (t.siteEffect r))
  rw [List.foldl_map, List.nil_append] at hsites
  refine ⟨?_, fun n hn => ?_, fun b hb => ?_⟩
  · rw [of_sites_visited, effects, List.map_nil, List.append_nil]
    exact ⟨hsites.plan_eq, hsites.mem_tainted, hsites.nodup⟩
  · rw [of_sites_visited] at hn
    exact absurd hn List.not_mem_nil
  · obtain ⟨e, he, hbe⟩ := (hsites.mem_tainted b).mp hb
    obtain ⟨site, hsite, rfl⟩ := List.mem_map.mp he
    exact .site hsite hbe

/-- Visiting a use of a tainted variable keeps track. -/
theorem Tracks.visit (h : Tracks t r target s) (hn : ∃ b ∈ s.tainted, n ∈ r.usesOf b) :
    Tracks t r target (visit t r s n) := by
  by_cases hmem : n ∈ s.visited
  · rwa [visit_of_mem t r hmem]
  · have hbegun : Reflects (effects t r target s.visited) { s with visited := s.visited ++ [n] } :=
      ⟨h.reflects.plan_eq, h.reflects.mem_tainted, h.reflects.nodup⟩
    have hafter := hbegun.absorb t (t.referenceEffect r n)
    rw [← visit_of_not_mem t r hmem] at hafter
    refine ⟨?_, fun m hm => ?_, fun b hb => ?_⟩
    · rw [visit_of_not_mem t r hmem, absorb_visited]
      simpa [effects, visit_of_not_mem t r hmem] using hafter
    · have huse : ∃ b ∈ s.tainted, m ∈ r.usesOf b := by
        rcases mem_visited_visit.mp hm with rfl | hm
        · exact hn
        · exact h.visited_use m hm
      obtain ⟨b, hb, hmb⟩ := huse
      exact ⟨b, tainted_prefix_visit.subset hb, hmb⟩
    · obtain ⟨e, he, hbe⟩ := (hafter.mem_tainted b).mp hb
      rcases List.mem_append.mp he with he | he
      · exact h.reached b ((h.reflects.mem_tainted b).mpr ⟨e, he, hbe⟩)
      · obtain rfl := List.mem_singleton.mp he
        obtain ⟨c, hc, hnc⟩ := hn
        exact .use (h.reached c hc) hnc hbe

/-- Visiting uses of tainted variables keeps track. -/
theorem Tracks.visits (h : Tracks t r target s)
    (hnodes : ∀ n ∈ nodes, ∃ b ∈ s.tainted, n ∈ r.usesOf b) :
    Tracks t r target (nodes.foldl (Analysis.visit t r) s) := by
  induction nodes generalizing s with
  | nil => exact h
  | cons n rest ih =>
      refine ih (h.visit (hnodes n List.mem_cons_self)) fun m hm => ?_
      obtain ⟨b, hb, hmb⟩ := hnodes m (List.mem_cons_of_mem n hm)
      exact ⟨b, tainted_prefix_visit.subset hb, hmb⟩

/-- A pass keeps track. -/
theorem Tracks.pass (h : Tracks t r target s) : Tracks t r target (pass t r s) := by
  have hbegun : Tracks t r target { s with passes := s.passes + 1 } :=
    ⟨⟨h.reflects.plan_eq, h.reflects.mem_tainted, h.reflects.nodup⟩, h.visited_use, h.reached⟩
  have hvisits := hbegun.visits fun n (hn : n ∈ frontier t r s) => mem_frontier.mp hn
  exact ⟨⟨hvisits.reflects.plan_eq, hvisits.reflects.mem_tainted, hvisits.reflects.nodup⟩,
    hvisits.visited_use, hvisits.reached⟩

/-- Any number of passes keeps track. -/
theorem Tracks.saturate (h : Tracks t r target s) (limit : Nat) :
    Tracks t r target (saturate t r limit s) := by
  induction limit generalizing s with
  | zero => exact h
  | succ limit ih =>
      rw [Analysis.saturate]
      split
      · exact h.pass
      · exact ih h.pass

end Excise.Analysis
