import Excise.Proofs.Flow.Order
import Mathlib.Algebra.Order.Ring.Nat
import Mathlib.Data.Nat.Find
import Mathlib.Order.Bounds.Basic

/-!
# How many passes an analysis takes

The passes go outwards from the seeded variables like waves: after so many passes, the tainted
variables are those that the value reaches in at most as many steps (`mem_tainted_after`), although
a use is visited only once and a variable found in the middle of a pass waits for the next. So the
first pass that taints nothing is the one after the greatest distance of a tainted variable
(`passes_eq_distance`).
-/

namespace Excise

namespace AnalysisEvent

/-- The report is about a variable that became tainted. -/
def IsTaint : AnalysisEvent → Prop
  | .tainted .. => True
  | _ => False

/-- The constructor decides it. -/
instance : DecidablePred IsTaint
  | .tainted .. => isTrue trivial
  | .seeded .. => isFalse id
  | .passed .. => isFalse id

/-- The number of a pass and how many variables it tainted, if the report is about one. -/
def growth? : AnalysisEvent → Option (Nat × Nat)
  | .passed pass grown => some (pass, grown)
  | _ => none

end AnalysisEvent

namespace Analysis

variable {t : Tree} {target : String} {s : Analysis} {n : Node} {b c : Binding} {d k limit : Nat}

/-! ## Steps and distances -/

/-- The value passes from one variable to another in one step: a use of the first carries it on. -/
def PassesTo (t : Tree) (b c : Binding) : Prop :=
  ∃ n ∈ t.resolution.usesOf b, ∃ u ∈ t.referenceUsage? t.resolution n,
    c ∈ t.carriedBindings t.resolution u

/-- The value reaches a variable in so many steps from one that is seeded. -/
inductive ReachedIn (t : Tree) (target : String) : Nat → Binding → Prop where
  | seeded {b : Binding} :
      b ∈ (ofSites t t.resolution target).tainted → ReachedIn t target 0 b
  | step {k : Nat} {b c : Binding} :
      ReachedIn t target k b → PassesTo t b c → ReachedIn t target (k + 1) c

/-- The least number of steps in which the value reaches a variable. -/
def IsDistance (t : Tree) (target : String) (b : Binding) (d : Nat) : Prop :=
  IsLeast {k | ReachedIn t target k b} d

/-- What the value reaches at all it reaches at some distance. -/
theorem ReachedIn.exists_distance (h : ReachedIn t target k b) :
    ∃ d ≤ k, IsDistance t target b d := by
  classical
  have hreached : ∃ k, ReachedIn t target k b := ⟨k, h⟩
  exact ⟨Nat.find hreached, Nat.find_min' hreached h, Nat.find_spec hreached,
    fun _ hk => Nat.find_min' hreached hk⟩

/-- One more step reaches what the uses of the variables reached before carry the value to. -/
theorem reached_in_succ :
    ReachedIn t target (k + 1) c ↔
      ∃ b n, ReachedIn t target k b ∧ n ∈ t.resolution.usesOf b ∧
        c ∈ (t.referenceEffect t.resolution n).bindings := by
  constructor
  · intro h
    cases h with
    | @step _ b _ hb hpasses =>
        obtain ⟨n, hn, hcarried⟩ := hpasses
        exact ⟨b, n, hb, hn, Tree.mem_usage_effect.mpr hcarried⟩
  · rintro ⟨b, n, hb, hn, hc⟩
    exact hb.step ⟨n, hn, Tree.mem_usage_effect.mp hc⟩

/-! ## The state after some passes -/

/-- The state after so many passes, whatever they taint. -/
def afterPasses (t : Tree) (target : String) : Nat → Analysis
  | 0 => ofSites t t.resolution target
  | k + 1 => pass t t.resolution (afterPasses t target k)

/-- How many variables the pass after so many passes taints. -/
def growth (t : Tree) (target : String) (k : Nat) : Nat :=
  (afterPasses t target (k + 1)).tainted.length - (afterPasses t target k).tainted.length

/-- The states after passes keep track. -/
theorem tracks_after (t : Tree) (target : String) (k : Nat) :
    Tracks t t.resolution target (afterPasses t target k) := by
  induction k with
  | zero => exact tracks_of_sites
  | succ k ih => exact ih.pass

/-- A pass only adds to the tainted variables. -/
theorem tainted_prefix_after (t : Tree) (target : String) (k : Nat) :
    (afterPasses t target k).tainted <+: (afterPasses t target (k + 1)).tainted :=
  tainted_prefix_pass

/-- The tainted variables of a pass are those before it and as many as it taints. -/
theorem length_tainted_succ (t : Tree) (target : String) (k : Nat) :
    (afterPasses t target (k + 1)).tainted.length =
      (afterPasses t target k).tainted.length + growth t target k := by
  have hle := (tainted_prefix_after t target k).length_le
  unfold growth
  omega

/-- A pass that taints nothing leaves the tainted variables as they are. -/
theorem tainted_eq_of_growth (h : growth t target k = 0) :
    (afterPasses t target (k + 1)).tainted = (afterPasses t target k).tainted := by
  have hlength := length_tainted_succ t target k
  rw [h, Nat.add_zero] at hlength
  exact ((tainted_prefix_after t target k).eq_of_length hlength.symm).symm

/-- Each pass counts itself. -/
theorem passes_after (t : Tree) (target : String) (k : Nat) :
    (afterPasses t target k).passes = k := by
  induction k with
  | zero =>
      have hfresh : (ofSitesIn t t.resolution target (t.sites t.resolution target)).passes = 0 :=
        of_sites_in_fresh.2
      exact hfresh
  | succ k ih =>
      have hpass : (afterPasses t target (k + 1)).passes = (afterPasses t target k).passes + 1 :=
        passes_pass_over
      rw [hpass, ih]

/-- After some passes the uses of the variables that were tainted when one of them began have been
visited. -/
theorem mem_visited_after :
    n ∈ (afterPasses t target k).visited ↔
      ∃ j < k, ∃ b ∈ (afterPasses t target j).tainted, n ∈ t.resolution.usesOf b := by
  induction k with
  | zero => simp [afterPasses, of_sites_visited]
  | succ k ih =>
      have hpass : n ∈ (afterPasses t target (k + 1)).visited ↔
          n ∈ frontier t t.resolution (afterPasses t target k) ∨
            n ∈ (afterPasses t target k).visited := mem_visited_pass_over
      rw [hpass, mem_frontier, ih]
      constructor
      · rintro (huse | ⟨j, hj, huse⟩)
        · exact ⟨k, Nat.lt_succ_self k, huse⟩
        · exact ⟨j, Nat.lt_succ_of_lt hj, huse⟩
      · rintro ⟨j, hj, huse⟩
        rcases Nat.lt_succ_iff_lt_or_eq.mp hj with hj | rfl
        · exact .inr ⟨j, hj, huse⟩
        · exact .inl huse

/-- What is tainted after some passes was seeded, or a visited use carries the value to it. -/
theorem mem_tainted_after_iff_visited :
    b ∈ (afterPasses t target k).tainted ↔
      b ∈ (ofSites t t.resolution target).tainted ∨
        ∃ n ∈ (afterPasses t target k).visited,
          b ∈ (t.referenceEffect t.resolution n).bindings := by
  have hsites : Tracks t t.resolution target (ofSites t t.resolution target) := tracks_of_sites
  rw [(tracks_after t target k).reflects.mem_tainted, hsites.reflects.mem_tainted]
  simp only [effects, of_sites_visited, List.map_nil, List.append_nil, List.mem_append,
    List.mem_map, or_and_right, exists_or, exists_exists_and_eq_and]

/-- After some passes the tainted variables are those that the value reaches in at most as many
steps. -/
theorem mem_tainted_after :
    b ∈ (afterPasses t target k).tainted ↔ ∃ j ≤ k, ReachedIn t target j b := by
  induction k using Nat.strongRecOn generalizing b with
  | ind k ih =>
      rw [mem_tainted_after_iff_visited]
      simp only [mem_visited_after]
      constructor
      · rintro (hseeded | ⟨n, ⟨i, hi, c, hc, hn⟩, hb⟩)
        · exact ⟨0, Nat.zero_le k, .seeded hseeded⟩
        · obtain ⟨j, hj, hreached⟩ := (ih i hi).mp hc
          exact ⟨j + 1, by omega, reached_in_succ.mpr ⟨c, n, hreached, hn, hb⟩⟩
      · rintro ⟨j, hj, hreached⟩
        cases j with
        | zero =>
            cases hreached with
            | seeded hseeded => exact .inl hseeded
        | succ j =>
            obtain ⟨c, n, hc, hn, hb⟩ := reached_in_succ.mp hreached
            exact .inr ⟨n, ⟨j, hj, c, (ih j hj).mpr ⟨j, Nat.le_refl j, hc⟩, hn⟩, hb⟩

/-- The same by distances: a pass taints the variables at the distance of its number. -/
theorem mem_tainted_after_iff_distance :
    b ∈ (afterPasses t target k).tainted ↔ ∃ d ≤ k, IsDistance t target b d := by
  rw [mem_tainted_after]
  constructor
  · rintro ⟨j, hj, hreached⟩
    obtain ⟨d, hd, hdistance⟩ := hreached.exists_distance
    exact ⟨d, Nat.le_trans hd hj, hdistance⟩
  · rintro ⟨d, hd, hdistance⟩
    exact ⟨d, hd, hdistance.1⟩

/-! ## The last pass -/

/-- While every pass taints something, the tainted variables grow with the passes. -/
theorem length_tainted_of_growing (h : ∀ j < k, growth t target j ≠ 0) :
    (ofSites t t.resolution target).tainted.length + k ≤
      (afterPasses t target k).tainted.length := by
  induction k with
  | zero => exact Nat.le_refl _
  | succ k ih =>
      have hbefore := ih fun j hj => h j (Nat.lt_succ_of_lt hj)
      have hlast := h k (Nat.lt_succ_self k)
      rw [length_tainted_succ]
      omega

/-- Some pass taints nothing, and before the first such pass no more were run than there are
variables that are not seeded. -/
theorem exists_last_pass (t : Tree) (target : String) :
    ∃ d, (∀ k < d, growth t target k ≠ 0) ∧ growth t target d = 0 ∧
      (ofSites t t.resolution target).tainted.length + d ≤ t.resolution.bindings.length := by
  have hbound : ∀ k, (∀ j < k, growth t target j ≠ 0) →
      (ofSites t t.resolution target).tainted.length + k ≤ t.resolution.bindings.length :=
    fun k hgrowing =>
      Nat.le_trans (length_tainted_of_growing hgrowing) (tracks_after t target k).length_tainted_le
  have hends : ∃ d, growth t target d = 0 := by
    by_contra hnever
    have htoo := hbound (t.resolution.bindings.length + 1) fun j _ hj => hnever ⟨j, hj⟩
    omega
  exact ⟨Nat.find hends, fun k => Nat.find_min hends, Nat.find_spec hends,
    hbound _ fun k => Nat.find_min hends⟩

/-- Passes run until one taints nothing, if the limit is beyond that one. -/
theorem saturate_after (hgrowing : ∀ j < d, growth t target j ≠ 0) (hlast : growth t target d = 0)
    (hk : k ≤ d) (hlimit : d < k + limit) :
    saturate t t.resolution limit (afterPasses t target k) = afterPasses t target (d + 1) := by
  induction limit generalizing k with
  | zero => omega
  | succ limit ih =>
      have hlength := length_tainted_succ t target k
      have hpass : pass t t.resolution (afterPasses t target k) = afterPasses t target (k + 1) :=
        rfl
      rw [saturate, hpass]
      rcases Nat.lt_or_eq_of_le hk with hlt | rfl
      · have hgrows := hgrowing k hlt
        rw [if_neg (by omega)]
        exact ih hlt (by omega)
      · rw [if_pos (by omega)]

/-- A pass that taints something taints a variable at the distance of its number. -/
theorem exists_at_distance (hgrows : growth t target k ≠ 0) :
    ∃ b, IsDistance t target b (k + 1) := by
  have hlength := length_tainted_succ t target k
  have hnodup := (tracks_after t target (k + 1)).reflects.nodup
  -- Otherwise all that is tainted after the pass was tainted before it.
  by_contra hnone
  have hsubset : (afterPasses t target (k + 1)).tainted ⊆ (afterPasses t target k).tainted := by
    intro b hb
    obtain ⟨d, hd, hdistance⟩ := mem_tainted_after_iff_distance.mp hb
    have hne : d ≠ k + 1 := fun heq => hnone ⟨b, heq ▸ hdistance⟩
    exact mem_tainted_after_iff_distance.mpr ⟨d, by omega, hdistance⟩
  have hle := hnodup.length_le_of_subset hsubset
  omega

/-! ## What a run remembers -/

/-- What a state remembers of the run: the uses visited, each once, a report on each tainted
variable, in order, and the growths that its passes reported. -/
structure Remembers (t : Tree) (growths : List (Nat × Nat)) (s : Analysis) : Prop where
  visited_nodup : s.visited.Nodup
  taints_eq : s.log.filter AnalysisEvent.IsTaint = s.tainted.map (taintReport t)
  growths_eq : s.log.filterMap AnalysisEvent.growth? = growths

variable {growths : List (Nat × Nat)}

/-- Absorbing an effect reports on the variables that it taints. -/
theorem Remembers.absorb (h : Remembers t growths s) (e : Effect) :
    Remembers t growths (absorb t s e) := by
  obtain ⟨added, heq, -, -⟩ := absorb_eq t s e
  rw [heq]
  have htaints : (added.map (taintReport t)).filter AnalysisEvent.IsTaint =
      added.map (taintReport t) := by
    refine List.filter_eq_self.mpr fun event hevent => ?_
    obtain ⟨b, -, rfl⟩ := List.mem_map.mp hevent
    rfl
  have hgrowths : (added.map (taintReport t)).filterMap AnalysisEvent.growth? = [] := by
    refine List.filterMap_eq_nil_iff.mpr fun event hevent => ?_
    obtain ⟨b, -, rfl⟩ := List.mem_map.mp hevent
    rfl
  refine ⟨h.visited_nodup, ?_, ?_⟩
  · rw [List.filter_append, h.taints_eq, htaints, List.map_append]
  · rw [List.filterMap_append, h.growths_eq, hgrowths, List.append_nil]

/-- So do effects one after the other. -/
theorem Remembers.absorb_all (h : Remembers t growths s) (effects : List Effect) :
    Remembers t growths (effects.foldl (Analysis.absorb t) s) := by
  induction effects generalizing s with
  | nil => exact h
  | cons e rest ih => exact ih (h.absorb e)

/-- A use is visited once. -/
theorem Remembers.visit (h : Remembers t growths s) (n : Node) :
    Remembers t growths (visit t t.resolution s n) := by
  by_cases hn : n ∈ s.visited
  · rwa [visit_of_mem t t.resolution hn]
  · rw [visit_of_not_mem t t.resolution hn]
    refine Remembers.absorb (s := { s with visited := s.visited ++ [n] })
      ⟨?_, h.taints_eq, h.growths_eq⟩ _
    exact h.visited_nodup.append (List.nodup_singleton n) (by simpa using hn)

/-- So is each of several. -/
theorem Remembers.visits (h : Remembers t growths s) (nodes : List Node) :
    Remembers t growths (nodes.foldl (Analysis.visit t t.resolution) s) := by
  induction nodes generalizing s with
  | nil => exact h
  | cons n rest ih => exact ih (h.visit n)

/-- A report on anything else says at most what a pass has grown by. -/
theorem Remembers.report (h : Remembers t growths s) {event : AnalysisEvent}
    (hevent : ¬ event.IsTaint) :
    Remembers t (growths ++ event.growth?.toList) (s.report event) := by
  refine ⟨h.visited_nodup, ?_, ?_⟩
  · refine (List.filter_append ..).trans ?_
    rw [h.taints_eq, List.filter_cons_of_neg (by simpa using hevent), List.filter_nil,
      List.append_nil]
    rfl
  · refine (List.filterMap_append ..).trans ?_
    rw [h.growths_eq]
    cases hgrowth : event.growth? <;> simp [hgrowth]

/-- A pass reports its growth. -/
theorem Remembers.pass (h : Remembers t growths s) :
    Remembers t (growths ++ [(s.passes + 1,
        (Analysis.pass t t.resolution s).tainted.length - s.tainted.length)])
      (Analysis.pass t t.resolution s) := by
  have hvisits := Remembers.visits (s := { s with passes := s.passes + 1 })
    ⟨h.visited_nodup, h.taints_eq, h.growths_eq⟩ (frontier t t.resolution s)
  have hreport : Remembers t (growths ++ [((Analysis.pass t t.resolution s).passes,
        (Analysis.pass t t.resolution s).tainted.length - s.tainted.length)])
      (Analysis.pass t t.resolution s) :=
    hvisits.report (show ¬ (AnalysisEvent.passed _ _).IsTaint from id)
  have hpasses : (Analysis.pass t t.resolution s).passes = s.passes + 1 := passes_pass_over
  rwa [hpasses] at hreport

/-- After some passes the growths of these have been reported. -/
theorem remembers_after (t : Tree) (target : String) (k : Nat) :
    Remembers t ((List.range k).map fun j => (j + 1, growth t target j))
      (afterPasses t target k) := by
  induction k with
  | zero =>
      have hstart : Remembers t [] start := ⟨List.nodup_nil, rfl, rfl⟩
      have hsites := hstart.absorb_all ((t.sites t.resolution target).map
        (t.siteEffect t.resolution))
      rw [List.foldl_map] at hsites
      refine hsites.report (show ¬ (AnalysisEvent.seeded _ _ _).IsTaint from id)
  | succ k ih =>
      have hpass := ih.pass
      rw [passes_after] at hpass
      rw [List.range_succ, List.map_append]
      exact hpass

/-- The growths add up to the variables that are tainted and not seeded. -/
theorem sum_growth (t : Tree) (target : String) (k : Nat) :
    (ofSites t t.resolution target).tainted.length + ((List.range k).map (growth t target)).sum =
      (afterPasses t target k).tainted.length := by
  induction k with
  | zero => rfl
  | succ k ih =>
      rw [List.range_succ, List.map_append, List.sum_append, length_tainted_succ, ← ih]
      simp [Nat.add_assoc]

/-- The run with the greatest distance `d`: it takes passes until one taints nothing, which is the
one after the passes that taint the variables at the distances up to `d`. -/
structure RunsTo (t : Tree) (target : String) (d : Nat) : Prop where
  run_eq : run t target = afterPasses t target (d + 1)
  passes_eq : (run t target).passes = 1 + d
  grows : ∀ k < d, 0 < growth t target k
  last : growth t target d = 0
  layers : ∀ k b, b ∈ (afterPasses t target k).tainted ↔ ∃ j ≤ k, IsDistance t target b j
  visited_nodup : (run t target).visited.Nodup
  tainted_nodup : (run t target).tainted.Nodup
  taints_eq : (run t target).log.filter AnalysisEvent.IsTaint =
    (run t target).tainted.map (taintReport t)
  growths_eq : (run t target).log.filterMap AnalysisEvent.growth? =
    (List.range (d + 1)).map fun k => (k + 1, growth t target k)
  sum_growths : (ofSites t t.resolution target).tainted.length +
    ((List.range (d + 1)).map (growth t target)).sum = (run t target).tainted.length
  bounded : (run t target).passes + (ofSites t t.resolution target).tainted.length ≤
    1 + t.resolution.bindings.length

/-- The passes of an analysis end, and there is one more of them than the greatest distance of a
tainted variable from the seeded ones, which is zero where nothing is tainted. -/
theorem passes_eq_distance (t : Tree) (target : String) :
    ∃ d, (IsGreatest {k | ∃ b ∈ (run t target).tainted, IsDistance t target b k} d ∨
        (run t target).tainted = [] ∧ d = 0) ∧
      RunsTo t target d := by
  obtain ⟨d, hgrowing, hlast, hbound⟩ := exists_last_pass t target
  have hrun : run t target = afterPasses t target (d + 1) :=
    saturate_after hgrowing hlast (Nat.zero_le d) (by omega)
  have hpasses : (run t target).passes = 1 + d := by
    rw [hrun, passes_after, Nat.add_comm]
  have hremembers := remembers_after t target (d + 1)
  have htainted : (run t target).tainted = (afterPasses t target d).tainted := by
    rw [hrun, tainted_eq_of_growth hlast]
  refine ⟨d, ?_, ⟨hrun, hpasses, fun k hk => Nat.pos_of_ne_zero (hgrowing k hk), hlast,
    fun k b => mem_tainted_after_iff_distance, ?_, ?_, ?_, ?_, ?_, ?_⟩⟩
  · -- All tainted variables are within the distance, and the last pass that grew found one at it.
    have hupper : ∀ b ∈ (run t target).tainted, ∀ k, IsDistance t target b k → k ≤ d := by
      intro b hb k hk
      obtain ⟨j, hj, hdistance⟩ := mem_tainted_after_iff_distance.mp (htainted ▸ hb)
      rwa [hk.unique hdistance]
    cases d with
    | zero =>
        cases hempty : (run t target).tainted with
        | nil => exact .inr ⟨rfl, rfl⟩
        | cons b rest =>
            have hb : b ∈ (run t target).tainted := by simp [hempty]
            obtain ⟨j, hj, hdistance⟩ := mem_tainted_after_iff_distance.mp (htainted ▸ hb)
            obtain rfl := Nat.le_zero.mp hj
            rw [← hempty]
            exact .inl ⟨⟨b, hb, hdistance⟩, fun k ⟨c, hc, hk⟩ => hupper c hc k hk⟩
    | succ d =>
        obtain ⟨b, hdistance⟩ := exists_at_distance (hgrowing d (Nat.lt_succ_self d))
        have hb : b ∈ (run t target).tainted :=
          htainted ▸ mem_tainted_after_iff_distance.mpr ⟨d + 1, Nat.le_refl _, hdistance⟩
        exact .inl ⟨⟨b, hb, hdistance⟩, fun k ⟨c, hc, hk⟩ => hupper c hc k hk⟩
  · exact hrun ▸ hremembers.visited_nodup
  · exact hrun ▸ (tracks_after t target (d + 1)).reflects.nodup
  · exact hrun ▸ hremembers.taints_eq
  · exact hrun ▸ hremembers.growths_eq
  · exact hrun ▸ sum_growth t target (d + 1)
  · omega

end Analysis

end Excise
