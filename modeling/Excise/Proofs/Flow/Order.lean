import Excise.Proofs.Flow.Saturation
import Excise.Proofs.Plan.Strongest
import Mathlib.Data.List.Nodup

/-!
# Runs in any order

A run may take the sites into account in any order, and each pass may visit the tainted variables
and the uses of each in any order: `Analysis.Underway` are the states that such a run can be in
before its last pass, and `Analysis.Finished` those after it. What a state holds depends on the uses
visited so far only, so two runs move in step (`Mirrors.visited_eq`), end with the same pass
(`Mirrors.finished_eq`) and plan the same (`order_irrelevant`). Runs over two trees move in step in
the same way where the effects in one tree mirror those in the other (`Mirrors`).
-/

namespace Excise.Analysis

variable {t t' : Tree} {r : Resolution} {target : String} {s s' f f' : Analysis}
  {nodes nodes' : List Node} {sites sites' : List Site} {n : Node} {b c : Binding}
  {rename : Binding → Binding}

/-- The state after sites in some order. -/
def ofSitesIn (t : Tree) (r : Resolution) (target : String) (sites : List Site) : Analysis :=
  let s := sites.foldl (fun s site => absorb t s (t.siteEffect r site)) start
  s.report (.seeded sites.length target s.tainted.length)

/-- The state after a pass over uses in some order. -/
def passOver (t : Tree) (r : Resolution) (s : Analysis) (nodes : List Node) : Analysis :=
  let s' := nodes.foldl (visit t r) { s with passes := s.passes + 1 }
  s'.report (.passed s'.passes (s'.tainted.length - s.tainted.length))

/-- An order in which a pass can visit uses: the tainted variables in some order, and the uses of
each in some order. -/
def IsVisitOrder (r : Resolution) (s : Analysis) (nodes : List Node) : Prop :=
  ∃ (bindings : List Binding) (uses : Binding → List Node),
    bindings.Perm s.tainted ∧ (∀ b, (uses b).Perm (r.usesOf b)) ∧ bindings.flatMap uses = nodes

/-- The states of a run before its last pass: after the sites, or after passes each of which tainted
something new. -/
inductive Underway (t : Tree) (target : String) : Analysis → Prop where
  | sites {sites : List Site} :
      sites.Perm (t.sites t.resolution target) →
      Underway t target (ofSitesIn t t.resolution target sites)
  | pass {s : Analysis} {nodes : List Node} :
      Underway t target s → IsVisitOrder t.resolution s nodes →
      (passOver t t.resolution s nodes).tainted.length ≠ s.tainted.length →
      Underway t target (passOver t t.resolution s nodes)

/-- The states of a run after its last pass, the first that taints nothing new. -/
def Finished (t : Tree) (target : String) (f : Analysis) : Prop :=
  ∃ s nodes, Underway t target s ∧ IsVisitOrder t.resolution s nodes ∧
    passOver t t.resolution s nodes = f ∧ f.tainted.length = s.tainted.length

/-- Whatever the order, a pass visits the uses of the tainted variables. -/
theorem IsVisitOrder.mem_iff (h : IsVisitOrder r s nodes) :
    n ∈ nodes ↔ ∃ b ∈ s.tainted, n ∈ r.usesOf b := by
  obtain ⟨bindings, uses, hbindings, huses, rfl⟩ := h
  simp only [List.mem_flatMap, hbindings.mem_iff, (huses _).mem_iff]

/-- The order by place of declaration is one of the orders. -/
theorem is_visit_order_frontier : IsVisitOrder r s (frontier t r s) :=
  ⟨_, r.usesOf, List.mergeSort_perm _ _, fun _ => .refl _, rfl⟩

/-- After a pass its uses are visited too. -/
theorem mem_visited_pass_over :
    n ∈ (passOver t r s nodes).visited ↔ n ∈ nodes ∨ n ∈ s.visited :=
  mem_visited_visits (s := { s with passes := s.passes + 1 })

/-- A pass counts itself. -/
theorem passes_pass_over : (passOver t r s nodes).passes = s.passes + 1 := by
  have hvisits : ∀ (nodes : List Node) (s : Analysis),
      (nodes.foldl (visit t r) s).passes = s.passes := by
    intro nodes
    induction nodes with
    | nil => exact fun s => rfl
    | cons n rest ih =>
        intro s
        have hvisit : (visit t r s n).passes = s.passes := by
          by_cases hn : n ∈ s.visited
          · rw [visit_of_mem t r hn]
          · obtain ⟨added, heq, -⟩ := absorb_eq t { s with visited := s.visited ++ [n] }
              (t.referenceEffect r n)
            rw [visit_of_not_mem t r hn, heq]
        exact (ih _).trans hvisit
  exact hvisits nodes { s with passes := s.passes + 1 }

/-- A pass only adds to the tainted variables. -/
theorem tainted_prefix_pass_over : s.tainted <+: (passOver t r s nodes).tainted :=
  tainted_prefix_visits (s := { s with passes := s.passes + 1 })

/-- The effects of sites in some order and of visited uses. -/
def effectsIn (t : Tree) (r : Resolution) (sites : List Site) (visited : List Node) : List Effect :=
  sites.map (t.siteEffect r) ++ visited.map (t.referenceEffect r)

/-- The state reflects the sites in some order and the uses that it visited. -/
def Accounts (t : Tree) (target : String) (s : Analysis) : Prop :=
  ∃ sites, sites.Perm (t.sites t.resolution target) ∧
    Reflects (effectsIn t t.resolution sites s.visited) s

/-- A report changes nothing that a state reflects. -/
theorem Reflects.report {effects : List Effect} (h : Reflects effects s) (event : AnalysisEvent) :
    Reflects effects (s.report event) :=
  ⟨h.plan_eq, h.mem_tainted, h.nodup⟩

/-- Visits keep a state reflecting the uses that it visited. -/
theorem Reflects.visits {t : Tree} {r : Resolution} {nodes : List Node}
    (h : Reflects (effectsIn t r sites s.visited) s) :
    Reflects (effectsIn t r sites (nodes.foldl (visit t r) s).visited)
      (nodes.foldl (visit t r) s) := by
  induction nodes generalizing s with
  | nil => exact h
  | cons n rest ih =>
      refine ih ?_
      by_cases hn : n ∈ s.visited
      · rwa [visit_of_mem t r hn]
      · have hbegun : Reflects (effectsIn t r sites s.visited)
            { s with visited := s.visited ++ [n] } :=
          ⟨h.plan_eq, h.mem_tainted, h.nodup⟩
        have hafter := hbegun.absorb t (t.referenceEffect r n)
        rw [visit_of_not_mem t r hn, absorb_visited]
        simpa [effectsIn] using hafter

/-- A pass keeps accounts. -/
theorem Accounts.pass_over (h : Accounts t target s) (nodes : List Node) :
    Accounts t target (passOver t t.resolution s nodes) := by
  obtain ⟨sites, hsites, hreflects⟩ := h
  have hbegun : Reflects (effectsIn t t.resolution sites s.visited)
      { s with passes := s.passes + 1 } :=
    ⟨hreflects.plan_eq, hreflects.mem_tainted, hreflects.nodup⟩
  have hvisited : Reflects (effectsIn t t.resolution sites
        (nodes.foldl (visit t t.resolution) { s with passes := s.passes + 1 }).visited)
      (nodes.foldl (visit t t.resolution) { s with passes := s.passes + 1 }) := hbegun.visits
  exact ⟨sites, hsites, hvisited.report _⟩

/-- The sites are taken into account before any pass and any visit. -/
theorem of_sites_in_fresh :
    (ofSitesIn t r target sites).visited = [] ∧ (ofSitesIn t r target sites).passes = 0 := by
  have hfold : ∀ (sites : List Site) (s : Analysis),
      let s' := sites.foldl (fun s site => absorb t s (t.siteEffect r site)) s
      s'.visited = s.visited ∧ s'.passes = s.passes := by
    intro sites
    induction sites with
    | nil => exact fun s => ⟨rfl, rfl⟩
    | cons site rest ih =>
        intro s
        obtain ⟨added, heq, -⟩ := absorb_eq t s (t.siteEffect r site)
        obtain ⟨hvisited, hpasses⟩ := ih (absorb t s (t.siteEffect r site))
        rw [heq] at hvisited hpasses
        rw [List.foldl_cons, heq]
        exact ⟨hvisited, hpasses⟩
  exact hfold sites start

/-- Every state of a run accounts for what it visited. -/
theorem Underway.accounts (h : Underway t target s) : Accounts t target s := by
  induction h with
  | @sites sites hsites =>
      have habsorbed := reflects_start.absorb_all t (sites.map (t.siteEffect t.resolution))
      rw [List.foldl_map, List.nil_append] at habsorbed
      refine ⟨sites, hsites, ?_⟩
      rw [of_sites_in_fresh.1, effectsIn, List.map_nil, List.append_nil]
      exact habsorbed.report _
  | @pass s nodes _ _ _ ih => exact ih.pass_over nodes

/-- Every state after the last pass accounts for what it visited. -/
theorem Finished.accounts (h : Finished t target f) : Accounts t target f := by
  obtain ⟨s, nodes, hs, -, rfl, -⟩ := h
  exact hs.accounts.pass_over nodes

/-- What a state holds is what its sites and visited uses taint. -/
theorem Accounts.mem_tainted (h : Accounts t target s) :
    b ∈ s.tainted ↔
      (∃ site ∈ t.sites t.resolution target, b ∈ (t.siteEffect t.resolution site).bindings) ∨
        ∃ n ∈ s.visited, b ∈ (t.referenceEffect t.resolution n).bindings := by
  obtain ⟨sites, hsites, hreflects⟩ := h
  rw [hreflects.mem_tainted]
  simp only [effectsIn, List.mem_append, List.mem_map, or_and_right, exists_or,
    exists_exists_and_eq_and, hsites.mem_iff]

/-- No variable is tainted twice. -/
theorem Accounts.nodup (h : Accounts t target s) : s.tainted.Nodup := by
  obtain ⟨sites, hsites, hreflects⟩ := h
  exact hreflects.nodup

/-- All tainted variables are variables of the tree. -/
theorem Accounts.tainted_subset (h : Accounts t target s) :
    s.tainted ⊆ t.resolution.bindings := by
  intro b hb
  rcases h.mem_tainted.mp hb with ⟨site, -, hb⟩ | ⟨n, -, hb⟩
  · exact Tree.site_effect_mem_bindings hb
  · exact Tree.usage_effect_mem_bindings hb

/-- The entries of sites and uses put the texts of their nodes. -/
theorem effects_in_writes {visited : List Node} :
    ∀ e ∈ (effectsIn t r sites visited).filterMap Effect.entry, e.Writes t.placeholderText := by
  intro entry hentry
  obtain ⟨e, he, hsome⟩ := List.mem_filterMap.mp hentry
  rcases List.mem_append.mp he with he | he
  · obtain ⟨site, -, rfl⟩ := List.mem_map.mp he
    exact Tree.site_entry_writes hsome
  · obtain ⟨n, -, rfl⟩ := List.mem_map.mp he
    exact Tree.reference_entry_writes hsome

/-- An entry is asked for by a site, or by a use among the visited. -/
def Asks (t : Tree) (target : String) (visited : List Node) (entry : Entry) : Prop :=
  (∃ site ∈ t.sites t.resolution target, (t.siteEffect t.resolution site).entry = some entry) ∨
    ∃ n ∈ visited, (t.referenceEffect t.resolution n).entry = some entry

/-- The plan of a state holds the strongest entries that its sites and visited uses ask for. -/
theorem Accounts.strongest (h : Accounts t target s) :
    ∃ entries, s.plan.Strongest entries ∧ ∀ e, e ∈ entries ↔ Asks t target s.visited e := by
  obtain ⟨sites, hsites, hreflects⟩ := h
  refine ⟨_, hreflects.plan_eq ▸ Plan.strongest_record_all effects_in_writes, fun e => ?_⟩
  simp only [effectsIn, List.mem_filterMap, List.mem_append, List.mem_map, or_and_right,
    exists_or, exists_exists_and_eq_and, hsites.mem_iff, Asks]

/-- A run that has got further has come past every smaller number of passes, with a pass that
tainted something new. -/
theorem Underway.exists_at {k : Nat} (h : Underway t target s) (hk : k < s.passes) :
    ∃ u nodes, Underway t target u ∧ u.passes = k ∧ IsVisitOrder t.resolution u nodes ∧
      (passOver t t.resolution u nodes).tainted.length ≠ u.tainted.length := by
  induction h with
  | sites _ => simp [of_sites_in_fresh.2] at hk
  | @pass s nodes hs hnodes hgrows ih =>
      rw [passes_pass_over] at hk
      rcases Nat.lt_succ_iff_lt_or_eq.mp hk with hlt | rfl
      · exact ih hlt
      · exact ⟨s, nodes, hs, rfl, hnodes, hgrows⟩

/-- The effects in one tree are those in the other, with the variables renamed. -/
structure Mirrors (t t' : Tree) (target : String) (rename : Binding → Binding) : Prop where
  injective : ∀ b ∈ t.resolution.bindings, ∀ c ∈ t.resolution.bindings,
    rename b = rename c → b = c
  sites : t'.sites t'.resolution target = t.sites t.resolution target
  site : ∀ site ∈ t.sites t.resolution target, (t'.siteEffect t'.resolution site).bindings =
    (t.siteEffect t.resolution site).bindings.map rename
  uses : ∀ b ∈ t.resolution.bindings, t'.resolution.usesOf (rename b) = t.resolution.usesOf b
  use : ∀ n, (t'.referenceEffect t'.resolution n).bindings =
    (t.referenceEffect t.resolution n).bindings.map rename

/-- Every tree mirrors itself. -/
theorem mirrors_refl (t : Tree) (target : String) : Mirrors t t target id where
  injective _ _ _ _ h := h
  sites := rfl
  site _ _ := (List.map_id _).symm
  uses _ _ := rfl
  use _ := (List.map_id _).symm

namespace Mirrors

variable (m : Mirrors t t' target rename)

include m

/-- States that visited the same uses taint the same variables. -/
theorem mem_tainted (h : Accounts t target s) (h' : Accounts t' target s')
    (hvisited : ∀ n, n ∈ s'.visited ↔ n ∈ s.visited) :
    c ∈ s'.tainted ↔ ∃ b ∈ s.tainted, rename b = c := by
  rw [h'.mem_tainted]
  constructor
  · rintro (⟨site, hsite, hc⟩ | ⟨n, hn, hc⟩)
    · rw [m.sites] at hsite
      rw [m.site site hsite] at hc
      obtain ⟨b, hb, rfl⟩ := List.mem_map.mp hc
      exact ⟨b, h.mem_tainted.mpr (.inl ⟨site, hsite, hb⟩), rfl⟩
    · rw [m.use] at hc
      obtain ⟨b, hb, rfl⟩ := List.mem_map.mp hc
      exact ⟨b, h.mem_tainted.mpr (.inr ⟨n, (hvisited n).mp hn, hb⟩), rfl⟩
  · rintro ⟨b, hb, rfl⟩
    rcases h.mem_tainted.mp hb with ⟨site, hsite, hb⟩ | ⟨n, hn, hb⟩
    · refine .inl ⟨site, m.sites ▸ hsite, ?_⟩
      rw [m.site site hsite]
      exact List.mem_map_of_mem hb
    · refine .inr ⟨n, (hvisited n).mpr hn, ?_⟩
      rw [m.use]
      exact List.mem_map_of_mem hb

/-- States that visited the same uses taint equally many variables. -/
theorem length_tainted (h : Accounts t target s) (h' : Accounts t' target s')
    (hvisited : ∀ n, n ∈ s'.visited ↔ n ∈ s.visited) :
    s'.tainted.length = s.tainted.length := by
  -- Neither list repeats a variable, since different variables are renamed differently.
  have hnodup : (s.tainted.map rename).Nodup :=
    List.Nodup.map_on (fun b hb c hc => m.injective b (h.tainted_subset hb) c (h.tainted_subset hc))
      h.nodup
  have hperm : s'.tainted.Perm (s.tainted.map rename) := by
    rw [List.perm_ext_iff_of_nodup h'.nodup hnodup]
    intro c
    rw [m.mem_tainted h h' hvisited, List.mem_map]
  rw [hperm.length_eq, List.length_map]

/-- Passes over states that visited the same uses visit the same uses. -/
theorem visited_pass_over (h : Accounts t target s) (h' : Accounts t' target s')
    (hvisited : ∀ n, n ∈ s'.visited ↔ n ∈ s.visited) (hnodes : IsVisitOrder t.resolution s nodes)
    (hnodes' : IsVisitOrder t'.resolution s' nodes') :
    n ∈ (passOver t' t'.resolution s' nodes').visited ↔
      n ∈ (passOver t t.resolution s nodes).visited := by
  rw [mem_visited_pass_over, mem_visited_pass_over, hvisited, hnodes.mem_iff, hnodes'.mem_iff]
  refine or_congr_left ?_
  constructor
  · rintro ⟨c, hc, hn⟩
    obtain ⟨b, hb, rfl⟩ := (m.mem_tainted h h' hvisited).mp hc
    rw [m.uses b (h.tainted_subset hb)] at hn
    exact ⟨b, hb, hn⟩
  · rintro ⟨b, hb, hn⟩
    refine ⟨rename b, (m.mem_tainted h h' hvisited).mpr ⟨b, hb, rfl⟩, ?_⟩
    rwa [m.uses b (h.tainted_subset hb)]

/-- Two runs have visited the same uses after equally many passes. -/
theorem visited_eq (h : Underway t target s) (h' : Underway t' target s')
    (hpasses : s'.passes = s.passes) : ∀ n, n ∈ s'.visited ↔ n ∈ s.visited := by
  -- Induction on one run; the other has as many passes, so it ends with the same kind of step.
  induction h generalizing s' with
  | sites _ =>
      cases h' with
      | sites _ => simp [of_sites_in_fresh.1]
      | pass => simp [of_sites_in_fresh.2, passes_pass_over] at hpasses
  | @pass s nodes hs hnodes _ ih =>
      cases h' with
      | sites _ => simp [of_sites_in_fresh.2, passes_pass_over] at hpasses
      | @pass s' nodes' hs' hnodes' _ =>
          rw [passes_pass_over, passes_pass_over] at hpasses
          have hvisited := ih hs' (Nat.succ.inj hpasses)
          exact fun n => m.visited_pass_over hs.accounts hs'.accounts hvisited hnodes hnodes'

/-- After equally many passes, the next pass of one run taints something new exactly if that of the
other does. -/
theorem grows_iff (h : Underway t target s) (h' : Underway t' target s')
    (hpasses : s'.passes = s.passes) (hnodes : IsVisitOrder t.resolution s nodes)
    (hnodes' : IsVisitOrder t'.resolution s' nodes') :
    (passOver t' t'.resolution s' nodes').tainted.length = s'.tainted.length ↔
      (passOver t t.resolution s nodes).tainted.length = s.tainted.length := by
  have hvisited := m.visited_eq h h' hpasses
  rw [m.length_tainted h.accounts h'.accounts hvisited,
    m.length_tainted (h.accounts.pass_over nodes) (h'.accounts.pass_over nodes') fun n =>
      m.visited_pass_over h.accounts h'.accounts hvisited hnodes hnodes']

/-- Two runs end after equally many passes, and have then visited the same uses. -/
theorem finished_eq (h : Finished t target f) (h' : Finished t' target f') :
    f'.passes = f.passes ∧ ∀ n, n ∈ f'.visited ↔ n ∈ f.visited := by
  obtain ⟨s, nodes, hs, hnodes, rfl, hlast⟩ := h
  obtain ⟨s', nodes', hs', hnodes', rfl, hlast'⟩ := h'
  -- The run with more passes has gone on after as many as the other, which found nothing new there.
  have hpasses : s'.passes = s.passes := by
    rcases Nat.lt_trichotomy s'.passes s.passes with hlt | heq | hgt
    · obtain ⟨u, order, hu, hpasses, horder, hgrows⟩ := hs.exists_at hlt
      exact absurd ((m.grows_iff hu hs' hpasses.symm horder hnodes').mp hlast') hgrows
    · exact heq
    · obtain ⟨u, order, hu, hpasses, horder, hgrows⟩ := hs'.exists_at hgt
      exact absurd ((m.grows_iff hs hu hpasses hnodes horder).mpr hlast) hgrows
  rw [passes_pass_over, passes_pass_over, hpasses]
  exact ⟨rfl, fun n => m.visited_pass_over hs.accounts hs'.accounts
    (m.visited_eq hs hs' hpasses) hnodes hnodes'⟩

end Mirrors

/-- Passes that go on taint at least one variable each. -/
theorem Underway.passes_le (h : Underway t target s) : s.passes ≤ s.tainted.length := by
  induction h with
  | sites _ => simp [of_sites_in_fresh.2]
  | @pass s nodes _ _ hgrows ih =>
      have hprefix : s.tainted <+: (passOver t t.resolution s nodes).tainted :=
        tainted_prefix_pass_over
      have hlength := hprefix.length_le
      rw [passes_pass_over]
      omega

/-- The analysis runs in one of the orders, and comes to its end. -/
theorem finished_saturate {limit : Nat} (h : Underway t target s)
    (hlimit : t.resolution.bindings.length < limit + s.tainted.length) :
    Finished t target (saturate t t.resolution limit s) := by
  induction limit generalizing s with
  | zero =>
      -- With no pass left, more variables would be tainted than the tree has.
      have := h.accounts.nodup.length_le_of_subset h.accounts.tainted_subset
      omega
  | succ limit ih =>
      rw [saturate]
      split
      case isTrue hlast => exact ⟨s, _, h, is_visit_order_frontier (t := t), rfl, hlast⟩
      case isFalse hgrown =>
        have hnext : Underway t target (pass t t.resolution s) :=
          h.pass is_visit_order_frontier hgrown
        have hle := (tainted_prefix_pass (t := t) (r := t.resolution) (s := s)).length_le
        exact ih hnext (by omega)

/-- The analysis runs in one of the orders. -/
theorem finished_run : Finished t target (run t target) :=
  finished_saturate (.sites (.refl _)) (by omega)

/-- Whatever the order in which the sites are taken into account, and in which each pass visits the
tainted variables and the uses of each, a run ends after no more passes than there are variables and
one. All finished runs taint the same variables, take equally many passes and plan the same for each
node, and the analysis is one of them. -/
theorem order_irrelevant (t : Tree) (target : String) :
    (∀ s, Underway t target s → s.passes ≤ t.resolution.bindings.length ∧
        ∃ nodes, IsVisitOrder t.resolution s nodes) ∧
      Finished t target (run t target) ∧
      ∀ f, Finished t target f → (∀ b, b ∈ f.tainted ↔ b ∈ (run t target).tainted) ∧
        f.passes = (run t target).passes ∧ f.plan.SameMap (run t target).plan := by
  refine ⟨fun s hs => ⟨?_, frontier t t.resolution s, is_visit_order_frontier⟩, finished_run,
    fun f hf => ?_⟩
  · exact Nat.le_trans hs.passes_le
      (hs.accounts.nodup.length_le_of_subset hs.accounts.tainted_subset)
  · have hmirrors := mirrors_refl t target
    obtain ⟨hpasses, hvisited⟩ := hmirrors.finished_eq finished_run hf
    refine ⟨fun b => ?_, hpasses, ?_⟩
    · rw [hmirrors.mem_tainted finished_run.accounts hf.accounts hvisited]
      simp
    · obtain ⟨entries, hstrongest, hentries⟩ := hf.accounts.strongest
      have hrun : Finished t target (run t target) := finished_run
      obtain ⟨others, hothers, hasked⟩ := hrun.accounts.strongest
      refine hstrongest.same_map hothers fun e => ?_
      rw [hentries, hasked]
      simp only [Asks, hvisited]

end Excise.Analysis
