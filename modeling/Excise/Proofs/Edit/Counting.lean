import Excise.Proofs.Edit.Crossing
import Excise.Proofs.Edit.Order
import Excise.Proofs.Syntax.Nesting
import Mathlib.Algebra.Order.BigOperators.Group.List
import Mathlib.Algebra.Order.Ring.Nat

/-!
# What is counted

Each edit that a plan asks for stands for nodes (`Plan.requests`), and the sweep keeps it, merges it
into the last one kept, or leaves it out with a report (`Plan.outcomes`). The counts of a plan that
is carried out are sums over these outcomes (`tally_of_outcomes`): a kept edit is counted in full,
but of those that were merged only the counts of what was merged into the cut of a list go on. So
they are the numbers of the removed nodes exactly if nothing else is merged
(`tally_counts_removed_iff`).
-/

namespace Excise

/-- An edit that a plan asks for, and the nodes that go with it. -/
structure Request where
  edit : Edit
  nodes : List Node
deriving DecidableEq

/-- What becomes of an edit in a sweep: it is kept, is merged into the last one kept, whose kind is
given, or is left out with a report. -/
inductive Fate where
  | kept
  | merged (into : EditKind)
  | dropped (report : EditEvent)
deriving DecidableEq

/-- What became of an edit that a plan asked for. -/
structure Outcome where
  request : Request
  fate : Fate
deriving DecidableEq

namespace Request

/-- The nodes that go with an edit of a kind. -/
def nodesOf (kind : EditKind) (r : Request) : List Node := if r.edit.kind = kind then r.nodes else []

/-- The edit counts its nodes, of which there is one, except for the cut of a list, which may have
several. -/
structure IsCounted (r : Request) : Prop where
  count : r.edit.count = r.nodes.length
  nonempty : r.nodes ≠ []
  single : r.edit.kind ≠ .item → r.nodes.length = 1

end Request

namespace Outcome

/-- The nodes that go with an edit of a kind that is carried out, by itself or merged. -/
def removed (kind : EditKind) (o : Outcome) : List Node :=
  match o.fate with
  | .kept | .merged _ => o.request.nodesOf kind
  | .dropped _ => []

/-- The nodes of an edit of a kind that is left out. -/
def skipped (kind : EditKind) (o : Outcome) : List Node :=
  match o.fate with
  | .kept | .merged _ => []
  | .dropped _ => o.request.nodesOf kind

/-- The report on an edit that is left out. -/
def report? (o : Outcome) : Option EditEvent :=
  match o.fate with
  | .kept | .merged _ => none
  | .dropped report => some report

/-- The nodes of an edit are removed or skipped. -/
theorem removed_append_skipped (kind : EditKind) (o : Outcome) :
    o.removed kind ++ o.skipped kind = o.request.nodesOf kind := by
  unfold removed skipped
  cases o.fate with
  | kept => exact List.append_nil _
  | merged into => exact List.append_nil _
  | dropped report => rfl

end Outcome

/-! ## The counts of a sweep -/

/-- The count of a kind. -/
def Tally.ofKind (s : Tally) : EditKind → Nat
  | .statement => s.statements
  | .item => s.items
  | .replacement => s.replacements

/-- What an edit that is carried out adds to the count of a kind. -/
def Edit.weight (kind : EditKind) (e : Edit) : Nat :=
  if e.kind = kind then if kind = .item then e.count else 1 else 0

/-- What an edit that a plan asked for adds to the count of a kind. One that is merged adds nothing,
except in the cut of a list. -/
def Outcome.counted (kind : EditKind) (o : Outcome) : Nat :=
  match o.fate with
  | .kept => o.request.edit.weight kind
  | .merged into => if kind = .item ∧ into = .item then o.request.edit.count else 0
  | .dropped _ => 0

/-- Counting an edit adds its weight. -/
theorem of_kind_add (s : Tally) (e : Edit) (kind : EditKind) :
    (s.add e).ofKind kind = s.ofKind kind + e.weight kind := by
  obtain ⟨start, stop, text, own, count⟩ := e
  cases own <;> cases kind <;> rfl

/-- The counts of edits are the sums of their weights. -/
theorem of_kind_of_edits (edits : List Edit) (kind : EditKind) :
    (Tally.ofEdits edits).ofKind kind = (edits.map (Edit.weight kind)).sum := by
  have hfold : ∀ s : Tally, (edits.foldl Tally.add s).ofKind kind =
      s.ofKind kind + (edits.map (Edit.weight kind)).sum := by
    induction edits with
    | nil => exact fun s => rfl
    | cons e rest ih =>
        intro s
        rw [List.foldl_cons, ih, of_kind_add, List.map_cons, List.sum_cons, Nat.add_assoc]
  have hzero : Tally.zero.ofKind kind = 0 := by cases kind <;> rfl
  rw [Tally.ofEdits, hfold, hzero, Nat.zero_add]

/-- Joining adds the count of an edit to a cut, and nothing to the weight of another edit. -/
theorem Edit.weight_join (last e : Edit) (kind : EditKind) :
    (last.join e).weight kind =
      last.weight kind + if kind = .item ∧ last.kind = .item then e.count else 0 := by
  show (if last.kind = kind then if kind = .item then last.count + e.count else 1 else 0) =
    (if last.kind = kind then if kind = .item then last.count else 1 else 0) +
      if kind = .item ∧ last.kind = .item then e.count else 0
  by_cases hown : last.kind = kind
  · subst hown
    by_cases hitem : last.kind = .item
    · simp [hitem]
    · simp [hitem]
  · have hnot : ¬ (kind = .item ∧ last.kind = .item) := fun h => hown (h.2.trans h.1.symm)
    simp [hown, hnot]

/-- What the sweep does with the next edit. -/
def fateOf (last e : Edit) : Fate :=
  if last.stop ≤ e.start then .kept
  else if e.stop ≤ last.stop then .dropped (.detached e.kind e.start)
  else if last.BothDelete e then .merged last.kind
  else .dropped (.overlapping e.kind e.start last.kind)

/-- The last edit kept after the next one. -/
def Fate.lastAfter (last e : Edit) : Fate → Edit
  | .kept => e
  | .merged _ => last.join e
  | .dropped _ => last

/-- What becomes of edits that are in order, `last` being the last one kept. -/
def settleFrom (last : Edit) : List Request → List Outcome
  | [] => []
  | r :: rest =>
      ⟨r, fateOf last r.edit⟩ :: settleFrom ((fateOf last r.edit).lastAfter last r.edit) rest

/-- What becomes of edits that are in order. -/
def settleSorted : List Request → List Outcome
  | [] => []
  | r :: rest => ⟨r, .kept⟩ :: settleFrom r.edit rest

/-- What becomes of edits in a sweep. -/
def settle (requests : List Request) : List Outcome :=
  settleSorted (requests.mergeSort fun a b => a.edit.Before b.edit)

variable {last e : Edit}

/-- The sweep goes by the fate of the next edit. -/
theorem sweep_from_fate (last e : Edit) (edits : List Edit) :
    sweepFrom last (e :: edits) =
      match fateOf last e with
      | .kept => ⟨last :: (sweepFrom e edits).kept, (sweepFrom e edits).log⟩
      | .merged _ => sweepFrom (last.join e) edits
      | .dropped report => ⟨(sweepFrom last edits).kept, report :: (sweepFrom last edits).log⟩ := by
  rw [sweepFrom]
  unfold fateOf
  split
  · rfl
  · split
    · rfl
    · split <;> rfl

/-- An edit is merged into the last one kept. -/
theorem kind_of_merged {into : EditKind} (h : fateOf last e = .merged into) : into = last.kind := by
  unfold fateOf at h
  split at h
  · exact absurd h (by simp)
  · split at h
    · exact absurd h (by simp)
    · split at h
      · exact (Fate.merged.inj h).symm
      · exact absurd h (by simp)

/-- The weights of the edits that are kept are those of the outcomes. -/
theorem weight_sweep_from (last : Edit) (rest : List Request) (kind : EditKind) :
    ((sweepFrom last (rest.map Request.edit)).kept.map (Edit.weight kind)).sum =
      last.weight kind + ((settleFrom last rest).map (Outcome.counted kind)).sum := by
  induction rest generalizing last with
  | nil => rfl
  | cons r rest ih =>
      rw [List.map_cons, sweep_from_fate, settleFrom, List.map_cons, List.sum_cons]
      cases hfate : fateOf last r.edit with
      | kept =>
          show ((last :: (sweepFrom r.edit (rest.map Request.edit)).kept).map _).sum =
            last.weight kind + (r.edit.weight kind + _)
          rw [List.map_cons, List.sum_cons, ih]
          rfl
      | merged into =>
          obtain rfl := kind_of_merged hfate
          show ((sweepFrom (last.join r.edit) (rest.map Request.edit)).kept.map _).sum =
            last.weight kind + ((if kind = .item ∧ last.kind = .item then r.edit.count else 0) + _)
          rw [ih, Edit.weight_join, Nat.add_assoc]
          rfl
      | dropped report =>
          show ((sweepFrom last (rest.map Request.edit)).kept.map _).sum =
            last.weight kind + (0 + _)
          rw [ih, Nat.zero_add]
          rfl

/-- The sweep reports on the edits that are left out. -/
theorem log_sweep_from (last : Edit) (rest : List Request) :
    (sweepFrom last (rest.map Request.edit)).log =
      (settleFrom last rest).filterMap Outcome.report? := by
  induction rest generalizing last with
  | nil => rfl
  | cons r rest ih =>
      rw [List.map_cons, sweep_from_fate, settleFrom]
      cases fateOf last r.edit with
      | kept => exact ih r.edit
      | merged into => exact ih (last.join r.edit)
      | dropped report => exact congrArg (report :: ·) (ih last)

/-- Each edit has an outcome. -/
theorem requests_settle_from (last : Edit) (rest : List Request) :
    (settleFrom last rest).map Outcome.request = rest := by
  induction rest generalizing last with
  | nil => rfl
  | cons r rest ih => rw [settleFrom, List.map_cons, ih]

/-- Each edit has one outcome. -/
theorem requests_settle (requests : List Request) :
    ((settle requests).map Outcome.request).Perm requests := by
  refine List.Perm.trans (List.Perm.of_eq ?_)
    (List.mergeSort_perm requests fun a b => a.edit.Before b.edit)
  unfold settle
  cases requests.mergeSort fun a b => a.edit.Before b.edit with
  | nil => rfl
  | cons r rest => rw [settleSorted, List.map_cons, requests_settle_from]

/-- Sorting the requests sorts their edits. -/
theorem map_edit_merge_sort (requests : List Request) :
    ((requests.mergeSort fun a b => a.edit.Before b.edit).map Request.edit) =
      (requests.map Request.edit).mergeSort fun a b => a.Before b :=
  List.map_mergeSort fun _ _ _ _ => rfl

/-- The edits are swept in the order of the outcomes. -/
theorem sweep_of_requests (requests : List Request) :
    sweep (requests.map Request.edit) =
      sweepSorted ((requests.mergeSort fun a b => a.edit.Before b.edit).map Request.edit) := by
  rw [sweep, map_edit_merge_sort]

/-- Edits that are in order are not moved. -/
theorem settle_of_sorted {requests : List Request}
    (h : requests.Pairwise fun a b => a.edit.Before b.edit) :
    settle requests = settleSorted requests := by
  have hsorted : requests.Pairwise fun a b => decide (a.edit.Before b.edit) = true :=
    h.imp fun hbefore => decide_eq_true hbefore
  rw [settle, List.mergeSort_of_pairwise hsorted]

/-- The counts of a sweep are the sums over the outcomes. -/
theorem tally_sweep (requests : List Request) (kind : EditKind) :
    (Tally.ofEdits (sweep (requests.map Request.edit)).kept).ofKind kind =
      ((settle requests).map (Outcome.counted kind)).sum := by
  rw [of_kind_of_edits, sweep_of_requests, settle]
  cases requests.mergeSort fun a b => a.edit.Before b.edit with
  | nil => rfl
  | cons r rest => exact weight_sweep_from r.edit rest kind

/-- The reports of a sweep are those of the outcomes. -/
theorem log_sweep (requests : List Request) :
    (sweep (requests.map Request.edit)).log = (settle requests).filterMap Outcome.report? := by
  rw [sweep_of_requests, settle]
  cases requests.mergeSort fun a b => a.edit.Before b.edit with
  | nil => rfl
  | cons r rest => exact log_sweep_from r.edit rest

/-! ## Edits that are merged -/

/-- Of two edits that cross one writes a text. -/
def NoDeletionsCross (edits : List Edit) : Prop :=
  ∀ a ∈ edits, ∀ b ∈ edits, a.Crosses b → ¬ a.BothDelete b

/-- The edits are compared pair by pair. -/
instance (edits : List Edit) : Decidable (NoDeletionsCross edits) :=
  inferInstanceAs (Decidable (∀ a ∈ edits, ∀ b ∈ edits,
    a.start < b.start ∧ b.start < a.stop ∧ a.stop < b.stop → ¬ a.BothDelete b))

/-- Where no deletions cross, no edit is merged into the last one kept. -/
theorem not_merged_of_uncrossed {edits : List Edit} (h : NoDeletionsCross edits)
    (hlast : last ∈ edits) (he : e ∈ edits) (horder : last.Before e) (into : EditKind) :
    fateOf last e ≠ .merged into := by
  unfold fateOf
  split
  · simp
  · split
    · simp
    · split
      case isTrue hapart hinside hdelete =>
        have hcross : last.Crosses e := by
          unfold Edit.Before at horder
          unfold Edit.Crosses
          omega
        exact absurd hdelete (h last hlast e he hcross)
      case isFalse => simp

/-- So none of the edits that follow it is. -/
theorem none_merged_settle_from {edits : List Edit} {rest : List Request}
    (h : NoDeletionsCross edits) (hlast : last ∈ edits) (hrest : rest.map Request.edit ⊆ edits)
    (horder : (last :: rest.map Request.edit).Pairwise Edit.Before) :
    ∀ o ∈ settleFrom last rest, ∀ into, o.fate ≠ .merged into := by
  induction rest generalizing last with
  | nil => exact fun o ho => absurd ho List.not_mem_nil
  | cons r rest ih =>
      rw [List.map_cons] at hrest horder
      obtain ⟨hr, hothers⟩ := List.cons_subset.mp hrest
      obtain ⟨hfirst, hbehind⟩ := List.pairwise_cons.mp horder
      have hnot := not_merged_of_uncrossed h hlast hr (hfirst r.edit List.mem_cons_self)
      rw [settleFrom]
      refine List.forall_mem_cons.mpr ⟨hnot, ?_⟩
      cases hfate : fateOf last r.edit with
      | kept => exact ih hr hothers hbehind
      | merged into => exact absurd hfate (hnot into)
      | dropped report => exact ih hlast hothers (before_in_order_skip horder rfl (Nat.le_refl _))

/-- Where no deletions cross, a sweep merges nothing. -/
theorem none_merged_settle {requests : List Request}
    (h : NoDeletionsCross (requests.map Request.edit)) :
    ∀ o ∈ settle requests, ∀ into, o.fate ≠ .merged into := by
  have hsorted := before_in_order_merge_sort (requests.map Request.edit)
  have hmem : ∀ e ∈ (requests.map Request.edit).mergeSort fun a b => a.Before b,
      e ∈ requests.map Request.edit := fun e he => List.mem_mergeSort.mp he
  rw [← map_edit_merge_sort] at hsorted hmem
  unfold settle
  cases hrequests : requests.mergeSort fun a b => a.edit.Before b.edit with
  | nil => exact fun o ho => absurd ho List.not_mem_nil
  | cons r rest =>
      rw [hrequests, List.map_cons] at hsorted hmem
      obtain ⟨hr, hrest⟩ := List.forall_mem_cons.mp hmem
      refine List.forall_mem_cons.mpr ⟨fun into => by simp, ?_⟩
      exact none_merged_settle_from h hr hrest hsorted

/-! ## Counts and removed nodes -/

namespace Outcome

variable {o : Outcome} {kind : EditKind}

/-- The edit is merged into another one, and one of them is no cut of a list. -/
def IsLost (o : Outcome) : Prop :=
  ∃ into, o.fate = .merged into ∧ (o.request.edit.kind ≠ .item ∨ into ≠ .item)

/-- The nodes of an edit that is not lost are counted. -/
theorem counted_eq (h : o.request.IsCounted) (hkept : ¬ o.IsLost) :
    o.counted kind = (o.removed kind).length := by
  unfold counted removed
  cases hfate : o.fate with
  | kept =>
      show o.request.edit.weight kind = (o.request.nodesOf kind).length
      unfold Edit.weight Request.nodesOf
      by_cases hown : o.request.edit.kind = kind
      · rw [if_pos hown, if_pos hown]
        by_cases hitem : kind = .item
        · rw [if_pos hitem, h.count]
        · rw [if_neg hitem, h.single (hown ▸ hitem)]
      · rw [if_neg hown, if_neg hown]
        rfl
  | merged into =>
      have hboth : o.request.edit.kind = .item ∧ into = .item := by
        by_contra hnot
        exact hkept ⟨into, hfate, not_and_or.mp hnot⟩
      show (if kind = .item ∧ into = .item then o.request.edit.count else 0) =
        (o.request.nodesOf kind).length
      unfold Request.nodesOf
      rw [hboth.1, h.count]
      by_cases hitem : kind = .item
      · rw [if_pos ⟨hitem, hboth.2⟩, if_pos hitem.symm]
      · rw [if_neg fun hand => hitem hand.1, if_neg fun heq => hitem heq.symm]
        rfl
  | dropped report => rfl

/-- What a merged edit adds to a count. -/
theorem counted_of_merged {into : EditKind} (h : o.fate = .merged into) :
    o.counted kind = if kind = .item ∧ into = .item then o.request.edit.count else 0 := by
  rw [counted, h]

/-- The nodes of a merged edit are removed. -/
theorem removed_of_merged {into : EditKind} (h : o.fate = .merged into) :
    o.removed kind = o.request.nodesOf kind := by
  rw [removed, h]

/-- No more statements and replacements are counted than are removed. -/
theorem counted_le_of_ne (h : o.request.IsCounted) (hkind : kind ≠ .item) :
    o.counted kind ≤ (o.removed kind).length := by
  by_cases hlost : o.IsLost
  · obtain ⟨into, hmerged, -⟩ := hlost
    rw [counted_of_merged hmerged, if_neg fun hand => hkind hand.1]
    exact Nat.zero_le _
  · exact Nat.le_of_eq (counted_eq h hlost)

/-- The nodes of a lost edit are missing in the count of its kind. -/
theorem counted_lt_of_lost (h : o.request.IsCounted) (hlost : o.IsLost)
    (hkind : o.request.edit.kind = kind) : o.counted kind < (o.removed kind).length := by
  obtain ⟨into, hmerged, hother⟩ := hlost
  have hnot : ¬ (kind = .item ∧ into = .item) := not_and_or.mpr (hkind ▸ hother)
  rw [counted_of_merged hmerged, removed_of_merged hmerged, if_neg hnot, Request.nodesOf,
    if_pos hkind]
  exact List.length_pos_iff.mpr h.nonempty

end Outcome

/-- The counts are the numbers of removed nodes exactly if no edit is lost. -/
theorem counted_sum_eq_iff {outcomes : List Outcome}
    (h : ∀ o ∈ outcomes, o.request.IsCounted) :
    (∀ kind, (outcomes.map (Outcome.counted kind)).sum =
        (outcomes.flatMap (Outcome.removed kind)).length) ↔
      ∀ o ∈ outcomes, ¬ o.IsLost := by
  have hlength : ∀ kind, (outcomes.flatMap (Outcome.removed kind)).length =
      (outcomes.map fun o => (o.removed kind).length).sum := fun kind => List.length_flatMap
  simp only [hlength]
  constructor
  · intro hsum
    -- A kind of which no outcome counts too much is counted in full by each.
    have hfull : ∀ kind, (∀ o ∈ outcomes, o.counted kind ≤ (o.removed kind).length) →
        ∀ o ∈ outcomes, ¬ o.counted kind < (o.removed kind).length := fun kind hle o ho hlt =>
      Nat.ne_of_lt (List.sum_lt_sum _ _ hle ⟨o, ho, hlt⟩) (hsum kind)
    have hcuts : ∀ o ∈ outcomes, o.IsLost → o.request.edit.kind = .item := by
      intro o ho hlost
      by_contra hkind
      exact hfull _ (fun o ho => Outcome.counted_le_of_ne (h o ho) hkind) o ho
        (Outcome.counted_lt_of_lost (h o ho) hlost rfl)
    -- So only cuts are lost, and of cuts, too, no outcome counts too much.
    have hitems : ∀ o ∈ outcomes, o.counted .item ≤ (o.removed .item).length := by
      intro o ho
      by_cases hlost : o.IsLost
      · exact Nat.le_of_lt (Outcome.counted_lt_of_lost (h o ho) hlost (hcuts o ho hlost))
      · exact Nat.le_of_eq (Outcome.counted_eq (h o ho) hlost)
    intro o ho hlost
    exact hfull .item hitems o ho (Outcome.counted_lt_of_lost (h o ho) hlost (hcuts o ho hlost))
  · intro hkept kind
    exact congrArg List.sum (List.map_congr_left fun o ho =>
      Outcome.counted_eq (h o ho) (hkept o ho))

/-! ## The requests of a plan -/

namespace Tree

variable {t : Tree} {n : Node} {marked items : List Node} {r : Request}

/-- The cuts of a list with the items that go with each. -/
def cutRequests (t : Tree) (marked : List Node) : List Node → List Request
  | [] => []
  | item :: rest =>
      if item ∈ marked then
        if ∃ i ∈ rest, i ∉ marked then
          ⟨⟨t.start item, (rest.head?.map t.start).getD 0, [], .item, 1⟩, [item]⟩ ::
            cutRequests t marked rest
        else []
      else if rest ≠ [] ∧ ∀ i ∈ rest, i ∈ marked then
        [⟨⟨t.stop item, (rest.getLast?.map t.stop).getD 0, [], .item, rest.length⟩, rest⟩]
      else cutRequests t marked rest

/-- The edits are the cuts of the list. -/
theorem edits_of_cut_requests (t : Tree) (marked items : List Node) :
    (t.cutRequests marked items).map Request.edit = t.cutItems marked items := by
  induction items with
  | nil => rfl
  | cons item rest ih =>
      rw [cutRequests, cutItems]
      split
      · split
        · exact congrArg _ ih
        · rfl
      · split
        · rfl
        · exact ih

/-- The cuts of a list that keeps an item take the marked items along, each once. -/
theorem nodes_of_cut_requests (hstays : ∃ j ∈ items, j ∉ marked) :
    (t.cutRequests marked items).flatMap Request.nodes = items.filter (· ∈ marked) := by
  induction items with
  | nil => simp at hstays
  | cons item rest ih =>
      by_cases hmarked : item ∈ marked
      · have hrest : ∃ j ∈ rest, j ∉ marked := by
          obtain ⟨j, hj, hjstays⟩ := hstays
          exact ⟨j, (List.mem_cons.mp hj).resolve_left fun heq => hjstays (heq ▸ hmarked), hjstays⟩
        rw [cutRequests, if_pos hmarked, if_pos hrest, List.flatMap_cons, ih hrest,
          List.filter_cons_of_pos (by simpa using hmarked)]
        rfl
      · rw [cutRequests, if_neg hmarked, List.filter_cons_of_neg (by simpa using hmarked)]
        by_cases htail : rest ≠ [] ∧ ∀ i ∈ rest, i ∈ marked
        · rw [if_pos htail, List.flatMap_singleton]
          exact (List.filter_eq_self.mpr fun i hi => decide_eq_true (htail.2 i hi)).symm
        · rw [if_neg htail]
          cases rest with
          | nil => rfl
          | cons next rest =>
              refine ih ?_
              by_contra hnone
              refine htail ⟨List.cons_ne_nil next rest, fun i hi => ?_⟩
              by_contra hi'
              exact hnone ⟨i, hi, hi'⟩

/-- A cut counts the items that go with it. -/
theorem cut_request_is_counted (h : r ∈ t.cutRequests marked items) :
    r.edit.kind = .item ∧ r.IsCounted := by
  induction items with
  | nil => exact absurd h List.not_mem_nil
  | cons item rest ih =>
      rw [cutRequests] at h
      split at h
      · split at h
        · rcases List.mem_cons.mp h with rfl | h
          · exact ⟨rfl, rfl, List.cons_ne_nil item [], fun _ => rfl⟩
          · exact ih h
        · exact absurd h List.not_mem_nil
      · split at h
        case isTrue htail =>
          obtain rfl := List.mem_singleton.mp h
          exact ⟨rfl, rfl, htail.1, fun hkind => absurd rfl hkind⟩
        case isFalse => exact ih h

end Tree

namespace Plan

variable {t : Tree} {p : Plan} {r : Request}

/-- The lists that lose some of their items. -/
def trimmedLists (t : Tree) (p : Plan) : List MarkedList :=
  (p.markedLists t).filter fun l => ¬ l.IsFull t

/-- The edits that a plan asks for, with the nodes that go with each. -/
def requests (t : Tree) (p : Plan) : List Request :=
  (p.trimmedLists t).flatMap (fun l => t.cutRequests l.marked (l.items t)) ++
    (p.statements t).map (fun n => ⟨t.deleteStatement n, [n]⟩) ++
    p.replacements.map fun e => ⟨t.replaceNode e, [e.1]⟩

/-- What becomes of the edits that a plan asks for. -/
def outcomes (t : Tree) (p : Plan) : List Outcome := settle (p.requests t)

/-- The nodes of a kind that a plan asks to remove: statements, items of lists that keep some, and
expressions to replace. -/
def requested (t : Tree) (p : Plan) : EditKind → List Node
  | .statement => p.statements t
  | .item => (p.trimmedLists t).flatMap fun l => (l.items t).filter (· ∈ l.marked)
  | .replacement => p.replacements.keys

/-- The nodes of a kind that are removed by an edit of their own, be it kept or merged. -/
def removed (t : Tree) (p : Plan) (kind : EditKind) : List Node :=
  (p.outcomes t).flatMap (Outcome.removed kind)

/-- The nodes of a kind whose edit is left out. -/
def skipped (t : Tree) (p : Plan) (kind : EditKind) : List Node :=
  (p.outcomes t).flatMap (Outcome.skipped kind)

/-- The requests are those of the edits. -/
theorem edits_of_requests (t : Tree) (p : Plan) :
    (p.requests t).map Request.edit = p.edits t := by
  unfold requests edits
  rw [List.map_append, List.map_append, List.map_flatMap, List.map_map, List.map_map]
  simp only [Tree.edits_of_cut_requests]
  rfl

/-- Every edit counts its nodes. -/
theorem request_is_counted (h : r ∈ p.requests t) : r.IsCounted := by
  rcases List.mem_append.mp h with h | h
  · rcases List.mem_append.mp h with h | h
    · obtain ⟨l, -, hcut⟩ := List.mem_flatMap.mp h
      exact (Tree.cut_request_is_counted hcut).2
    · obtain ⟨n, -, rfl⟩ := List.mem_map.mp h
      refine ⟨?_, List.cons_ne_nil n [], fun _ => rfl⟩
      exact Tree.count_of_delete_statement t n
  · obtain ⟨e, -, rfl⟩ := List.mem_map.mp h
    exact ⟨rfl, List.cons_ne_nil e.1 [], fun _ => rfl⟩

/-- Edits of one kind have all nodes of that kind and none of another. -/
theorem nodes_of_one_kind {requests : List Request} {own : EditKind}
    (h : ∀ r ∈ requests, r.edit.kind = own) (kind : EditKind) :
    requests.flatMap (Request.nodesOf kind) =
      if own = kind then requests.flatMap Request.nodes else [] := by
  induction requests with
  | nil => simp
  | cons r rest ih =>
      obtain ⟨hr, hrest⟩ := List.forall_mem_cons.mp h
      rw [List.flatMap_cons, List.flatMap_cons, ih hrest, Request.nodesOf, hr]
      by_cases hkind : own = kind
      · simp [hkind]
      · simp [hkind]

/-- The cuts of a plan take the marked items of lists that keep some along. -/
theorem nodes_of_cuts (t : Tree) (p : Plan) :
    ((p.trimmedLists t).flatMap fun l => t.cutRequests l.marked (l.items t)).flatMap Request.nodes =
      p.requested t .item := by
  rw [List.flatMap_assoc]
  refine List.flatMap_congr fun l hl => Tree.nodes_of_cut_requests ?_
  have hkeeps := of_decide_eq_true (List.mem_filter.mp hl).2
  unfold MarkedList.IsFull at hkeeps
  simpa only [not_forall, exists_prop] using hkeeps

/-- The edits of a plan stand for the nodes that it asks to remove. -/
theorem nodes_of_requests (t : Tree) (p : Plan) (kind : EditKind) :
    (p.requests t).flatMap (Request.nodesOf kind) = p.requested t kind := by
  have hcuts : ∀ r ∈ (p.trimmedLists t).flatMap fun l => t.cutRequests l.marked (l.items t),
      r.edit.kind = .item := by
    intro r hr
    obtain ⟨l, -, hcut⟩ := List.mem_flatMap.mp hr
    exact (Tree.cut_request_is_counted hcut).1
  have hdeletions : ∀ r ∈ (p.statements t).map fun n => Request.mk (t.deleteStatement n) [n],
      r.edit.kind = .statement := by
    intro r hr
    obtain ⟨n, -, rfl⟩ := List.mem_map.mp hr
    exact Tree.kind_of_delete_statement t n
  have hreplacements : ∀ r ∈ p.replacements.map fun e => Request.mk (t.replaceNode e) [e.1],
      r.edit.kind = .replacement := by
    intro r hr
    obtain ⟨e, -, rfl⟩ := List.mem_map.mp hr
    rfl
  rw [requests, List.flatMap_append, List.flatMap_append, nodes_of_one_kind hcuts,
    nodes_of_one_kind hdeletions, nodes_of_one_kind hreplacements, nodes_of_cuts, List.flatMap_map,
    List.flatMap_map]
  cases kind with
  | statement => simp [requested]
  | item => simp
  | replacement => simp [requested, Table.keys, ← List.map_eq_flatMap]

/-- Each list has a container of its own. -/
theorem containers_of_lists_differ (t : Tree) (p : Plan) :
    (p.markedLists t).Pairwise fun a b => a.container ≠ b.container := by
  rw [marked_lists_eq_map, List.pairwise_map]
  exact nodup_foldl_insert_node List.nodup_nil

/-- No item of a list is listed twice. -/
theorem nodup_items {l : MarkedList} (h : l ∈ p.markedLists t) : (l.items t).Nodup := by
  obtain ⟨first, -, -, hitems⟩ := exists_first_marked h
  rw [hitems]
  exact (t.named_children_of_kind_in_order l.container _).imp Nat.ne_of_lt

/-- A plan that lists each node once asks for the removal of no node twice. -/
theorem nodup_requested (h : p.ListsOnce) (kind : EditKind) : (p.requested t kind).Nodup := by
  cases kind with
  | statement => exact nodup_foldl_insert_node h.deletions
  | replacement => exact h.replacements
  | item =>
      refine List.nodup_flatMap.mpr ⟨fun l hl => ?_, ?_⟩
      · exact (nodup_items (List.mem_filter.mp hl).1).filter _
      · refine ((containers_of_lists_differ t p).sublist List.filter_sublist).imp ?_
        intro a b hab n ha hb
        have ha := parent_of_mem_items (List.mem_filter.mp ha).1
        have hb := parent_of_mem_items (List.mem_filter.mp hb).1
        exact hab (Option.some.inj (ha.symm.trans hb))

/-- Each node that a plan asks to remove is removed or skipped, and not both. -/
theorem removed_append_skipped_perm (t : Tree) (p : Plan) (kind : EditKind) :
    (p.removed t kind ++ p.skipped t kind).Perm (p.requested t kind) := by
  have hperm := (requests_settle (p.requests t)).flatMap_right (Request.nodesOf kind)
  rw [nodes_of_requests, List.flatMap_map] at hperm
  refine (List.flatMap_append_perm _ _ _).trans (List.Perm.trans (List.Perm.of_eq ?_) hperm)
  exact List.flatMap_congr fun o _ => Outcome.removed_append_skipped kind o

/-- The counts of a plan that is carried out are the sums over the outcomes. -/
theorem tally_of_outcomes (t : Tree) (p : Plan) (kind : EditKind) :
    (p.apply t).tally.ofKind kind = ((p.outcomes t).map (Outcome.counted kind)).sum := by
  have hsum := tally_sweep (p.requests t) kind
  rwa [edits_of_requests] at hsum

/-- Where no deletions cross, no edit is lost. -/
theorem none_lost_of_uncrossed (h : NoDeletionsCross (p.edits t)) :
    ∀ o ∈ p.outcomes t, ¬ o.IsLost := by
  rw [← edits_of_requests] at h
  rintro o ho ⟨into, hmerged, -⟩
  exact none_merged_settle h o ho into hmerged

/-- The reports are those on the outcomes. -/
theorem log_of_outcomes (t : Tree) (p : Plan) :
    (p.apply t).log = (p.outcomes t).filterMap Outcome.report? := by
  have hlog := log_sweep (p.requests t)
  rwa [edits_of_requests] at hlog

end Plan

/-- Each node that a plan asks to remove is removed by an edit of its own or belongs to an edit that
is left out and reported. The counts say how many nodes of each kind are removed exactly if no edit
is lost, that is, if only cuts of lists are merged, and these into cuts of lists. -/
theorem tally_counts_removed_iff (t : Tree) (p : Plan) (h : p.ListsOnce) :
    (∀ kind, (p.requested t kind).Nodup ∧
        (p.removed t kind ++ p.skipped t kind).Perm (p.requested t kind)) ∧
      (p.apply t).log = (p.outcomes t).filterMap Outcome.report? ∧
      (∀ kind, (p.apply t).tally.ofKind kind =
        ((p.outcomes t).map (Outcome.counted kind)).sum) ∧
      ((∀ kind, (p.apply t).tally.ofKind kind = (p.removed t kind).length) ↔
        ∀ o ∈ p.outcomes t, ¬ o.IsLost) := by
  refine ⟨fun kind => ⟨Plan.nodup_requested h kind, Plan.removed_append_skipped_perm t p kind⟩,
    Plan.log_of_outcomes t p, Plan.tally_of_outcomes t p, ?_⟩
  have hcounted : ∀ o ∈ p.outcomes t, o.request.IsCounted := fun o ho =>
    Plan.request_is_counted ((requests_settle (p.requests t)).mem_iff.mp (List.mem_map_of_mem ho))
  simp only [Plan.tally_of_outcomes]
  exact counted_sum_eq_iff hcounted

/-- The program `a();` on one line and `var b,c,d;` on the next. -/
def callAndList : Tree :=
  (Tree.ofRows? (Bytes.ofText "a();\nvar b,c,d;")
    #[⟨0, true, "program", 0, 15, none⟩,
      ⟨1, true, "expression_statement", 0, 4, none⟩,
      ⟨2, true, "call_expression", 0, 3, none⟩,
      ⟨1, true, "variable_declaration", 5, 15, none⟩,
      ⟨2, true, "variable_declarator", 9, 10, none⟩,
      ⟨2, true, "variable_declarator", 11, 12, none⟩,
      ⟨2, true, "variable_declarator", 13, 14, none⟩]).get (by decide +kernel)

/-- Delete the first statement, remove the last two items of the declaration, and replace the call
that goes with its statement. -/
def apartEntries : Plan := ⟨[1], [5, 6], [(2, "undefined")]⟩

/-- No deletions cross, so the deletion counts one and the cut two. -/
theorem apart_entries_counted :
    apartEntries.ListsOnce ∧ NoDeletionsCross (apartEntries.edits callAndList) ∧
      (∀ kind, (apartEntries.apply callAndList).tally.ofKind kind =
        (apartEntries.removed callAndList kind).length) ∧
      (apartEntries.apply callAndList).tally = ⟨1, 2, 0⟩ := by
  have honce : apartEntries.ListsOnce := ⟨by decide, by decide, by decide⟩
  have huncrossed : NoDeletionsCross (apartEntries.edits callAndList) := by decide +kernel
  have hcounts := (tally_counts_removed_iff callAndList apartEntries honce).2.2.2.mpr
    (Plan.none_lost_of_uncrossed huncrossed)
  refine ⟨honce, huncrossed, hcounts, ?_⟩
  have hsorted : ((apartEntries.edits callAndList).mergeSort fun a b => a.Before b) =
      [⟨0, 5, [], .statement, 1⟩, ⟨0, 3, Bytes.ofText "undefined", .replacement, 1⟩,
        ⟨10, 14, [], .item, 2⟩] :=
    merge_sort_eq_of_leads (Plan.edits_kind_by_kind callAndList apartEntries) (by decide +kernel)
      (by decide +kernel) (by decide +kernel)
  show Tally.ofEdits (sweep (apartEntries.edits callAndList)).kept = ⟨1, 2, 0⟩
  rw [sweep, hsorted]
  decide +kernel

/-- The program `a(); b();`. -/
def callsOnOneLine : Tree :=
  (Tree.ofRows? (Bytes.ofText "a(); b();")
    #[⟨0, true, "program", 0, 9, none⟩,
      ⟨1, true, "expression_statement", 0, 4, none⟩,
      ⟨2, true, "call_expression", 0, 3, none⟩,
      ⟨1, true, "expression_statement", 5, 9, none⟩,
      ⟨2, true, "call_expression", 5, 8, none⟩]).get (by decide +kernel)

/-- Delete both statements. -/
def bothCalls : Plan := ⟨[1, 3], [], []⟩

/-- Both deletions take the blank between the statements and are merged. The two statements that
are removed, without any report, are counted as one. -/
theorem merged_deletions_counted_once :
    callsOnOneLine.IsNested ∧ bothCalls.ListsOnce ∧
      bothCalls.removed callsOnOneLine .statement = [1, 3] ∧
      (bothCalls.apply callsOnOneLine).log = [] ∧
      (bothCalls.apply callsOnOneLine).tally = ⟨1, 0, 0⟩ := by
  have hrequests : bothCalls.requests callsOnOneLine =
      [⟨⟨0, 5, [], .statement, 1⟩, [1]⟩, ⟨⟨4, 9, [], .statement, 1⟩, [3]⟩] := by decide +kernel
  have hsorted : ((bothCalls.edits callsOnOneLine).mergeSort fun a b => a.Before b) =
      [⟨0, 5, [], .statement, 1⟩, ⟨4, 9, [], .statement, 1⟩] :=
    merge_sort_eq_of_leads (Plan.edits_kind_by_kind callsOnOneLine bothCalls) (by decide +kernel)
      (by decide +kernel) (by decide +kernel)
  refine ⟨⟨by decide +kernel, by decide +kernel, by decide +kernel⟩,
    ⟨by decide, by decide, by decide⟩, ?_, ?_, ?_⟩
  · rw [Plan.removed, Plan.outcomes, hrequests, settle_of_sorted (by decide)]
    decide +kernel
  · show (sweep (bothCalls.edits callsOnOneLine)).log = []
    rw [sweep, hsorted]
    decide +kernel
  · show Tally.ofEdits (sweep (bothCalls.edits callsOnOneLine)).kept = ⟨1, 0, 0⟩
    rw [sweep, hsorted]
    decide +kernel

end Excise
