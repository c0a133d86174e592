import Excise.Edit.Sweep

/-!
# What a sweep keeps

A sweep looks at one edit after the other and does one of four things (`sweep_from_step`). So the
edits that it keeps follow one another without overlap (`clears_sweep`, `pairwise_sweep`), and what
holds of the given edits and is kept by a join holds of those that it keeps (`sweep_invariant`): each
is one of the given edits or several of them joined, which covers only bytes that these cover
(`gathered_sweep`).
-/

namespace Excise

namespace Edit

variable {a b c e k last : Edit} {edits : List Edit} {i : Nat}

/-- The byte at an offset is in the range of the edit. -/
def Covers (e : Edit) (i : Nat) : Prop := e.start ≤ i ∧ i < e.stop

/-- Two offsets are compared. -/
instance (e : Edit) (i : Nat) : Decidable (e.Covers i) := inferInstanceAs (Decidable (_ ∧ _))

/-- The range of one edit is before that of another. -/
def Precedes (a b : Edit) : Prop := a.stop ≤ b.start

/-- Two offsets are compared. -/
instance (a b : Edit) : Decidable (a.Precedes b) := inferInstanceAs (Decidable (_ ≤ _))

/-- The range of one edit is before that of another; if they begin together, both are empty. -/
def Clears (a b : Edit) : Prop := a.stop ≤ b.start ∧ (a.start = b.start → b.stop ≤ b.start)

/-- The order of examination is transitive. -/
theorem Before.trans (hab : a.Before b) (hbc : b.Before c) : a.Before c := by
  unfold Before at *
  omega

/-- The order of examination compares any two edits. -/
theorem before_total (a b : Edit) : a.Before b ∨ b.Before a := by
  unfold Before
  omega

/-- The order of examination goes by the starts. -/
theorem Before.start_le (h : a.Before b) : a.start ≤ b.start := by
  unfold Before at h
  omega

/-- An edit that is extended comes before those that it came before. -/
theorem Before.extend {first : Edit} (h : a.Before b) (hstart : first.start = a.start)
    (hstop : a.stop ≤ first.stop) : first.Before b := by
  unfold Before at *
  omega

/-- The edit is made of given ones: it begins as one of them, and they cover what it covers. -/
structure GatheredFrom (edits : List Edit) (k : Edit) : Prop where
  first : ∃ a ∈ edits, a.start = k.start ∧ a.stop ≤ k.stop ∧ a.text = k.text ∧ a.kind = k.kind
  covered : ∀ i, k.Covers i → ∃ a ∈ edits, a.Covers i

/-- An edit is made of itself. -/
theorem gathered_of_mem (h : e ∈ edits) : e.GatheredFrom edits :=
  ⟨⟨e, h, rfl, Nat.le_refl _, rfl, rfl⟩, fun _ hi => ⟨e, h, hi⟩⟩

/-- Joining one more edit that overlaps keeps to the given ones. -/
theorem GatheredFrom.join (h : last.GatheredFrom edits) (he : e ∈ edits)
    (hoverlap : e.start < last.stop) (hbeyond : last.stop < e.stop) :
    (last.join e).GatheredFrom edits := by
  obtain ⟨a, ha, hstart, hstop, htext, hkind⟩ := h.first
  refine ⟨⟨a, ha, hstart, ?_, htext, hkind⟩, fun i hi => ?_⟩
  · show a.stop ≤ e.stop
    omega
  · obtain ⟨hstarted, hbefore⟩ := hi
    rcases Nat.lt_or_ge i last.stop with hinside | hpast
    · exact h.covered i ⟨hstarted, hinside⟩
    · exact ⟨e, he, by omega, hbefore⟩

end Edit

variable {last e k : Edit} {rest edits : List Edit}

/-- What the sweep does with the next edit. -/
inductive SweepStep (last e : Edit) (rest : List Edit) : Prop where
  | apart (order : last.stop ≤ e.start)
      (result : sweepFrom last (e :: rest) =
        ⟨last :: (sweepFrom e rest).kept, (sweepFrom e rest).log⟩)
  | nested (overlap : e.start < last.stop) (inside : e.stop ≤ last.stop)
      (result : sweepFrom last (e :: rest) =
        ⟨(sweepFrom last rest).kept, .detached e.kind e.start :: (sweepFrom last rest).log⟩)
  | joined (overlap : e.start < last.stop) (beyond : last.stop < e.stop)
      (delete : last.BothDelete e)
      (result : sweepFrom last (e :: rest) = sweepFrom (last.join e) rest)
  | overlapping (overlap : e.start < last.stop) (beyond : last.stop < e.stop)
      (write : ¬ last.BothDelete e)
      (result : sweepFrom last (e :: rest) =
        ⟨(sweepFrom last rest).kept,
          .overlapping e.kind e.start last.kind :: (sweepFrom last rest).log⟩)

/-- The sweep does one of four things with the next edit. -/
theorem sweep_from_step (last e : Edit) (rest : List Edit) : SweepStep last e rest := by
  by_cases horder : last.stop ≤ e.start
  · exact .apart horder (by rw [sweepFrom, if_pos horder])
  · have hoverlap := Nat.lt_of_not_le horder
    by_cases hinside : e.stop ≤ last.stop
    · exact .nested hoverlap hinside (by rw [sweepFrom, if_neg horder, if_pos hinside])
    · have hbeyond := Nat.lt_of_not_le hinside
      by_cases hdelete : last.BothDelete e
      · refine .joined hoverlap hbeyond hdelete ?_
        rw [sweepFrom, if_neg horder, if_neg hinside, if_pos hdelete]
      · refine .overlapping hoverlap hbeyond hdelete ?_
        rw [sweepFrom, if_neg horder, if_neg hinside, if_neg hdelete]

/-- What holds of the last edit kept and of those to come, and is kept by a join, holds of all edits
that are kept. -/
theorem sweep_from_invariant {P : Edit → Prop} (hlast : P last) (hrest : ∀ e ∈ rest, P e)
    (hjoin : ∀ a, ∀ e ∈ rest, P a → e.start < a.stop → a.stop < e.stop → P (a.join e))
    (hk : k ∈ (sweepFrom last rest).kept) : P k := by
  induction rest generalizing last with
  | nil =>
      obtain rfl := List.mem_singleton.mp hk
      exact hlast
  | cons e rest ih =>
      obtain ⟨he, hothers⟩ := List.forall_mem_cons.mp hrest
      have hjoins : ∀ a, ∀ e ∈ rest, P a → e.start < a.stop → a.stop < e.stop → P (a.join e) :=
        fun a b hb => hjoin a b (List.mem_cons_of_mem e hb)
      cases sweep_from_step last e rest with
      | apart order result =>
          rw [result] at hk
          rcases List.mem_cons.mp hk with rfl | hk
          · exact hlast
          · exact ih he hothers hjoins hk
      | nested overlap inside result =>
          rw [result] at hk
          exact ih hlast hothers hjoins hk
      | joined overlap beyond delete result =>
          rw [result] at hk
          exact ih (hjoin last e List.mem_cons_self hlast overlap beyond) hothers hjoins hk
      | overlapping overlap beyond write result =>
          rw [result] at hk
          exact ih hlast hothers hjoins hk

/-- The starts of the edits do not decrease. -/
def StartInOrder (edits : List Edit) : Prop := edits.Pairwise fun a b => a.start ≤ b.start

/-- Leaving out the second edit and extending the first keeps the order of examination. -/
theorem before_in_order_skip {first : Edit} (h : (last :: e :: rest).Pairwise Edit.Before)
    (hstart : first.start = last.start) (hstop : last.stop ≤ first.stop) :
    (first :: rest).Pairwise Edit.Before := by
  obtain ⟨hlast, hothers⟩ := List.pairwise_cons.mp h
  refine List.pairwise_cons.mpr ⟨fun k hk => ?_, (List.pairwise_cons.mp hothers).2⟩
  exact (hlast k (List.mem_cons_of_mem e hk)).extend hstart hstop

/-- No edit that is kept starts before the last one that was kept. -/
theorem start_le_sweep_from (hsorted : StartInOrder (last :: rest))
    (hk : k ∈ (sweepFrom last rest).kept) : last.start ≤ k.start :=
  sweep_from_invariant (P := fun k => last.start ≤ k.start) (Nat.le_refl _)
    (List.pairwise_cons.mp hsorted).1 (fun _ _ _ hle _ _ => hle) hk

/-- After an empty edit those that are kept at its place are empty, too. -/
theorem empty_of_sweep_from (hsorted : (last :: rest).Pairwise Edit.Before)
    (hempty : last.stop ≤ last.start) (hk : k ∈ (sweepFrom last rest).kept)
    (hstart : k.start = last.start) : k.stop ≤ k.start := by
  induction rest generalizing last with
  | nil =>
      obtain rfl := List.mem_singleton.mp hk
      exact hempty
  | cons e rest ih =>
      obtain ⟨hlast, hothers⟩ := List.pairwise_cons.mp hsorted
      have hbefore : last.Before e := hlast e List.mem_cons_self
      have hle := hbefore.start_le
      cases sweep_from_step last e rest with
      | apart order result =>
          rw [result] at hk
          rcases List.mem_cons.mp hk with rfl | hk
          · exact hempty
          · have hfirst := start_le_sweep_from (hothers.imp Edit.Before.start_le) hk
            have hnext : e.stop ≤ e.start := by
              unfold Edit.Before at hbefore
              omega
            exact ih hothers hnext hk (by omega)
      | nested overlap inside result => omega
      | joined overlap beyond delete result => omega
      | overlapping overlap beyond write result => omega

/-- Each edit that is kept clears those behind it. -/
theorem clears_sweep_from (hsorted : (last :: rest).Pairwise Edit.Before) :
    (sweepFrom last rest).kept.Pairwise Edit.Clears := by
  induction rest generalizing last with
  | nil => exact List.pairwise_singleton _ last
  | cons e rest ih =>
      obtain ⟨hlast, hothers⟩ := List.pairwise_cons.mp hsorted
      have hbefore : last.Before e := hlast e List.mem_cons_self
      cases sweep_from_step last e rest with
      | apart order result =>
          rw [result]
          refine List.pairwise_cons.mpr ⟨fun k hk => ?_, ih hothers⟩
          have hfirst := start_le_sweep_from (hothers.imp Edit.Before.start_le) hk
          refine ⟨Nat.le_trans order hfirst, fun htogether => ?_⟩
          -- The next edit begins where both do, so it is empty, as is all that is kept there.
          have hsame : e.start = last.start := by
            have hle := hbefore.start_le
            omega
          have hnext : e.stop ≤ e.start := by
            unfold Edit.Before at hbefore
            omega
          exact empty_of_sweep_from hothers hnext hk (hsame ▸ htogether.symm)
      | nested overlap inside result =>
          rw [result]
          exact ih (before_in_order_skip hsorted rfl (Nat.le_refl _))
      | joined overlap beyond delete result =>
          rw [result]
          exact ih (before_in_order_skip hsorted rfl (Nat.le_of_lt beyond))
      | overlapping overlap beyond write result =>
          rw [result]
          exact ih (before_in_order_skip hsorted rfl (Nat.le_refl _))

/-- The sorted edits are in the order of examination. -/
theorem before_in_order_merge_sort (edits : List Edit) :
    (edits.mergeSort fun a b => a.Before b).Pairwise Edit.Before := by
  have hsorted : (edits.mergeSort fun a b => a.Before b).Pairwise
      fun a b => decide (a.Before b) = true := by
    refine List.pairwise_mergeSort (fun a b c hab hbc => ?_) (fun a b => ?_) edits
    · exact decide_eq_true ((of_decide_eq_true hab).trans (of_decide_eq_true hbc))
    · simpa using Edit.before_total a b
  exact hsorted.imp of_decide_eq_true

/-- Each edit that a sweep keeps clears those behind it. -/
theorem clears_sweep (edits : List Edit) : (sweep edits).kept.Pairwise Edit.Clears := by
  have hsorted := before_in_order_merge_sort edits
  unfold sweep
  cases hedits : edits.mergeSort fun a b => a.Before b with
  | nil => exact List.Pairwise.nil
  | cons e rest =>
      rw [hedits] at hsorted
      exact clears_sweep_from hsorted

/-- A sweep keeps edits that follow one another without overlap. -/
theorem pairwise_sweep (edits : List Edit) : (sweep edits).kept.Pairwise Edit.Precedes :=
  (clears_sweep edits).imp fun hclears => hclears.1

/-- What holds of the given edits and is kept by a join holds of all edits that a sweep keeps. -/
theorem sweep_invariant {P : Edit → Prop} (h : ∀ e ∈ edits, P e)
    (hjoin : ∀ a, ∀ e ∈ edits, P a → e.start < a.stop → a.stop < e.stop → P (a.join e))
    (hk : k ∈ (sweep edits).kept) : P k := by
  have hgiven : ∀ e ∈ edits.mergeSort fun a b => a.Before b, e ∈ edits :=
    fun e he => List.mem_mergeSort.mp he
  unfold sweep at hk
  cases hedits : edits.mergeSort fun a b => a.Before b with
  | nil =>
      rw [hedits] at hk
      exact absurd hk List.not_mem_nil
  | cons first rest =>
      rw [hedits] at hk hgiven
      obtain ⟨hfirst, hrest⟩ := List.forall_mem_cons.mp hgiven
      exact sweep_from_invariant (h first hfirst) (fun e he => h e (hrest e he))
        (fun a e he => hjoin a e (hrest e he)) hk

/-- Every edit that a sweep keeps is made of given ones. -/
theorem gathered_sweep (hk : k ∈ (sweep edits).kept) : k.GatheredFrom edits :=
  sweep_invariant (fun _ he => Edit.gathered_of_mem he)
    (fun _ _ he hlast hoverlap hbeyond => hlast.join he hoverlap hbeyond) hk

end Excise
