import Excise.Proofs.Edit.Sweep

/-!
# Sweeps that drop no edit

A sweep drops an edit that crosses the last one kept and may not join it. Where of two edits that
cross both only delete (`OnlyDeletionsCross`), this never happens: every edit lies inside one that
is kept (`spanned_sweep`), and no overlap is reported (`no_overlap_sweep`). The last edit kept may
be several joined ones; it ends as the last that joined, which is the one that the next edit
crosses.
-/

namespace Excise

namespace Edit

variable {a b e k last : Edit}

/-- The first edit starts first and ends inside the second. -/
def Crosses (a b : Edit) : Prop := a.start < b.start ∧ b.start < a.stop ∧ a.stop < b.stop

/-- The range of the edit holds that of another. -/
def Spans (k e : Edit) : Prop := k.start ≤ e.start ∧ e.stop ≤ k.stop

/-- What holds a range holds what this holds. -/
theorem Spans.trans (hab : a.Spans b) (hbe : b.Spans e) : a.Spans e := by
  unfold Spans at *
  omega

/-- A join holds the edit that it extends. -/
theorem spans_join (h : last.stop < e.stop) : (last.join e).Spans last :=
  ⟨Nat.le_refl _, Nat.le_of_lt h⟩

/-- A join holds an edit that starts later. -/
theorem join_spans (h : last.start ≤ e.start) : (last.join e).Spans e :=
  ⟨h, Nat.le_refl _⟩

/-- The edit ends as `a` does, and deletes only if `a` does. -/
structure EndsAs (last a : Edit) : Prop where
  stop_eq : last.stop = a.stop
  deletes : a.text = [] → last.text = []

end Edit

variable {last e k a : Edit} {rest edits : List Edit}

/-- Of two edits that cross both only delete. -/
def OnlyDeletionsCross (edits : List Edit) : Prop :=
  ∀ a ∈ edits, ∀ b ∈ edits, a.Crosses b → a.BothDelete b

/-- The next edit joins the last one kept if it overlaps it and reaches beyond. -/
theorem OnlyDeletionsCross.joins (h : OnlyDeletionsCross edits) (hends : last.EndsAs a)
    (ha : a ∈ edits) (he : e ∈ edits) (horder : a.Before e) (hoverlap : e.start < last.stop)
    (hbeyond : last.stop < e.stop) : last.BothDelete e := by
  have hcross : a.Crosses e := by
    have hstop := hends.stop_eq
    unfold Edit.Before at horder
    unfold Edit.Crosses
    omega
  obtain ⟨hdeletes, hother⟩ := h a ha e he hcross
  exact ⟨hends.deletes hdeletes, hother⟩

/-- What the sweep has come to: the last edit kept ends as one of the given edits, which the rest
follow in order. -/
structure SweepsOrderly (edits : List Edit) (last : Edit) (rest : List Edit) : Prop where
  ends : ∃ a ∈ edits, last.EndsAs a ∧ ∀ e ∈ rest, a.Before e
  subset : rest ⊆ edits
  ordered : rest.Pairwise Edit.Before
  starts : ∀ e ∈ rest, last.start ≤ e.start

/-- The next edit becomes the last one kept. -/
theorem SweepsOrderly.next (h : SweepsOrderly edits last (e :: rest)) :
    SweepsOrderly edits e rest where
  ends := ⟨e, h.subset List.mem_cons_self, ⟨rfl, id⟩, (List.pairwise_cons.mp h.ordered).1⟩
  subset := (List.cons_subset.mp h.subset).2
  ordered := (List.pairwise_cons.mp h.ordered).2
  starts := fun k hk => ((List.pairwise_cons.mp h.ordered).1 k hk).start_le

/-- The next edit is left out. -/
theorem SweepsOrderly.skip (h : SweepsOrderly edits last (e :: rest)) :
    SweepsOrderly edits last rest where
  ends := by
    obtain ⟨a, ha, hends, hbefore⟩ := h.ends
    exact ⟨a, ha, hends, fun k hk => hbefore k (List.mem_cons_of_mem e hk)⟩
  subset := (List.cons_subset.mp h.subset).2
  ordered := (List.pairwise_cons.mp h.ordered).2
  starts := fun k hk => h.starts k (List.mem_cons_of_mem e hk)

/-- The next edit joins the last one kept. -/
theorem SweepsOrderly.join (h : SweepsOrderly edits last (e :: rest))
    (hdelete : last.BothDelete e) : SweepsOrderly edits (last.join e) rest where
  ends := by
    obtain ⟨he, -⟩ := List.cons_subset.mp h.subset
    exact ⟨e, he, ⟨rfl, fun _ => hdelete.1⟩, (List.pairwise_cons.mp h.ordered).1⟩
  subset := (List.cons_subset.mp h.subset).2
  ordered := (List.pairwise_cons.mp h.ordered).2
  starts := fun k hk => h.starts k (List.mem_cons_of_mem e hk)

/-- The sweep comes to no overlap, and every edit lies inside one that it keeps. -/
theorem sweep_from_drops_none (hcross : OnlyDeletionsCross edits)
    (h : SweepsOrderly edits last rest) :
    (∀ kind start previous, .overlapping kind start previous ∉ (sweepFrom last rest).log) ∧
      ∀ e, e = last ∨ e ∈ rest → ∃ k ∈ (sweepFrom last rest).kept, k.Spans e := by
  induction rest generalizing last with
  | nil =>
      refine ⟨fun kind start previous => List.not_mem_nil, fun e he => ?_⟩
      obtain rfl := he.resolve_right List.not_mem_nil
      exact ⟨e, List.mem_singleton_self e, Nat.le_refl _, Nat.le_refl _⟩
  | cons next rest ih =>
      cases sweep_from_step last next rest with
      | apart order result =>
          obtain ⟨hlog, hspanned⟩ := ih h.next
          rw [result]
          refine ⟨hlog, fun e he => ?_⟩
          rcases he with rfl | he
          · exact ⟨e, List.mem_cons_self, Nat.le_refl _, Nat.le_refl _⟩
          · obtain ⟨k, hk, hspans⟩ := hspanned e (List.mem_cons.mp he)
            exact ⟨k, List.mem_cons_of_mem last hk, hspans⟩
      | nested overlap inside result =>
          obtain ⟨hlog, hspanned⟩ := ih h.skip
          rw [result]
          refine ⟨fun kind start previous hmem => ?_, fun e he => ?_⟩
          · rcases List.mem_cons.mp hmem with heq | hmem
            · cases heq
            · exact hlog kind start previous hmem
          · obtain ⟨k, hk, hspans⟩ := hspanned last (.inl rfl)
            rcases he with rfl | he
            · exact ⟨k, hk, hspans⟩
            · rcases List.mem_cons.mp he with rfl | he
              · exact ⟨k, hk, hspans.trans ⟨h.starts e List.mem_cons_self, inside⟩⟩
              · exact hspanned e (.inr he)
      | joined overlap beyond delete result =>
          obtain ⟨hlog, hspanned⟩ := ih (h.join delete)
          rw [result]
          refine ⟨hlog, fun e he => ?_⟩
          obtain ⟨k, hk, hspans⟩ := hspanned _ (.inl rfl)
          rcases he with rfl | he
          · exact ⟨k, hk, hspans.trans (Edit.spans_join beyond)⟩
          · rcases List.mem_cons.mp he with rfl | he
            · exact ⟨k, hk, hspans.trans (Edit.join_spans (h.starts e List.mem_cons_self))⟩
            · exact hspanned e (.inr he)
      | overlapping overlap beyond write result =>
          obtain ⟨a, ha, hends, hbefore⟩ := h.ends
          exact absurd (hcross.joins hends ha (h.subset List.mem_cons_self)
            (hbefore next List.mem_cons_self) overlap beyond) write

/-- Where only deletions cross, a sweep reports no overlap, and every edit lies inside one that it
keeps. -/
theorem sweep_drops_none (hcross : OnlyDeletionsCross edits) :
    (∀ kind start previous, .overlapping kind start previous ∉ (sweep edits).log) ∧
      ∀ e ∈ edits, ∃ k ∈ (sweep edits).kept, k.Spans e := by
  have hsorted := before_in_order_merge_sort edits
  have hgiven : ∀ e, e ∈ (edits.mergeSort fun a b => a.Before b) ↔ e ∈ edits :=
    fun e => List.mem_mergeSort
  unfold sweep
  cases hedits : edits.mergeSort fun a b => a.Before b with
  | nil =>
      refine ⟨fun kind start previous => List.not_mem_nil, fun e he => ?_⟩
      rw [hedits] at hgiven
      exact absurd ((hgiven e).mpr he) List.not_mem_nil
  | cons first rest =>
      rw [hedits] at hsorted hgiven
      obtain ⟨hfirst, hrest⟩ := List.pairwise_cons.mp hsorted
      have horderly : SweepsOrderly edits first rest :=
        ⟨⟨first, (hgiven first).mp List.mem_cons_self, ⟨rfl, id⟩, hfirst⟩,
          fun e he => (hgiven e).mp (List.mem_cons_of_mem first he), hrest,
          fun e he => (hfirst e he).start_le⟩
      obtain ⟨hlog, hspanned⟩ := sweep_from_drops_none hcross horderly
      exact ⟨hlog, fun e he => hspanned e (List.mem_cons.mp ((hgiven e).mpr he))⟩

end Excise
