import Excise.Proofs.Edit.Crossing
import Excise.Proofs.Edit.Substitution

/-!
# Sweeps of any edits

The edits need not come from a plan, and may nest, overlap and be empty in any way. Each of them is
settled by one that the sweep keeps (`settled_sweep`): it is kept and perhaps extended, lies inside
one that is kept, has joined it, or reaches beyond it where one of the two writes a text. What is
kept can be carried out from the back of the source to the front: whenever an edit has its turn, the
source up to the end of its range is as it was (`keeps_offsets_of_clears`). `sweep_settles_all` says
this of every list of edits.
-/

namespace Excise

namespace Edit

variable {a e k last : Edit} {kept : List Edit}

/-- The edit begins as another one, with its text and kind, and reaches at least as far. -/
structure Extends (k e : Edit) : Prop where
  start_eq : k.start = e.start
  stop_le : e.stop ≤ k.stop
  text_eq : k.text = e.text
  kind_eq : k.kind = e.kind

/-- An edit extends itself. -/
theorem extends_refl (e : Edit) : e.Extends e := ⟨rfl, Nat.le_refl _, rfl, rfl⟩

/-- A join extends the edit that it begins as. -/
theorem extends_join (h : last.stop < e.stop) : (last.join e).Extends last :=
  ⟨rfl, Nat.le_of_lt h, rfl, rfl⟩

/-- What extends an extension of an edit extends the edit. -/
theorem Extends.trans (hka : k.Extends a) (hae : a.Extends e) : k.Extends e where
  start_eq := hka.start_eq.trans hae.start_eq
  stop_le := Nat.le_trans hae.stop_le hka.stop_le
  text_eq := hka.text_eq.trans hae.text_eq
  kind_eq := hka.kind_eq.trans hae.kind_eq

/-- The edit starts inside another one and ends beyond it. -/
def ReachesBeyond (e k : Edit) : Prop := k.start ≤ e.start ∧ e.start < k.stop ∧ k.stop < e.stop

/-- What has become of an edit where these are kept: it is one of them, perhaps extended; it lies
inside one of them; it has joined one, as both only delete; or it reaches beyond one and may not
join it. -/
inductive IsSettledIn (kept : List Edit) (e : Edit) : Prop where
  | kept (k : Edit) (mem : k ∈ kept) (begins : k.Extends e)
  | nested (k : Edit) (mem : k ∈ kept) (inside : k.Spans e)
  | joined (k : Edit) (mem : k ∈ kept) (inside : k.Spans e) (delete : k.BothDelete e)
  | overlapping (k : Edit) (mem : k ∈ kept) (beyond : e.ReachesBeyond k) (write : ¬ k.BothDelete e)

/-- An edit that is settled stays so where more edits are kept. -/
theorem IsSettledIn.cons (h : e.IsSettledIn kept) (first : Edit) :
    e.IsSettledIn (first :: kept) := by
  cases h with
  | kept k mem begins => exact .kept k (List.mem_cons_of_mem first mem) begins
  | nested k mem inside => exact .nested k (List.mem_cons_of_mem first mem) inside
  | joined k mem inside delete => exact .joined k (List.mem_cons_of_mem first mem) inside delete
  | overlapping k mem beyond write =>
      exact .overlapping k (List.mem_cons_of_mem first mem) beyond write

/-- An edit that starts inside one that is extended, and may not join it, is settled by the
extension. -/
theorem Extends.settles (h : k.Extends last) (hk : k ∈ kept) (hstart : last.start ≤ e.start)
    (hoverlap : e.start < last.stop) (hwrite : ¬ last.BothDelete e) : e.IsSettledIn kept := by
  have hfirst := h.start_eq
  have hlast := h.stop_le
  by_cases hinside : e.stop ≤ k.stop
  · refine .nested k hk ⟨?_, hinside⟩
    omega
  · refine .overlapping k hk ⟨?_, ?_, ?_⟩ ?_
    · omega
    · omega
    · omega
    · intro hboth
      exact hwrite ⟨h.text_eq ▸ hboth.1, hboth.2⟩

end Edit

variable {last e k : Edit} {rest edits : List Edit} {source : Bytes}

/-! ## What becomes of each edit -/

/-- The last edit kept begins one of those that are kept in the end. -/
theorem extends_sweep_from (last : Edit) (rest : List Edit) :
    ∃ k ∈ (sweepFrom last rest).kept, k.Extends last := by
  induction rest generalizing last with
  | nil => exact ⟨last, List.mem_singleton_self last, Edit.extends_refl last⟩
  | cons e rest ih =>
      cases sweep_from_step last e rest with
      | apart order result =>
          rw [result]
          exact ⟨last, List.mem_cons_self, Edit.extends_refl last⟩
      | nested overlap inside result =>
          rw [result]
          exact ih last
      | joined overlap beyond delete result =>
          obtain ⟨k, hk, hextends⟩ := ih (last.join e)
          rw [result]
          exact ⟨k, hk, hextends.trans (Edit.extends_join beyond)⟩
      | overlapping overlap beyond write result =>
          rw [result]
          exact ih last

/-- What the sweep does with the next edit settles it. -/
theorem settled_sweep_step (hstart : last.start ≤ e.start) :
    e.IsSettledIn (sweepFrom last (e :: rest)).kept := by
  cases sweep_from_step last e rest with
  | apart order result =>
      obtain ⟨k, hk, hextends⟩ := extends_sweep_from e rest
      rw [result]
      exact .kept k (List.mem_cons_of_mem last hk) hextends
  | nested overlap inside result =>
      obtain ⟨k, hk, hextends⟩ := extends_sweep_from last rest
      rw [result]
      refine .nested k hk ⟨?_, Nat.le_trans inside hextends.stop_le⟩
      exact hextends.start_eq ▸ hstart
  | joined overlap beyond delete result =>
      obtain ⟨k, hk, hextends⟩ := extends_sweep_from (last.join e) rest
      rw [result]
      refine .joined k hk ⟨?_, hextends.stop_le⟩ ⟨?_, delete.2⟩
      · exact hextends.start_eq ▸ hstart
      · exact hextends.text_eq.trans delete.1
  | overlapping overlap beyond write result =>
      obtain ⟨k, hk, hextends⟩ := extends_sweep_from last rest
      rw [result]
      exact hextends.settles hk hstart overlap write

/-- Each edit that the sweep still has to look at is settled by those that it keeps. -/
theorem settled_sweep_from (hsorted : StartInOrder (last :: rest)) (he : e ∈ rest) :
    e.IsSettledIn (sweepFrom last rest).kept := by
  induction rest generalizing last with
  | nil => exact absurd he List.not_mem_nil
  | cons next rest ih =>
      obtain ⟨hlast, hothers⟩ := List.pairwise_cons.mp hsorted
      -- A join begins where the last edit kept begins, so both are followed in order by the rest.
      have hskip : ∀ first : Edit, first.start = last.start → StartInOrder (first :: rest) := by
        intro first hfirst
        refine List.pairwise_cons.mpr ⟨fun k hk => ?_, (List.pairwise_cons.mp hothers).2⟩
        exact hfirst ▸ hlast k (List.mem_cons_of_mem next hk)
      rcases List.mem_cons.mp he with rfl | he
      · exact settled_sweep_step (hlast e List.mem_cons_self)
      · cases sweep_from_step last next rest with
        | apart order result =>
            rw [result]
            exact (ih hothers he).cons last
        | nested overlap inside result =>
            rw [result]
            exact ih (hskip last rfl) he
        | joined overlap beyond delete result =>
            rw [result]
            exact ih (hskip (last.join next) rfl) he
        | overlapping overlap beyond write result =>
            rw [result]
            exact ih (hskip last rfl) he

/-- Each edit is settled by those that a sweep keeps. -/
theorem settled_sweep (he : e ∈ edits) : e.IsSettledIn (sweep edits).kept := by
  have hsorted := (before_in_order_merge_sort edits).imp Edit.Before.start_le
  have hmem : e ∈ edits.mergeSort fun a b => a.Before b := List.mem_mergeSort.mpr he
  unfold sweep
  cases hedits : edits.mergeSort fun a b => a.Before b with
  | nil =>
      rw [hedits] at hmem
      exact absurd hmem List.not_mem_nil
  | cons first rest =>
      rw [hedits] at hmem hsorted
      rcases List.mem_cons.mp hmem with rfl | hrest
      · obtain ⟨k, hk, hextends⟩ := extends_sweep_from e rest
        exact .kept k hk hextends
      · exact settled_sweep_from hsorted hrest

/-- Edits that only delete are joined until they cover what they covered. -/
theorem covered_sweep_iff (hdelete : ∀ e ∈ edits, e.text = []) (i : Nat) :
    (∃ k ∈ (sweep edits).kept, k.Covers i) ↔ ∃ e ∈ edits, e.Covers i := by
  constructor
  · rintro ⟨k, hk, hcovers⟩
    exact (gathered_sweep hk).covered i hcovers
  · rintro ⟨e, he, hfirst, hlast⟩
    have hcross : OnlyDeletionsCross edits := fun a ha b hb _ => ⟨hdelete a ha, hdelete b hb⟩
    obtain ⟨k, hk, hstart, hstop⟩ := (sweep_drops_none hcross).2 e he
    exact ⟨k, hk, Nat.le_trans hstart hfirst, Nat.lt_of_lt_of_le hlast hstop⟩

/-! ## Carrying out what is kept -/

/-- The edits in the order in which they are carried out. -/
def backToFront (edits : List Edit) : List Edit := edits.mergeSort fun a b => b.start ≤ a.start

/-- Whenever one of the edits has its turn, the source up to the end of its range is as it was. -/
def KeepsOffsets (source : Bytes) (edits : List Edit) : Prop :=
  ∀ done e later, edits = done ++ e :: later →
    (done.foldl Edit.splice source).take e.stop = source.take e.stop

/-- Carrying out edits behind an offset leaves the source up to there, and substitutes behind it. -/
theorem foldl_splice_behind {offset : Nat}
    (hbehind : edits.Pairwise fun a b => b.stop ≤ a.start) (hfits : ∀ e ∈ edits, e.FitsIn source)
    (hoffset : ∀ e ∈ edits, offset ≤ e.start) :
    edits.foldl Edit.splice source =
      source.take offset ++ substituteFrom source offset edits.reverse := by
  have hreverse : edits.reverse.Pairwise Edit.Precedes := List.pairwise_reverse.mpr hbehind
  rw [← foldr_splice hreverse (fun e he => hfits e (List.mem_reverse.mp he))
    (fun e he => hoffset e (List.mem_reverse.mp he)), List.foldr_reverse]

/-- Edits that clear each other keep the offsets of those that have not had their turn. -/
theorem keeps_offsets_of_clears (hclears : edits.Pairwise Edit.Clears)
    (hfits : ∀ e ∈ edits, e.FitsIn source) : KeepsOffsets source (backToFront edits) := by
  intro done e later hsplit
  have hmem : ∀ k ∈ backToFront edits, k ∈ edits := fun k hk => List.mem_mergeSort.mp hk
  have hbehind := merge_sort_behind hclears fun k hk => (hfits k hk).1
  change (backToFront edits).Pairwise _ at hbehind
  rw [hsplit] at hbehind hmem
  obtain ⟨hdone, -, hbefore⟩ := List.pairwise_append.mp hbehind
  have hlength : (source.take e.stop).length = e.stop := by
    have := (hfits e (hmem e (List.mem_append_right done List.mem_cons_self))).2
    rw [List.length_take]
    omega
  rw [foldl_splice_behind hdone (fun k hk => hfits k (hmem k (List.mem_append_left _ hk)))
    fun k hk => hbefore k hk e List.mem_cons_self]
  exact List.take_left' hlength

/-- So their texts come to stand in the place of their ranges, from left to right. -/
theorem splice_all_of_clears (hclears : edits.Pairwise Edit.Clears)
    (hfits : ∀ e ∈ edits, e.FitsIn source) :
    spliceAll source edits = substitute source (backToFront edits).reverse := by
  have hbehind := merge_sort_behind hclears fun k hk => (hfits k hk).1
  exact foldl_splice_behind hbehind (fun k hk => hfits k (List.mem_mergeSort.mp hk))
    fun k _ => Nat.zero_le k.start

/-- The edits that a sweep keeps are ranges of the source if those that it was given are. -/
theorem fits_sweep (hfits : ∀ e ∈ edits, e.FitsIn source) (hk : k ∈ (sweep edits).kept) :
    k.FitsIn source := by
  refine sweep_invariant hfits (fun last e he hlast _ hbeyond => ?_) hk
  exact ⟨Nat.le_trans hlast.1 (Nat.le_of_lt hbeyond), (hfits e he).2⟩

/-- A sweep keeps edits that follow one another without overlap, each of them made of given ones,
and settles every given edit. Edits that only delete lose none of what they cover. What is kept is
carried out from the back of any source that holds the ranges, no offset is out of date when its
edit has its turn, and the texts come to stand in the place of the ranges, from left to right. -/
theorem sweep_settles_all (edits : List Edit) (h : ∀ e ∈ edits, e.start ≤ e.stop) :
    StartInOrder (sweep edits).kept ∧ (sweep edits).kept.Pairwise Edit.Precedes ∧
      (∀ k ∈ (sweep edits).kept, k.start ≤ k.stop ∧ k.GatheredFrom edits) ∧
      (∀ e ∈ edits, e.IsSettledIn (sweep edits).kept) ∧
      ((∀ e ∈ edits, e.text = []) →
        ∀ i, (∃ k ∈ (sweep edits).kept, k.Covers i) ↔ ∃ e ∈ edits, e.Covers i) ∧
      ∀ source : Bytes, (∀ e ∈ edits, e.stop ≤ source.length) →
        KeepsOffsets source (backToFront (sweep edits).kept) ∧
          ∃ ordered : List Edit, ordered.Perm (sweep edits).kept ∧
            ordered.Pairwise Edit.Precedes ∧
            spliceAll source (sweep edits).kept = substitute source ordered := by
  have hclears := clears_sweep edits
  have hranges : ∀ k ∈ (sweep edits).kept, k.start ≤ k.stop := fun k hk =>
    sweep_invariant h (fun last e _ hlast _ hbeyond => Nat.le_trans hlast (Nat.le_of_lt hbeyond)) hk
  have hstarts : StartInOrder (sweep edits).kept := by
    refine (pairwise_sweep edits).imp_of_mem fun {a b} ha _ hprecedes => ?_
    exact Nat.le_trans (hranges a ha) hprecedes
  refine ⟨hstarts, pairwise_sweep edits, fun k hk => ⟨hranges k hk, gathered_sweep hk⟩,
    fun e he => settled_sweep he, covered_sweep_iff, fun source hsource => ?_⟩
  have hfits : ∀ k ∈ (sweep edits).kept, k.FitsIn source := fun k hk =>
    fits_sweep (fun e he => ⟨h e he, hsource e he⟩) hk
  refine ⟨keeps_offsets_of_clears hclears hfits, (backToFront (sweep edits).kept).reverse, ?_, ?_,
    splice_all_of_clears hclears hfits⟩
  · exact (List.reverse_perm _).trans (List.mergeSort_perm _ _)
  · exact List.pairwise_reverse.mpr (merge_sort_behind hclears hranges)

/-- Two deletions that cross, a text that crosses the second one, and an insertion behind that. -/
def crossingEdits : List Edit :=
  [⟨0, 4, [], .statement, 1⟩, ⟨2, 6, [], .item, 1⟩, ⟨5, 8, [0x78], .replacement, 1⟩,
    ⟨7, 7, [0x79], .replacement, 1⟩]

/-- The deletions are joined, the text that crosses them is left out, and the insertion stays. -/
theorem crossing_edits_settled :
    (sweep crossingEdits).kept = [⟨0, 6, [], .statement, 2⟩, ⟨7, 7, [0x79], .replacement, 1⟩] ∧
      (∀ e ∈ crossingEdits, e.IsSettledIn (sweep crossingEdits).kept) ∧
      KeepsOffsets (Bytes.ofText "abcdefgh") (backToFront (sweep crossingEdits).kept) := by
  have hranges : ∀ e ∈ crossingEdits, e.start ≤ e.stop := by decide
  have hsource : ∀ e ∈ crossingEdits, e.stop ≤ (Bytes.ofText "abcdefgh").length := by
    decide +kernel
  have hordered : (crossingEdits.mergeSort fun a b => a.Before b) = crossingEdits :=
    List.mergeSort_of_pairwise (by decide)
  obtain ⟨-, -, -, hsettled, -, hcarried⟩ := sweep_settles_all crossingEdits hranges
  refine ⟨?_, hsettled, (hcarried _ hsource).1⟩
  rw [sweep, hordered]
  rfl

end Excise
