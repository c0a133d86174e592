import Excise.Proofs.Edit.Sweep
import Mathlib.Data.List.Basic

/-!
# Substitution from left to right

`substitute` copies a source and writes the texts of edits in the place of their ranges, which are
given from left to right. Where the ranges are disjoint and not empty, carrying out the edits from
the back of the source to the front gives the same (`splice_all_eq_substitute`). All bytes outside
the ranges are copied in order (`bytes_outside_sublist`).
-/

namespace Excise

/-- The source from an offset on, with the texts of edits in the place of their ranges. -/
def substituteFrom (source : Bytes) (offset : Nat) : List Edit → Bytes
  | [] => source.drop offset
  | e :: rest => source.slice offset e.start ++ e.text ++ substituteFrom source e.stop rest

/-- The source with the texts of edits in the place of their ranges. -/
def substitute (source : Bytes) (edits : List Edit) : Bytes := substituteFrom source 0 edits

variable {source : Bytes} {e k : Edit} {rest edits : List Edit} {offset : Nat}

/-- The range of the edit is a range of the source and not empty. -/
def Edit.IsWithin (source : Bytes) (e : Edit) : Prop :=
  e.start < e.stop ∧ e.stop ≤ source.length

/-- Two offsets are compared twice. -/
instance (source : Bytes) (e : Edit) : Decidable (e.IsWithin source) :=
  inferInstanceAs (Decidable (_ ∧ _))

/-- The range of the edit is a range of the source, which may be empty. -/
def Edit.FitsIn (source : Bytes) (e : Edit) : Prop :=
  e.start ≤ e.stop ∧ e.stop ≤ source.length

/-- A range that is not empty is a range. -/
theorem Edit.IsWithin.fits (h : e.IsWithin source) : e.FitsIn source :=
  ⟨Nat.le_of_lt h.1, h.2⟩

/-- A front of the source and the slice after it are a longer front. -/
theorem take_append_slice {start stop : Nat} (h : start ≤ stop) :
    source.take start ++ source.slice start stop = source.take stop := by
  have hsplit : stop = start + (stop - start) := by omega
  rw [Bytes.slice, hsplit, List.take_add, Nat.add_sub_cancel_left]

/-- The source from an offset on is a slice and what follows it. -/
theorem drop_eq_slice_append {start stop : Nat} (h : start ≤ stop) :
    source.drop start = source.slice start stop ++ source.drop stop := by
  have hsplit : source.drop stop = (source.drop start).drop (stop - start) := by
    rw [List.drop_drop, Nat.add_sub_cancel' h]
  rw [hsplit, Bytes.slice, List.take_append_drop]

/-- A slice that ends within the source is as long as its offsets say. -/
theorem length_slice {start stop : Nat} (h : stop ≤ source.length) :
    (source.slice start stop).length = stop - start := by
  rw [Bytes.slice, List.length_take, List.length_drop]
  omega

/-- Carrying out an edit in a front of the source puts its text between what is before its range and
what is behind. -/
theorem splice_take_append_of_le {length : Nat} (hstart : e.start ≤ e.stop) (hstop : e.stop ≤ length)
    (hlength : length ≤ source.length) (behind : Bytes) :
    Edit.splice (source.take length ++ behind) e =
      source.take e.start ++ (e.text ++ (source.slice e.stop length ++ behind)) := by
  have hfront : (source.take length).length = length := by
    rw [List.length_take]
    omega
  have hmax : max e.start e.stop = e.stop := by omega
  unfold Edit.splice
  rw [hmax, List.take_append_of_le_length (by omega), List.take_take, Nat.min_eq_left (by omega),
    List.drop_append_of_le_length (by omega), List.drop_take, List.append_assoc]
  rfl

/-- Carrying out the first edit after those behind it writes its text. -/
theorem splice_take_append (h : e.FitsIn source) (behind : Bytes) :
    Edit.splice (source.take e.stop ++ behind) e = source.take e.start ++ e.text ++ behind := by
  rw [splice_take_append_of_le h.1 (Nat.le_refl _) h.2,
    Bytes.slice_of_le _ (Nat.le_refl _), List.nil_append, List.append_assoc]

/-- Carrying out edits from the back leaves the source before them and substitutes from there. -/
theorem foldr_splice (hdisjoint : edits.Pairwise Edit.Precedes)
    (hfits : ∀ e ∈ edits, e.FitsIn source) (hoffset : ∀ e ∈ edits, offset ≤ e.start) :
    edits.foldr (fun e behind => Edit.splice behind e) source =
      source.take offset ++ substituteFrom source offset edits := by
  induction edits generalizing offset with
  | nil => exact (List.take_append_drop offset source).symm
  | cons e rest ih =>
      obtain ⟨hfirst, hothers⟩ := List.pairwise_cons.mp hdisjoint
      obtain ⟨he, hrest⟩ := List.forall_mem_cons.mp hfits
      have hbefore : offset ≤ e.start := hoffset e List.mem_cons_self
      rw [List.foldr_cons, ih hothers hrest hfirst, splice_take_append he, substituteFrom,
        ← List.append_assoc, ← List.append_assoc, take_append_slice hbefore]

/-- The starts of the edits do not increase in the order in which they are carried out. -/
theorem carried_out_from_back (edits : List Edit) :
    (edits.mergeSort fun a b => b.start ≤ a.start).Pairwise fun a b => b.start ≤ a.start := by
  have hsorted : (edits.mergeSort fun a b => b.start ≤ a.start).Pairwise
      fun a b => decide (b.start ≤ a.start) = true := by
    refine List.pairwise_mergeSort (fun a b c hab hbc => ?_) (fun a b => ?_) edits
    · exact decide_eq_true (Nat.le_trans (of_decide_eq_true hbc) (of_decide_eq_true hab))
    · simpa using Nat.le_total b.start a.start
  exact hsorted.imp of_decide_eq_true

/-- Edits that clear each other are carried out one before the other. -/
theorem merge_sort_behind (hclears : edits.Pairwise Edit.Clears)
    (hordered : ∀ e ∈ edits, e.start ≤ e.stop) :
    (edits.mergeSort fun a b => b.start ≤ a.start).Pairwise fun a b => b.stop ≤ a.start := by
  have hperm := List.mergeSort_perm edits fun a b => b.start ≤ a.start
  have heither : (edits.mergeSort fun a b => b.start ≤ a.start).Pairwise
      fun a b => a.Clears b ∨ b.Clears a :=
    (hperm.pairwise_iff Or.symm).mpr (hclears.imp Or.inl)
  refine ((carried_out_from_back edits).and heither).imp_of_mem ?_
  rintro a b ha - ⟨hle, hclear | hclear⟩
  · have hordered := hordered a (hperm.mem_iff.mp ha)
    obtain ⟨hstop, hempty⟩ := hclear
    have := hempty (by omega)
    omega
  · exact hclear.1

/-- Disjoint ranges that are not empty, from left to right, are carried out in reverse. -/
theorem merge_sort_eq_reverse (hdisjoint : edits.Pairwise Edit.Precedes)
    (hwithin : ∀ e ∈ edits, e.IsWithin source) :
    (edits.mergeSort fun a b => b.start ≤ a.start) = edits.reverse := by
  have hincreasing : edits.Pairwise fun a b => a.start < b.start := by
    refine hdisjoint.imp_of_mem fun {a b} ha _ hab => ?_
    exact Nat.lt_of_lt_of_le (hwithin a ha).1 hab
  have hperm := List.mergeSort_perm edits fun a b => b.start ≤ a.start
  have hdistinct : (edits.mergeSort fun a b => b.start ≤ a.start).Pairwise
      fun a b => a.start ≠ b.start := by
    refine (hperm.pairwise_iff fun h => h.symm).mpr ?_
    exact hincreasing.imp fun h => Nat.ne_of_lt h
  -- Starts that do not increase and are distinct decrease, which leaves one order only.
  have hdecreasing : (edits.mergeSort fun a b => b.start ≤ a.start).Pairwise
      fun a b => b.start < a.start := by
    refine (carried_out_from_back edits).imp₂ (fun a b hle hne => ?_) hdistinct
    exact Nat.lt_of_le_of_ne hle hne.symm
  refine List.Perm.eq_of_pairwise (fun a b _ _ hab hba => ?_) hdecreasing
    (List.pairwise_reverse.mpr hincreasing) (hperm.trans (List.reverse_perm edits).symm)
  exact absurd hba (Nat.lt_asymm hab)

/-- Carrying out disjoint edits from the back of the source to the front substitutes their texts
from left to right. -/
theorem splice_all_eq_substitute (hdisjoint : edits.Pairwise Edit.Precedes)
    (hwithin : ∀ e ∈ edits, e.IsWithin source) :
    spliceAll source edits = substitute source edits := by
  unfold spliceAll
  rw [merge_sort_eq_reverse hdisjoint hwithin, List.foldl_reverse,
    foldr_splice hdisjoint (fun e he => (hwithin e he).fits) fun e _ => Nat.zero_le e.start]
  rfl

/-- No edit covers the offset. -/
def IsOutside (edits : List Edit) (i : Nat) : Prop := ∀ e ∈ edits, ¬ e.Covers i

/-- The ranges are looked at one by one. -/
instance (edits : List Edit) (i : Nat) : Decidable (IsOutside edits i) :=
  inferInstanceAs (Decidable (∀ e ∈ edits, ¬ e.Covers i))

/-- The bytes of a stretch of source at an offset that no edit covers, in order. -/
def bytesOutside (edits : List Edit) (stretch : Bytes) (offset : Nat) : Bytes :=
  ((stretch.zipIdx offset).filter fun x => IsOutside edits x.2).map (·.1)

/-- The bytes outside the ranges, stretch by stretch. -/
theorem bytes_outside_append (edits : List Edit) (front back : Bytes) (offset : Nat) :
    bytesOutside edits (front ++ back) offset =
      bytesOutside edits front offset ++ bytesOutside edits back (offset + front.length) := by
  unfold bytesOutside
  rw [List.zipIdx_append, List.filter_append, List.map_append]

/-- The bytes outside the ranges are bytes of the stretch, in order. -/
theorem bytes_outside_sublist_stretch (edits : List Edit) (stretch : Bytes) (offset : Nat) :
    (bytesOutside edits stretch offset).Sublist stretch := by
  have hfilter : ((stretch.zipIdx offset).filter fun x => IsOutside edits x.2).Sublist
      (stretch.zipIdx offset) := List.filter_sublist
  have hmap := hfilter.map (·.1)
  rwa [List.zipIdx_map_fst] at hmap

/-- Within a range no byte is outside. -/
theorem bytes_outside_slice (he : e ∈ edits) :
    bytesOutside edits (source.slice e.start e.stop) e.start = [] := by
  unfold bytesOutside
  rw [List.map_eq_nil_iff, List.filter_eq_nil_iff]
  intro x hx houtside
  have hlength : (source.slice e.start e.stop).length ≤ e.stop - e.start :=
    List.length_take_le _ _
  have hstart := List.le_snd_of_mem_zipIdx hx
  have hstop := List.snd_lt_add_of_mem_zipIdx hx
  exact of_decide_eq_true houtside e he ⟨hstart, by omega⟩

/-- Fewer ranges leave more bytes outside. -/
theorem bytes_outside_cons_sublist (stretch : Bytes) :
    (bytesOutside (e :: edits) stretch offset).Sublist (bytesOutside edits stretch offset) := by
  refine List.Sublist.map _ (List.monotone_filter_right _ fun x hx => ?_)
  exact decide_eq_true fun k hk => of_decide_eq_true hx k (List.mem_cons_of_mem e hk)

/-- Substitution copies the bytes outside the ranges in order. -/
theorem bytes_outside_sublist_from (hdisjoint : edits.Pairwise Edit.Precedes)
    (hwithin : ∀ e ∈ edits, e.IsWithin source) (hoffset : ∀ e ∈ edits, offset ≤ e.start) :
    (bytesOutside edits (source.drop offset) offset).Sublist
      (substituteFrom source offset edits) := by
  induction edits generalizing offset with
  | nil => exact bytes_outside_sublist_stretch [] _ offset
  | cons e rest ih =>
      obtain ⟨hfirst, hothers⟩ := List.pairwise_cons.mp hdisjoint
      obtain ⟨⟨hstart, hstop⟩, hrest⟩ := List.forall_mem_cons.mp hwithin
      have hbefore : offset ≤ e.start := hoffset e List.mem_cons_self
      rw [drop_eq_slice_append hbefore, drop_eq_slice_append (Nat.le_of_lt hstart),
        bytes_outside_append, bytes_outside_append, length_slice (by omega), length_slice hstop,
        Nat.add_sub_cancel' hbefore, Nat.add_sub_cancel' (Nat.le_of_lt hstart),
        bytes_outside_slice List.mem_cons_self, List.nil_append, substituteFrom]
      refine List.Sublist.append ?_ ?_
      · exact (bytes_outside_sublist_stretch _ _ _).trans (List.sublist_append_left _ _)
      · exact (bytes_outside_cons_sublist _).trans (ih hothers hrest hfirst)

/-- Substitution copies all bytes that no edit covers, in order. -/
theorem bytes_outside_sublist (hdisjoint : edits.Pairwise Edit.Precedes)
    (hwithin : ∀ e ∈ edits, e.IsWithin source) :
    (bytesOutside edits source 0).Sublist (substitute source edits) :=
  bytes_outside_sublist_from hdisjoint hwithin fun e _ => Nat.zero_le e.start

end Excise
