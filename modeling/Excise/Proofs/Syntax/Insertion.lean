import Excise.Proofs.Names.Respelling
import Excise.Proofs.Syntax.Comments

/-!
# Inserting comments

`Tree.InsertsComment` relates a tree to the one with a comment in a new row: the text of the
comment goes into the source, the nodes around it grow and those after it move.
`Tree.InsertsComments` is any number of such insertions. A comment stands between identifiers,
strings and words and not inside them, and it has nothing inside itself, so the tree that results is
one with comments in it (`InsertsComments.commented`).
-/

namespace Excise.Tree

variable {t t' t'' : Tree} {place : Nat → Nat} {row depth offset n m : Nat} {text : Bytes}

/-- Where a row stands when one is inserted. -/
def pastRow (row n : Nat) : Nat := if n < row then n else n + 1

/-- The tree `t'` is `t` with a comment in a row of its own, at an offset of the source. The
identifiers, strings and words before its row end before it, those after its row start after it, and
it is inside none of them nor inside another comment. -/
structure InsertsComment (t t' : Tree) (row depth offset : Nat) (text : Bytes) : Prop where
  row_le : row ≤ t.size
  offset_le : offset ≤ t.source.length
  source_eq : t'.source = t.source.take offset ++ text ++ t.source.drop offset
  size_eq : t'.size = t.size + 1
  comment_row : t'.row row = ⟨depth, true, "comment", offset, offset + text.length, none⟩
  leaf : t'.descendants row = []
  before : ∀ n < row, t'.row n =
    { t.row n with
      stop := if n ∈ t'.ancestors row then t.stop n + text.length else t.stop n }
  after : ∀ n < t.size, row ≤ n → t'.row (n + 1) =
    { t.row n with start := t.start n + text.length, stop := t.stop n + text.length }
  stop_le : ∀ n < row, t.IsLexeme n → t.stop n ≤ offset
  le_start : ∀ n < t.size, row ≤ n → t.IsLexeme n → offset ≤ t.start n ∧ offset ≤ t.stop n
  outside : ∀ a ∈ t'.ancestors row, ¬ t.IsLexeme a ∧ t.kind a ≠ "comment"

/-- `InsertsComments t t' place`: the tree `t'` is `t` after comments were inserted one by one, and
`place` says where the nodes of `t` stand. -/
inductive InsertsComments (t : Tree) : Tree → (Nat → Nat) → Prop where
  | nothing : InsertsComments t t id
  | another {t' t'' : Tree} {place : Nat → Nat} {row depth offset : Nat} {text : Bytes}
      (before : InsertsComments t t' place) (step : t'.InsertsComment t'' row depth offset text) :
      InsertsComments t t'' (fun n => pastRow row (place n))

/-- Insertion keeps the order. -/
theorem past_row_order (row : Nat) : StrictMono (pastRow row) := by
  intro m n hlt
  unfold pastRow
  split <;> split <;> omega

/-- A row is one of so many exactly if its place is one of one more. -/
theorem past_row_lt_iff {size : Nat} (h : row ≤ size) : pastRow row n < size + 1 ↔ n < size := by
  unfold pastRow
  split <;> omega

/-- A row whose place is before the new one stays. -/
theorem past_row_of_lt (h : pastRow row n < row) : pastRow row n = n := by
  unfold pastRow at h ⊢
  split <;> split at h <;> omega

/-- All rows but the new one are places. -/
theorem exists_past_row (hne : n ≠ row) : ∃ m, pastRow row m = n := by
  rcases Nat.lt_or_gt_of_ne hne with hlt | hgt
  · exact ⟨n, if_pos hlt⟩
  · refine ⟨n - 1, ?_⟩
    rw [pastRow, if_neg (by omega)]
    omega

namespace InsertsComment

variable (h : t.InsertsComment t' row depth offset text)

include h

/-- A row is as it was but for its range. -/
theorem row_place (n : Nat) : ∃ start stop,
    t'.row (pastRow row n) = { t.row n with start := start, stop := stop } := by
  rw [pastRow]
  split
  case isTrue hbefore => exact ⟨_, _, h.before n hbefore⟩
  case isFalse hafter =>
    rcases Nat.lt_or_ge n t.size with hlt | hge
    · exact ⟨_, _, h.after n hlt (Nat.le_of_not_lt hafter)⟩
    · have hend : t'.size ≤ n + 1 := h.size_eq ▸ Nat.succ_le_succ hge
      exact ⟨(default : Row).start, (default : Row).stop, by
        rw [row_of_size_le hge, row_of_size_le hend]⟩

/-- An identifier, string or word keeps its text. -/
theorem text_place (hn : t.IsLexeme n) : t'.text (pastRow row n) = t.text n := by
  rw [pastRow]
  split
  case isTrue hbefore =>
    have hnot : n ∉ t'.ancestors row := fun hmem => (h.outside n hmem).1 hn
    have hrow := h.before n hbefore
    rw [if_neg hnot] at hrow
    have hstart : t'.start n = t.start n := by rw [start, hrow, start]
    have hstop : t'.stop n = t.stop n := by rw [stop, hrow]
    rw [Tree.text, Tree.text, hstart, hstop, h.source_eq,
      Bytes.slice_before (h.stop_le n hbefore hn) h.offset_le]
  case isFalse hafter =>
    have hle := Nat.le_of_not_lt hafter
    have hrow := h.after n hn.lt_size hle
    obtain ⟨hstart, hstop⟩ := h.le_start n hn.lt_size hle hn
    have hstart' : t'.start (n + 1) = t.start n - (offset - offset) + text.length := by
      rw [start, hrow, Nat.sub_self, Nat.sub_zero]
    have hstop' : t'.stop (n + 1) = t.stop n - (offset - offset) + text.length := by
      rw [stop, hrow, Nat.sub_self, Nat.sub_zero]
    rw [Tree.text, Tree.text, hstart', hstop', h.source_eq,
      Bytes.slice_after (Nat.le_refl _) h.offset_le hstart hstop]

/-- The new row is a comment. -/
theorem is_comment : t'.IsComment row where
  kind_eq := by rw [kind, h.comment_row]
  named := by rw [Tree.named, h.comment_row]
  field_eq := by rw [field, h.comment_row]
  leaf := h.leaf

/-- One insertion makes a tree with comments in it. -/
theorem commented : t.Commented t' (pastRow row) where
  order := past_row_order row
  lt_size_iff n := h.size_eq ▸ past_row_lt_iff h.row_le
  depth_eq n := by
    obtain ⟨start, stop, hrow⟩ := h.row_place n
    rw [Tree.depth, hrow, Tree.depth]
  named_eq n := by
    obtain ⟨start, stop, hrow⟩ := h.row_place n
    rw [named, hrow, named]
  kind_eq n := by
    obtain ⟨start, stop, hrow⟩ := h.row_place n
    rw [kind, hrow, kind]
  field_eq n := by
    obtain ⟨start, stop, hrow⟩ := h.row_place n
    rw [field, hrow, field]
  text_eq n hn := h.text_place hn
  comment i _ hnew := by
    by_cases hi : i = row
    · exact hi ▸ h.is_comment
    · obtain ⟨m, hm⟩ := exists_past_row hi
      exact absurd hm (hnew m)

/-- A comment is still one after an insertion. -/
theorem comment_place (hn : t.IsComment n) : t'.IsComment (pastRow row n) where
  kind_eq := (h.commented.kind_eq n).trans hn.kind_eq
  named := (h.commented.named_eq n).trans hn.named
  field_eq := (h.commented.field_eq n).trans hn.field_eq
  leaf := by
    refine List.eq_nil_iff_forall_not_mem.mpr fun j hj => ?_
    rw [mem_descendants_iff_mem_ancestors] at hj
    by_cases hjrow : j = row
    · -- The new comment is inside no other.
      rw [hjrow] at hj
      rw [past_row_of_lt (lt_of_mem_ancestors hj)] at hj
      exact (h.outside n hj).2 hn.kind_eq
    · obtain ⟨m, rfl⟩ := exists_past_row hjrow
      rw [h.commented.ancestors_eq, List.mem_map] at hj
      obtain ⟨a, ha, heq⟩ := hj
      rw [h.commented.place_inj] at heq
      have hinside := mem_descendants_iff_mem_ancestors.mpr ha
      simp [heq, hn.leaf] at hinside

end InsertsComment

/-- A comment inserted into a tree with comments. -/
theorem Commented.insert (h : t.Commented t' place)
    (step : t'.InsertsComment t'' row depth offset text) :
    t.Commented t'' (fun n => pastRow row (place n)) where
  order := step.commented.order.comp h.order
  lt_size_iff n := (step.commented.lt_size_iff _).trans (h.lt_size_iff n)
  depth_eq n := (step.commented.depth_eq _).trans (h.depth_eq n)
  named_eq n := (step.commented.named_eq _).trans (h.named_eq n)
  kind_eq n := (step.commented.kind_eq _).trans (h.kind_eq n)
  field_eq n := (step.commented.field_eq _).trans (h.field_eq n)
  text_eq n hn := by
    have hn' : t'.IsLexeme (place n) := by rwa [IsLexeme, IsWord, h.kind_eq, h.field_eq]
    exact (step.text_place hn').trans (h.text_eq n hn)
  comment i hi hnew := by
    by_cases hrow : i = row
    · exact hrow ▸ step.is_comment
    · obtain ⟨m, rfl⟩ := exists_past_row hrow
      refine step.comment_place (h.comment m ((step.commented.lt_size_iff m).mp hi) fun n hn => ?_)
      exact hnew n (congrArg (pastRow row) hn)

/-- Insertions make a tree with comments in it. -/
theorem InsertsComments.commented (h : t.InsertsComments t' place) : t.Commented t' place := by
  induction h with
  | nothing =>
      exact ⟨strictMono_id, fun _ => Iff.rfl, fun _ => rfl, fun _ => rfl, fun _ => rfl,
        fun _ => rfl, fun _ _ => rfl, fun i _ hnew => absurd rfl (hnew i)⟩
  | another _ step ih => exact ih.insert step

end Excise.Tree
