import Excise.Proofs.Edit.Pruning

/-!
# Carrying a plan out on the rows

`Plan.carryOut?` carries a plan out on the rows of a tree: it leaves out the rows of what is gone
and puts the rows of a placeholder where a node is replaced. The rows that it gives are those of a
tree if the root is left, and that is the tree with the plan carried out (`exists_carried_out`).
-/

namespace Excise

section FlatMap

variable {α : Type} {f : Nat → List α} {i j m n : Nat}

/-- One more part is put at the end. -/
theorem flat_map_range_succ (f : Nat → List α) (n : Nat) :
    (List.range (n + 1)).flatMap f = (List.range n).flatMap f ++ f n := by
  rw [List.range_succ, List.flatMap_append, List.flatMap_singleton]

/-- A part ends before the next one starts. -/
theorem length_flat_map_range_le (h : n < m) :
    ((List.range n).flatMap f).length + (f n).length ≤ ((List.range m).flatMap f).length := by
  induction m with
  | zero => exact absurd h (Nat.not_lt_zero n)
  | succ m ih =>
      rw [flat_map_range_succ, List.length_append]
      rcases Nat.lt_succ_iff_lt_or_eq.mp h with hlt | rfl
      · have := ih hlt
        omega
      · exact Nat.le_refl _

/-- What a part holds stands as far behind its start. -/
theorem get_flat_map_range (h : n < m) (hj : j < (f n).length) :
    ((List.range m).flatMap f)[((List.range n).flatMap f).length + j]? = some ((f n)[j]) := by
  induction m with
  | zero => exact absurd h (Nat.not_lt_zero n)
  | succ m ih =>
      rw [flat_map_range_succ]
      rcases Nat.lt_succ_iff_lt_or_eq.mp h with hlt | rfl
      · have := length_flat_map_range_le (f := f) hlt
        rw [List.getElem?_append_left (by omega), ih hlt]
      · rw [List.getElem?_append_right (Nat.le_add_right _ _), Nat.add_sub_cancel_left,
          List.getElem?_eq_getElem hj]

/-- Everything stands in some part. -/
theorem exists_part (h : i < ((List.range m).flatMap f).length) :
    ∃ n j, n < m ∧ j < (f n).length ∧ i = ((List.range n).flatMap f).length + j := by
  induction m with
  | zero => simp at h
  | succ m ih =>
      rw [flat_map_range_succ, List.length_append] at h
      by_cases hi : i < ((List.range m).flatMap f).length
      · obtain ⟨n, j, hn, hj, heq⟩ := ih hi
        exact ⟨n, j, Nat.lt_succ_of_lt hn, hj, heq⟩
      · exact ⟨m, i - ((List.range m).flatMap f).length, Nat.lt_succ_self m, by omega, by omega⟩

end FlatMap

open Excise.Tree

namespace Plan

/-- What is written behind the source, for the placeholders. -/
def placeholderSource : Bytes := Bytes.ofText (": " ++ placeholder)

/-- The rows of a pair of a key and the placeholder in the place of a shorthand property. The key is
where the property was; `tail` is where the source ends. -/
def pairRows (row : Row) (tail : Nat) : List Row :=
  [{ row with kind := "pair" },
    ⟨row.depth + 1, true, "property_identifier", min row.start tail, min row.stop tail, some "key"⟩,
    ⟨row.depth + 1, false, ":", tail, tail + 1, none⟩,
    ⟨row.depth + 1, true, "undefined", tail + 2, tail + 11, some "value"⟩]

/-- The rows that stand for a node when the plan is carried out. Ends past the source are moved to
its end. -/
def rowsFor (p : Plan) (t : Tree) (n : Node) : List Row :=
  let row := t.row n
  let tail := t.source.length
  if p.Leaves t n then
    if n ∈ p.replacements.keys then
      if t.kind n = "shorthand_property_identifier" then pairRows row tail
      else [{ row with kind := "undefined", start := tail + 2, stop := tail + 11 }]
    else [{ row with start := min row.start tail, stop := min row.stop tail }]
  else []

/-- The tree with the plan carried out, if anything is left of it. -/
def carryOut? (p : Plan) (t : Tree) : Option Tree :=
  Tree.ofRows? (t.source ++ placeholderSource) (t.nodes.flatMap (p.rowsFor t)).toArray

/-- Where the rows that stand for a node begin. -/
def placeOf (p : Plan) (t : Tree) (n : Nat) : Nat := ((List.range n).flatMap (p.rowsFor t)).length

variable {p : Plan} {t t' : Tree} {i j m n : Nat}

/-- The first row for a node that is left says of it what the node's row says, and the others, which
only a placeholder has, are one level deeper. -/
theorem rows_for_shape (hn : p.Leaves t n) :
    ∃ first rest, p.rowsFor t n = first :: rest ∧ first.depth = t.depth n ∧
      first.named = t.named n ∧ first.field = t.field n ∧
      (∀ r ∈ rest, r.depth = t.depth n + 1) ∧ (n ∉ p.replacements.keys → rest = []) := by
  rw [rowsFor, if_pos hn]
  split_ifs with hreplaced hshorthand
  · exact ⟨_, _, rfl, rfl, rfl, rfl, by simp [depth], fun hkept => absurd hreplaced hkept⟩
  · exact ⟨_, [], rfl, rfl, rfl, rfl, by simp, fun _ => rfl⟩
  · exact ⟨_, [], rfl, rfl, rfl, rfl, by simp, fun _ => rfl⟩

/-- Only nodes that are left have rows. -/
theorem leaves_of_row (hj : j < (p.rowsFor t n).length) : p.Leaves t n := by
  by_contra hn
  simp [rowsFor, hn] at hj

/-- A node that is left has a row. -/
theorem rows_for_pos (hn : p.Leaves t n) : 0 < (p.rowsFor t n).length := by
  obtain ⟨first, rest, hrows, -⟩ := rows_for_shape hn
  simp [hrows]

/-- The rows for a node are as deep as the node, or one level deeper. -/
theorem depth_rows_for (hj : j < (p.rowsFor t n).length) :
    (p.rowsFor t n)[j].depth = if j = 0 then t.depth n else t.depth n + 1 := by
  obtain ⟨first, rest, hrows, hdepth, -, -, hrest, -⟩ := rows_for_shape (leaves_of_row hj)
  cases j with
  | zero => simp [hrows, hdepth]
  | succ j =>
      simp only [hrows, List.getElem_cons_succ]
      rw [if_neg (Nat.succ_ne_zero j)]
      exact hrest _ (List.getElem_mem _)

/-- After a node that is left, the next that is left is at most one level deeper, and not deeper if
the first is replaced. -/
theorem depth_of_next (hn : p.Leaves t n) (hm : p.Leaves t m) (hlt : n < m)
    (hbetween : ∀ k, n < k → k < m → ¬ p.Leaves t k) :
    t.depth m ≤ t.depth n + 1 ∧ (n ∈ p.replacements.keys → t.depth m ≤ t.depth n) := by
  -- The parent of the later node is kept, so it does not stand between the two.
  obtain ⟨q, hq⟩ := exists_parent hm.1 (Nat.ne_of_gt (Nat.zero_lt_of_lt hlt))
  have hkeeps := hm.keeps_of_ancestor (parent_mem_ancestors hq)
  have hdepth := depth_of_parent hq
  rcases Nat.lt_trichotomy q n with hqn | rfl | hnq
  · have habove := (mem_ancestors.mp (parent_mem_ancestors hq)).2 n hqn (Nat.le_of_lt hlt)
    exact ⟨by omega, fun _ => by omega⟩
  · exact ⟨by omega, fun hkey => absurd hkey hkeeps.2⟩
  · exact absurd hkeeps.1 (hbetween q hnq (parent_lt hq))

/-- The rows for a node end before those for a later one begin. -/
theorem place_of_add_le (h : n < m) : p.placeOf t n + (p.rowsFor t n).length ≤ p.placeOf t m :=
  length_flat_map_range_le h

/-- Nothing is left between nodes whose rows follow each other. -/
theorem nothing_between (h : p.placeOf t m ≤ p.placeOf t n + (p.rowsFor t n).length) :
    ∀ k, n < k → k < m → ¬ p.Leaves t k := by
  intro k hnk hkm hk
  have hbefore := place_of_add_le (p := p) (t := t) hnk
  have hafter := place_of_add_le (p := p) (t := t) hkm
  have := rows_for_pos hk
  omega

/-- From one row to the next the depth grows by one at most. -/
theorem depth_next_row (hj : j < (p.rowsFor t n).length) {k : Nat}
    (hk : k < (p.rowsFor t m).length) (hnext : p.placeOf t n + j + 1 = p.placeOf t m + k) :
    (p.rowsFor t m)[k].depth ≤ (p.rowsFor t n)[j].depth + 1 := by
  rw [depth_rows_for, depth_rows_for]
  rcases Nat.lt_trichotomy n m with hlt | rfl | hgt
  · have hle := place_of_add_le (p := p) (t := t) hlt
    have hfirst : k = 0 := by omega
    have hdepth := (depth_of_next (leaves_of_row hj) (leaves_of_row hk) hlt
      (nothing_between (by omega))).1
    rw [if_pos hfirst]
    split <;> omega
  · split <;> split <;> omega
  · have hle := place_of_add_le (p := p) (t := t) hgt
    omega

/-- A tree has the source and the rows that it is made of. -/
theorem of_rows_eq {source : Bytes} {rows : Array Row} (h : Tree.ofRows? source rows = some t) :
    t.source = source ∧ t.rows = rows := by
  rw [Tree.ofRows?] at h
  split at h
  case isTrue =>
    split at h
    case isTrue =>
      obtain rfl := Option.some.inj h
      exact ⟨rfl, rfl⟩
    case isFalse => cases h
  case isFalse => cases h

/-- If the root is left, the rows are those of a tree. -/
theorem exists_carry_out (hroot : p.Leaves t 0) : ∃ t', p.carryOut? t = some t' := by
  -- Each row is the `j`-th of the rows for some node `n`.
  have hrow : ∀ i (hi : i < (t.nodes.flatMap (p.rowsFor t)).length),
      ∃ n j, ∃ hj : j < (p.rowsFor t n).length, i = p.placeOf t n + j ∧
        (t.nodes.flatMap (p.rowsFor t))[i] = (p.rowsFor t n)[j] := by
    intro i hi
    rw [nodes] at hi
    obtain ⟨n, j, hn, hj, rfl⟩ := exists_part hi
    have hget := get_flat_map_range hn hj
    rw [List.getElem?_eq_getElem hi] at hget
    exact ⟨n, j, hj, rfl, Option.some.inj hget⟩
  have hfirst : p.placeOf t 0 = 0 := rfl
  have hsize : 0 < (t.nodes.flatMap (p.rowsFor t)).length := by
    have hle := place_of_add_le (p := p) (t := t) t.size_pos
    have hpos := rows_for_pos hroot
    exact Nat.lt_of_lt_of_le (by omega) hle
  have hzero : ∀ {n j : Nat}, p.placeOf t n + j = 0 → p.Leaves t n → n = 0 ∧ j = 0 := by
    intro n j hplace hn
    refine ⟨?_, by omega⟩
    by_contra hne
    have hle := place_of_add_le (p := p) (t := t) (Nat.pos_of_ne_zero hne)
    have hpos := rows_for_pos hroot
    omega
  have hdepth : t.depth 0 = 0 := (depth_eq_zero_iff t.size_pos).mpr rfl
  rw [carryOut?, Tree.ofRows?, dif_pos (by simpa using hsize), dif_pos]
  · exact ⟨_, rfl⟩
  -- The first row is the root's, all others are deeper, and none is too deep after the one before.
  refine ⟨?_, fun i hi hpos => ?_, fun i hi => ?_⟩
  · obtain ⟨n, j, hj, hplace, hget⟩ := hrow 0 hsize
    obtain ⟨rfl, rfl⟩ := hzero hplace.symm (leaves_of_row hj)
    simp only [List.getElem_toArray, hget, depth_rows_for, if_true, hdepth]
  · obtain ⟨n, j, hj, hplace, hget⟩ := hrow i (by simpa using hi)
    simp only [List.getElem_toArray, hget, depth_rows_for]
    split
    case isTrue hj0 =>
      refine Nat.pos_of_ne_zero fun hzero => ?_
      obtain rfl := (depth_eq_zero_iff (leaves_of_row hj).1).mp hzero
      omega
    case isFalse => exact Nat.succ_pos _
  · have hlength : i + 1 < (t.nodes.flatMap (p.rowsFor t)).length := by
      rw [List.size_toArray] at hi
      omega
    obtain ⟨n, j, hj, hplace, hget⟩ := hrow i (Nat.lt_of_succ_lt hlength)
    obtain ⟨m, k, hk, hplace', hget'⟩ := hrow (i + 1) hlength
    simp only [List.getElem_toArray, hget, hget']
    exact depth_next_row hj hk (by omega)

/-! ## The tree that is made -/

/-- A slice of the source is found again when the source is continued and the bounds are moved to
its end. -/
theorem slice_append (source rest : Bytes) (start stop : Nat) :
    (source ++ rest).slice (min start source.length) (min stop source.length) =
      source.slice start stop := by
  rw [Bytes.slice, Bytes.slice]
  rcases Nat.le_total start source.length with hstart | hstart
  · rw [Nat.min_eq_left hstart, List.drop_append_of_le_length hstart,
      List.take_append_of_le_length (by simp only [List.length_drop]; omega), List.take_eq_take_iff,
      List.length_drop]
    omega
  · rw [Nat.min_eq_right hstart, List.drop_of_length_le hstart,
      Nat.sub_eq_zero_of_le (Nat.min_le_right _ _), List.take_zero, List.take_nil]

/-- The placeholder stands behind the source. -/
theorem slice_placeholder (source : Bytes) :
    ((source ++ placeholderSource).slice (source.length + 2) (source.length + 11)).text =
      placeholder := by
  have hdrop : (source ++ placeholderSource).drop (source.length + 2) =
      placeholderSource.drop 2 := by
    rw [List.drop_append, List.drop_of_length_le (Nat.le_add_right _ _), Nat.add_sub_cancel_left,
      List.nil_append]
  rw [Bytes.slice, hdrop, Nat.add_sub_add_left]
  decide +kernel

section Made

variable (h : p.carryOut? t = some t')

include h

/-- A row for a node stands as far behind the first. -/
theorem row_place (hn : n < t.size) (hj : j < (p.rowsFor t n).length) :
    t'.row (p.placeOf t n + j) = (p.rowsFor t n)[j] := by
  rw [row, (of_rows_eq h).2, List.getElem?_toArray, nodes]
  have hget := get_flat_map_range (f := p.rowsFor t) hn hj
  rw [placeOf, hget, Option.getD_some]

/-- The first row for a node that is left. -/
theorem first_row_place (hn : p.Leaves t n) {first : Row} {rest : List Row}
    (hrows : p.rowsFor t n = first :: rest) : t'.row (p.placeOf t n) = first := by
  have hrow := row_place h hn.1 (rows_for_pos hn)
  simpa only [hrows, List.getElem_cons_zero, Nat.add_zero] using hrow

/-- The rows for all nodes are the rows of the tree. -/
theorem size_eq_place_of : t'.size = p.placeOf t t.size := by
  rw [Tree.size, (of_rows_eq h).2, List.size_toArray]
  rfl

/-- The rows for a node are rows of the tree. -/
theorem place_of_add_le_size (hn : n < t.size) :
    p.placeOf t n + (p.rowsFor t n).length ≤ t'.size :=
  size_eq_place_of h ▸ place_of_add_le hn

/-- Every row of the tree is one of the rows for a node that is left. -/
theorem exists_row (hi : i < t'.size) :
    ∃ n j, p.Leaves t n ∧ j < (p.rowsFor t n).length ∧ i = p.placeOf t n + j := by
  rw [size_eq_place_of h] at hi
  obtain ⟨n, j, -, hj, heq⟩ := exists_part hi
  exact ⟨n, j, leaves_of_row hj, hj, heq⟩

/-- A row that follows those for a replaced node is not deeper than this. -/
theorem depth_after_replaced (hn : p.Leaves t n) (hreplaced : n ∈ p.replacements.keys)
    (hi : p.placeOf t n + (p.rowsFor t n).length < t'.size) :
    t'.depth (p.placeOf t n + (p.rowsFor t n).length) ≤ t.depth n := by
  -- It is the first row for the next node that is left.
  obtain ⟨m, k, hm, hk, heq⟩ := exists_row h hi
  have hlt : n < m := by
    rcases Nat.lt_trichotomy n m with hlt | rfl | hgt
    · exact hlt
    · omega
    · have := place_of_add_le (p := p) (t := t) hgt
      omega
  have hle := place_of_add_le (p := p) (t := t) hlt
  obtain rfl : k = 0 := by omega
  rw [heq, depth, row_place h hm.1 hk, depth_rows_for, if_pos rfl]
  exact (depth_of_next hn hm hlt (nothing_between (by omega))).2 hreplaced

/-- Inside a placeholder there are just its own rows. -/
theorem descendants_of_replaced (hn : p.Leaves t n) (hreplaced : n ∈ p.replacements.keys) :
    t'.descendants (p.placeOf t n) =
      List.range' (p.placeOf t n + 1) ((p.rowsFor t n).length - 1) := by
  have hpos := rows_for_pos hn
  have hdepth : t'.depth (p.placeOf t n) = t.depth n := by
    have hrow := row_place h hn.1 hpos
    rw [Nat.add_zero] at hrow
    rw [depth, hrow, depth_rows_for, if_pos rfl]
  have hsize := place_of_add_le_size h hn.1
  obtain ⟨rest, hrest⟩ : ∃ rest, t'.size - (p.placeOf t n + 1) =
      (p.rowsFor t n).length - 1 + rest := ⟨_, (Nat.add_sub_of_le (by omega)).symm⟩
  rw [descendants, hrest, ← List.range'_append_1, hdepth, List.takeWhile_append_of_pos]
  · -- The next row, if there is one, is not inside.
    rw [List.append_right_eq_self]
    cases rest with
    | zero => rfl
    | succ rest =>
        have hafter := depth_after_replaced h hn hreplaced (by omega)
        have hstart : p.placeOf t n + 1 + ((p.rowsFor t n).length - 1) =
            p.placeOf t n + (p.rowsFor t n).length := by omega
        rw [hstart, List.range'_succ, List.takeWhile_cons_of_neg]
        exact fun hlt => Nat.not_lt_of_le hafter (of_decide_eq_true hlt)
  · intro i hi
    obtain ⟨hlow, hhigh⟩ := List.mem_range'_1.mp hi
    obtain ⟨j, rfl⟩ := Nat.exists_eq_add_of_le hlow
    have hj : 1 + j < (p.rowsFor t n).length := by omega
    have hdeeper : t'.depth (p.placeOf t n + 1 + j) = t.depth n + 1 := by
      rw [Nat.add_assoc, depth, row_place h hn.1 hj, depth_rows_for, if_neg (by omega)]
    exact decide_eq_true (by omega)

/-- A node that is left keeps what its placeholder has no say in. -/
theorem row_of_left (hn : p.Leaves t n) :
    t'.depth (p.placeOf t n) = t.depth n ∧ t'.named (p.placeOf t n) = t.named n ∧
      t'.field (p.placeOf t n) = t.field n := by
  obtain ⟨first, rest, hrows, hdepth, hnamed, hfield, -⟩ := rows_for_shape hn
  have hrow := first_row_place h hn hrows
  simp only [depth, named, field, hrow] at *
  exact ⟨hdepth, hnamed, hfield⟩

/-- A kept node keeps its kind and its text. -/
theorem row_of_kept (hn : p.Keeps t n) :
    t'.kind (p.placeOf t n) = t.kind n ∧ t'.text (p.placeOf t n) = t.text n := by
  have hrow := first_row_place h hn.1 (by rw [rowsFor, if_pos hn.1, if_neg hn.2])
  refine ⟨by rw [kind, hrow, kind], ?_⟩
  rw [text, start, stop, hrow, (of_rows_eq h).1, slice_append, text, start, stop]

/-- A row that says so is a placeholder. -/
theorem is_placeholder_of_row (hkind : t'.kind i = "undefined")
    (hstart : t'.start i = t.source.length + 2) (hstop : t'.stop i = t.source.length + 11)
    (hinside : t'.descendants i = []) : t'.IsPlaceholder i := by
  refine ⟨hkind, ?_, hinside⟩
  rw [text, hstart, hstop, (of_rows_eq h).1, slice_placeholder]

/-- The last row for a replaced node has nothing inside. -/
theorem nothing_in_last_row (hn : p.Leaves t n) (hreplaced : n ∈ p.replacements.keys) :
    t'.descendants (p.placeOf t n + ((p.rowsFor t n).length - 1)) = [] := by
  have hinside := descendants_of_replaced h hn hreplaced
  have hpos := rows_for_pos hn
  refine List.eq_nil_iff_forall_not_mem.mpr fun i hi => ?_
  obtain ⟨hlast, hdeeper⟩ := mem_descendants.mp hi
  have hmem : i ∈ t'.descendants (p.placeOf t n) := by
    by_cases hone : (p.rowsFor t n).length - 1 = 0
    · rwa [hone, Nat.add_zero] at hi
    · have hrow :
          p.placeOf t n + ((p.rowsFor t n).length - 1) ∈ t'.descendants (p.placeOf t n) := by
        rw [hinside, List.mem_range'_1]
        omega
      rw [mem_descendants_iff_mem_ancestors] at hi hrow ⊢
      exact ancestors_trans hrow hi
  rw [hinside, List.mem_range'_1] at hmem
  omega

/-- A shorthand property that is replaced is a pair with its name as the key. -/
theorem pair_of_replaced (hn : p.Leaves t n) (hreplaced : n ∈ p.replacements.keys)
    (hshorthand : t.kind n = "shorthand_property_identifier") :
    t'.IsPlaceholderPair (p.placeOf t n) (t.text n) := by
  have hfor : p.rowsFor t n = pairRows (t.row n) t.source.length := by
    rw [rowsFor, if_pos hn, if_pos hreplaced, if_pos hshorthand]
  have hlength : (p.rowsFor t n).length = 4 := by rw [hfor]; rfl
  have hinside := descendants_of_replaced h hn hreplaced
  have hnothing := nothing_in_last_row h hn hreplaced
  have hpair := first_row_place h hn hfor
  have hkey := row_place h hn.1 (j := 1) (by omega)
  have hcolon := row_place h hn.1 (j := 2) (by omega)
  have hvalue := row_place h hn.1 (j := 3) (by omega)
  simp only [hfor, pairRows, List.getElem_cons_succ, List.getElem_cons_zero] at hkey hcolon hvalue
  rw [hlength] at hinside hnothing
  refine ⟨by rw [kind, hpair], hinside, by rw [kind, hkey], ?_, by rw [field, hkey],
    by rw [kind, hcolon], by simp [named, hcolon], by rw [field, hvalue],
    is_placeholder_of_row h (by rw [kind, hvalue]) (by rw [start, hvalue])
      (by rw [stop, hvalue]) hnothing⟩
  rw [text, start, stop, hkey, (of_rows_eq h).1, slice_append, text, start, stop]

/-- A replaced node is a placeholder, or a pair with one. -/
theorem placeholder_of_replaced (hn : p.Leaves t n) (hreplaced : n ∈ p.replacements.keys) :
    if t.kind n = "shorthand_property_identifier" then
      t'.IsPlaceholderPair (p.placeOf t n) (t.text n)
    else t'.IsPlaceholder (p.placeOf t n) := by
  split_ifs with hshorthand
  · exact pair_of_replaced h hn hreplaced hshorthand
  · have hfor : p.rowsFor t n = [{ t.row n with
        kind := "undefined", start := t.source.length + 2, stop := t.source.length + 11 }] := by
      rw [rowsFor, if_pos hn, if_pos hreplaced, if_neg hshorthand]
    have hrow := first_row_place h hn hfor
    have hinside := descendants_of_replaced h hn hreplaced
    rw [hfor] at hinside
    exact is_placeholder_of_row h (by rw [kind, hrow]) (by rw [start, hrow]) (by rw [stop, hrow])
      hinside

/-- The tree that is made is the tree with the plan carried out. -/
theorem carried_out : p.CarriedOut t t' (p.placeOf t) where
  lt_size n hn := by
    have hle := place_of_add_le_size h hn.1
    have hpos := rows_for_pos hn
    omega
  order m n hm hn hlt := by
    have hle := place_of_add_le (p := p) (t := t) hlt
    have hpos := rows_for_pos hm
    omega
  depth_eq n hn := (row_of_left h hn).1
  named_eq n hn := (row_of_left h hn).2.1
  field_eq n hn := (row_of_left h hn).2.2
  kind_eq n hn := (row_of_kept h hn).1
  text_eq n hn _ := (row_of_kept h hn).2
  replaced n hn hreplaced := placeholder_of_replaced h hn hreplaced
  nothing_else i hi := by
    obtain ⟨n, j, hn, hj, rfl⟩ := exists_row h hi
    refine ⟨n, hn, ?_⟩
    cases j with
    | zero => exact .inl rfl
    | succ j =>
        -- Only a placeholder has more rows than one.
        obtain ⟨first, rest, hrows, -, -, -, -, hkept⟩ := rows_for_shape hn
        have hreplaced : n ∈ p.replacements.keys := by
          by_contra hkeeps
          simp [hrows, hkept hkeeps] at hj
        refine .inr ⟨hreplaced, ?_⟩
        rw [descendants_of_replaced h hn hreplaced, List.mem_range'_1]
        omega

end Made

/-- If the plan leaves the root, it can be carried out. -/
theorem exists_carried_out (hroot : p.Leaves t 0) :
    ∃ t', p.carryOut? t = some t' ∧ p.CarriedOut t t' (p.placeOf t) := by
  obtain ⟨t', h⟩ := exists_carry_out hroot
  exact ⟨t', h, carried_out h⟩

end Plan

end Excise
