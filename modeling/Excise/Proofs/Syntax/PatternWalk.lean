import Excise.Proofs.Syntax.Binding
import Excise.Proofs.Syntax.Form
import Mathlib.Logic.Function.Iterate
import Mathlib.Logic.Relation

/-!
# Walking a pattern

The nodes on the stack of a walk over a pattern (`Tree.visit`) are apart from one another and
further on than all that was visited (`Tree.Waiting`), so the walk visits no node twice and is over
after as many visits as the tree has nodes. What it finds is what the recursion over the pattern
collects, the identifiers that are reached through binding parts (`Tree.BoundPart`), in pre-order;
none is in a key or in a default value (`pattern_walk_exact`).
-/

namespace Excise

namespace Tree

/-- A child is the key of a pair, or the default value of a pattern or of a parameter. -/
inductive KeyOrDefault (t : Tree) (p c : Node) : Prop where
  | key :
      t.kind p = "pair_pattern" → t.parent? c = some p → t.field c = some "key" →
        KeyOrDefault t p c
  | patternDefault :
      t.kind p ∈ ["assignment_pattern", "object_assignment_pattern"] → t.parent? c = some p →
        t.field c = some "right" → KeyOrDefault t p c
  | parameterDefault :
      t.kind p ∈ ["required_parameter", "optional_parameter"] → t.parent? c = some p →
        t.field c = some "value" → KeyOrDefault t p c

variable {t : Tree} {c i k n p q : Nat} {w : PatternWalk} {stack rest found : List Node}

/-! ## The parts that bind -/

/-- What binds through a part is no identifier. -/
theorem BoundPart.not_identifier (h : t.BoundPart p q) : ¬ t.IsBindingIdentifier p := by
  have hkinds : ∀ k ∈ partKinds, k ∉ bindingKinds := by decide +kernel
  exact hkinds _ (bound_part (mem_bound_parts.mpr h)).2

/-- A pattern binds the identifiers that are reached from it through binding parts. -/
theorem binds_iff_reached :
    t.Binds p i ↔ t.IsBindingIdentifier i ∧ Relation.ReflTransGen t.BoundPart p i := by
  constructor
  · intro h
    refine ⟨h.is_identifier, ?_⟩
    induction h with
    | identifier _ => exact .refl
    | part _ hpart _ ih => exact .head (mem_bound_parts.mp hpart) ih
  · rintro ⟨hidentifier, hreached⟩
    induction hreached using Relation.ReflTransGen.head_induction_on with
    | refl => exact .identifier hidentifier
    | head hpart _ ih => exact .part hpart.not_identifier (mem_bound_parts.mpr hpart) ih

/-- A key or a default value is a child. -/
theorem KeyOrDefault.parent (h : t.KeyOrDefault p c) : t.parent? c = some p := by
  cases h with
  | key _ hparent _ | patternDefault _ hparent _ | parameterDefault _ hparent _ => exact hparent

/-- A key or a default value is no part through which its parent binds. -/
theorem KeyOrDefault.not_part (h : t.KeyOrDefault p c) : ¬ t.BoundPart p c := by
  have hfield : ∀ {name : String}, t.FieldIs c p name → t.field c = some name :=
    field_of_child_by_field
  intro hpart
  cases h with
  | key hkind _ hkey =>
      cases hpart with
      | pairValue _ hvalue => simpa [hkey] using hfield hvalue
      | defaultLeft hother _ | parameterPattern hother _ | member hother _ _ =>
          simp [hkind] at hother
  | patternDefault hkind _ hright =>
      cases hpart with
      | defaultLeft _ hleft => simpa [hright] using hfield hleft
      | pairValue hother _ => simp [hother] at hkind
      | parameterPattern hother _ | member hother _ _ =>
          rcases List.mem_pair.mp hkind with hkind | hkind <;> simp [hkind] at hother
  | parameterDefault hkind _ hvalue =>
      cases hpart with
      | parameterPattern _ hpattern => simpa [hvalue] using hfield hpattern
      | pairValue hother _ => simp [hother] at hkind
      | defaultLeft hother _ | member hother _ _ =>
          rcases List.mem_pair.mp hkind with hkind | hkind <;> simp [hkind] at hother

/-- No identifier that a pattern binds is in a key or a default value anywhere in the pattern. -/
theorem Binds.not_within_key_or_default (h : t.Binds p i) (hq : t.Within q p)
    (hc : t.KeyOrDefault q c) : ¬ t.Within i c := by
  intro hi
  have hqc : t.parent? c = some q := hc.parent
  induction h with
  | identifier _ =>
      -- The key or default would be around the pattern that it is in.
      have hlt := parent_lt hqc
      have hqp := le_of_within hq
      have hic := le_of_within hi
      omega
  | @part p r i _ hpart hbinds ih =>
      have hr := (bound_part hpart).1
      rcases within_iff.mp hq with rfl | hinside
      · -- Both the key or default and the part are the child of the pattern around the identifier.
        obtain rfl := child_unique hqc hr hi hbinds.within
        exact hc.not_part (mem_bound_parts.mp hpart)
      · obtain ⟨d, hd, hqd⟩ := exists_child_of_mem_ancestors hinside
        have hid : t.Within i d := within_trans hi (within_trans (within_parent hqc) hqd)
        obtain rfl := child_unique hd hr hid hbinds.within
        exact ih hqd hi

/-! ## The recursion -/

/-- An identifier binds itself. -/
theorem bound_identifiers_of_identifier (h : t.IsBindingIdentifier p) :
    t.boundIdentifiers p = [p] := by
  rw [boundIdentifiers, ← bound_within_succ (by omega), boundWithin, if_pos h]

/-- Any other pattern binds what its parts bind. -/
theorem bound_identifiers_of_parts (h : ¬ t.IsBindingIdentifier p) :
    t.boundIdentifiers p = (t.boundParts p).flatMap t.boundIdentifiers := by
  rw [boundIdentifiers, ← bound_within_succ (by omega), boundWithin, if_neg h]
  rfl

/-! ## One visit -/

/-- An identifier on top is found. -/
theorem visit_identifier (h : t.IsBindingIdentifier n) :
    t.visit ⟨n :: rest, found⟩ = ⟨rest, found ++ [n]⟩ := if_pos h

/-- Any other pattern on top makes way for its parts, which come to stand in their order. -/
theorem visit_parts (h : ¬ t.IsBindingIdentifier n) :
    t.visit ⟨n :: rest, found⟩ = ⟨t.boundParts n ++ rest, found⟩ := by
  have hpushed : (t.boundParts n).reverse.foldl (fun stack q => q :: stack) rest =
      t.boundParts n ++ rest := by
    simp
  simp only [visit, if_neg h, hpushed]

/-- All that a walk will have found: what it has found so far, and what the waiting nodes bind. -/
def walkOutcome (t : Tree) (w : PatternWalk) : List Node :=
  w.found ++ w.stack.flatMap t.boundIdentifiers

/-- A visit does not change what the walk will have found. -/
theorem outcome_visit (t : Tree) (w : PatternWalk) :
    t.walkOutcome (t.visit w) = t.walkOutcome w := by
  obtain ⟨stack, found⟩ := w
  cases stack with
  | nil => rfl
  | cons n rest =>
      by_cases h : t.IsBindingIdentifier n
      · rw [visit_identifier h]
        simp [walkOutcome, bound_identifiers_of_identifier h]
      · rw [visit_parts h]
        simp [walkOutcome, bound_identifiers_of_parts h]

/-! ## The nodes that wait -/

/-- The nodes on the stack are rows of the tree from `k` on, and all that is within one of them comes
before the next. -/
structure Waiting (t : Tree) (k : Nat) (stack : List Node) : Prop where
  le : ∀ n ∈ stack, k ≤ n
  lt_size : ∀ n : Nat, n ∈ stack → n < t.size
  apart : stack.Pairwise fun a b => ∀ i, t.Within i a → i < b

/-- Nothing waits. -/
theorem waiting_nil : t.Waiting k [] := ⟨by simp, by simp, .nil⟩

/-- The parts of a node wait after it. -/
theorem waiting_parts (t : Tree) (n : Node) : t.Waiting (n + 1) (t.boundParts n) where
  le _ hq := parent_lt (bound_part hq).1
  lt_size _ hq := lt_size_of_mem_ancestors (parent_mem_ancestors (bound_part hq).1)
  apart := (t.bound_parts_in_order n).imp_of_mem fun ha hb hlt _ hi =>
    before_sibling (bound_part ha).1 (bound_part hb).1 hlt hi

/-- After a visit the nodes that wait are still apart, and further on. -/
theorem Waiting.visit (h : t.Waiting k w.stack) : t.Waiting (k + 1) (t.visit w).stack := by
  obtain ⟨stack, found⟩ := w
  cases stack with
  | nil => exact waiting_nil
  | cons n rest =>
      have hk : k ≤ n := h.le n List.mem_cons_self
      obtain ⟨hafter, hapart⟩ := List.pairwise_cons.mp h.apart
      have hrest : ∀ m ∈ rest, n < m := fun m hm => hafter m hm n within_refl
      have hsize : ∀ m : Nat, m ∈ rest → m < t.size := fun m hm =>
        h.lt_size m (List.mem_cons_of_mem _ hm)
      by_cases hidentifier : t.IsBindingIdentifier n
      · rw [visit_identifier hidentifier]
        exact ⟨fun m hm => Nat.lt_of_le_of_lt hk (hrest m hm), hsize, hapart⟩
      · rw [visit_parts hidentifier]
        have hparts := t.waiting_parts n
        refine ⟨fun m hm => ?_, fun m hm => ?_, ?_⟩
        · rcases List.mem_append.mp hm with hm | hm
          · have hm := hparts.le m hm
            omega
          · exact Nat.lt_of_le_of_lt hk (hrest m hm)
        · exact (List.mem_append.mp hm).elim (hparts.lt_size m) (hsize m)
        · refine List.pairwise_append.mpr ⟨hparts.apart, hapart, fun q hq m hm i hi => ?_⟩
          exact hafter m hm i (within_trans hi (within_parent (bound_part hq).1))

/-! ## The whole walk -/

/-- Several visits do not change what the walk will have found. -/
theorem outcome_iterate_visit (t : Tree) (w : PatternWalk) (visits : Nat) :
    t.walkOutcome (t.visit^[visits] w) = t.walkOutcome w := by
  induction visits with
  | zero => rfl
  | succ visits ih => rw [Function.iterate_succ_apply', outcome_visit, ih]

/-- After several visits the nodes that wait are that much further on. -/
theorem Waiting.iterate (h : t.Waiting k w.stack) (visits : Nat) :
    t.Waiting (k + visits) (t.visit^[visits] w).stack := by
  induction visits with
  | zero => exact h
  | succ visits ih =>
      rw [Function.iterate_succ_apply', ← Nat.add_assoc]
      exact ih.visit

/-- From the last row on nothing waits. -/
theorem Waiting.eq_nil (h : t.Waiting k stack) (hk : t.size ≤ k) : stack = [] := by
  refine List.eq_nil_iff_forall_not_mem.mpr fun n hn => ?_
  have hle := h.le n hn
  have hlt := h.lt_size n hn
  omega

/-- After the first visit of a pattern only parts of it wait, whatever node it is. -/
theorem waiting_first (t : Tree) (p : Node) : t.Waiting 1 (t.visit ⟨[p], []⟩).stack := by
  by_cases h : t.IsBindingIdentifier p
  · rw [visit_identifier h]
    exact waiting_nil
  · rw [visit_parts h, List.append_nil]
    have hparts := t.waiting_parts p
    exact ⟨fun q hq => Nat.le_trans (Nat.le_add_left 1 p) (hparts.le q hq), hparts.lt_size,
      hparts.apart⟩

/-- After as many visits as the tree has nodes the walk is over. -/
theorem stack_iterate_visit (t : Tree) (p : Node) : (t.visit^[t.size] ⟨[p], []⟩).stack = [] := by
  obtain ⟨later, hlater⟩ : ∃ later, t.size = later + 1 :=
    Nat.exists_eq_succ_of_ne_zero (Nat.pos_iff_ne_zero.mp t.size_pos)
  have hwaiting := (t.waiting_first p).iterate later
  rw [hlater, Function.iterate_succ_apply]
  exact hwaiting.eq_nil (by omega)

/-- The walk over a pattern is over after as many visits as the tree has nodes, and has then found
what the recursion collects. -/
theorem walk_eq_bound_identifiers (t : Tree) (p : Node) :
    t.visit^[t.size] ⟨[p], []⟩ = ⟨[], t.boundIdentifiers p⟩ := by
  have houtcome := t.outcome_iterate_visit ⟨[p], []⟩ t.size
  have hstack := t.stack_iterate_visit p
  generalize t.visit^[t.size] ⟨[p], []⟩ = w at houtcome hstack
  obtain ⟨stack, found⟩ := w
  obtain rfl : stack = [] := hstack
  simpa [walkOutcome] using houtcome

/-- Walking a pattern finds, in pre-order and none of them twice, the identifiers that are reached
from it through the parts that bind. None of them is a key or a default value in the pattern, or
inside one. -/
theorem pattern_walk_exact (t : Tree) (p : Node) :
    t.visit^[t.size] ⟨[p], []⟩ = ⟨[], t.boundIdentifiers p⟩ ∧
      (t.boundIdentifiers p).Pairwise (· < ·) ∧
      (∀ i, i ∈ t.boundIdentifiers p ↔
        t.IsBindingIdentifier i ∧ Relation.ReflTransGen t.BoundPart p i) ∧
      ∀ i ∈ t.boundIdentifiers p, ∀ q c, t.Within q p → t.KeyOrDefault q c → ¬ t.Within i c :=
  ⟨t.walk_eq_bound_identifiers p, t.bound_identifiers_in_order p,
    fun _ => mem_bound_identifiers.trans binds_iff_reached,
    fun _ hi _ _ hq hc => (mem_bound_identifiers.mp hi).not_within_key_or_default hq hc⟩

/-- The program `var {a:{b=c},[k]:d=e,...r}=o;`. -/
def nestedPattern : Tree :=
  (Tree.ofRows? (Bytes.ofText "var \x7ba:\x7bb=c\x7d,[k]:d=e,...r\x7d=o;")
    #[⟨0, true, "program", 0, 29, none⟩,
      ⟨1, true, "variable_declaration", 0, 29, none⟩,
      ⟨2, true, "variable_declarator", 4, 28, none⟩,
      ⟨3, true, "object_pattern", 4, 26, some "name"⟩,
      ⟨4, true, "pair_pattern", 5, 12, none⟩,
      ⟨5, true, "property_identifier", 5, 6, some "key"⟩,
      ⟨5, true, "object_pattern", 7, 12, some "value"⟩,
      ⟨6, true, "object_assignment_pattern", 8, 11, none⟩,
      ⟨7, true, "shorthand_property_identifier_pattern", 8, 9, some "left"⟩,
      ⟨7, true, "identifier", 10, 11, some "right"⟩,
      ⟨4, true, "pair_pattern", 13, 20, none⟩,
      ⟨5, true, "computed_property_name", 13, 16, some "key"⟩,
      ⟨6, true, "identifier", 14, 15, none⟩,
      ⟨5, true, "assignment_pattern", 17, 20, some "value"⟩,
      ⟨6, true, "identifier", 17, 18, some "left"⟩,
      ⟨6, true, "identifier", 19, 20, some "right"⟩,
      ⟨4, true, "rest_pattern", 21, 25, none⟩,
      ⟨5, true, "identifier", 24, 25, none⟩,
      ⟨3, true, "identifier", 27, 28, some "value"⟩]).get (by decide +kernel)

/-- The walk finds `b`, `d` and `r`. The pattern reaches `d` through the value of its pair, and `d`
is not in the computed key. -/
theorem nested_pattern_walked :
    nestedPattern.visit^[nestedPattern.size] ⟨[3], []⟩ = ⟨[], [8, 14, 17]⟩ ∧
      Relation.ReflTransGen nestedPattern.BoundPart 3 14 ∧
      14 ∈ nestedPattern.boundIdentifiers 3 ∧ nestedPattern.Within 10 3 ∧
      nestedPattern.KeyOrDefault 10 11 ∧ ¬ nestedPattern.Within 14 11 := by
  have hfound : nestedPattern.boundIdentifiers 3 = [8, 14, 17] := by decide +kernel
  have hbound : 14 ∈ nestedPattern.boundIdentifiers 3 := by simp [hfound]
  have hinside : nestedPattern.Within 10 3 := by decide +kernel
  have hkey : nestedPattern.KeyOrDefault 10 11 :=
    .key (by decide +kernel) (by decide +kernel) (by decide +kernel)
  obtain ⟨hwalk, -, hreached, hapart⟩ := pattern_walk_exact nestedPattern 3
  rw [hfound] at hwalk
  exact ⟨hwalk, ((hreached 14).mp hbound).2, hbound, hinside, hkey,
    hapart 14 hbound 10 11 hinside hkey⟩

end Tree

end Excise
