import Excise.Proofs.Syntax.Ancestry
import Excise.Syntax.Import
import Excise.Syntax.Pattern
import Mathlib.Data.List.Basic

/-!
# What a pattern binds

A pattern binds through its parts (`Tree.BoundPart`). `Tree.Binds` follows it to the identifiers
that it binds, part by part, and `mem_bound_identifiers` says that these are the ones that
`Tree.boundIdentifiers` collects: a part stands in a later row than its pattern, so the levels of
the search never run out.
-/

namespace Excise.Tree

variable {t : Tree} {i n p q levels : Nat}

/-- A node binds through a part of it: a pair through its value, a default through its left side, a
parameter through its pattern, and an object, array or rest pattern through each named child. -/
inductive BoundPart (t : Tree) (p q : Node) : Prop where
  | pairValue : t.kind p = "pair_pattern" → t.FieldIs q p "value" → BoundPart t p q
  | defaultLeft :
      t.kind p ∈ ["assignment_pattern", "object_assignment_pattern"] → t.FieldIs q p "left" →
        BoundPart t p q
  | parameterPattern :
      t.kind p ∈ ["required_parameter", "optional_parameter"] → t.FieldIs q p "pattern" →
        BoundPart t p q
  | member :
      t.kind p ∈ ["object_pattern", "array_pattern", "rest_pattern"] → t.parent? q = some p →
        t.named q → BoundPart t p q

/-- A pattern binds an identifier: it is the identifier, or one of its binding parts binds it. -/
inductive Binds (t : Tree) : Node → Node → Prop where
  | identifier {i : Node} : t.IsBindingIdentifier i → Binds t i i
  | part {p q i : Node} :
      ¬ t.IsBindingIdentifier p → q ∈ t.boundParts p → Binds t q i → Binds t p i

/-- The kinds of pattern that have binding parts. -/
def partKinds : List String :=
  ["pair_pattern", "assignment_pattern", "object_assignment_pattern", "required_parameter",
    "optional_parameter", "object_pattern", "array_pattern", "rest_pattern"]

/-- What a field holds is a child. -/
theorem parent_of_field {name : String} (h : t.childByField? p name = some n) :
    t.parent? n = some p :=
  mem_children.mp (List.mem_of_find?_eq_some h)

/-- A named child of a kind is a child. -/
theorem parent_of_named_child_of_kind {kind : String} (h : n ∈ t.namedChildrenOfKind p kind) :
    t.parent? n = some p :=
  (mem_named_children_of_kind.mp h).1

/-- A named child of a kind has that kind. -/
theorem kind_of_named_child_of_kind {kind : String} (h : n ∈ t.namedChildrenOfKind p kind) :
    t.kind n = kind :=
  (mem_named_children_of_kind.mp h).2.2

/-- The parts of a pattern that are collected are those through which it binds. -/
theorem mem_bound_parts : q ∈ t.boundParts p ↔ t.BoundPart p q := by
  constructor
  · intro h
    unfold boundParts at h
    split_ifs at h with hpair hdefault hparameter hpattern
    · exact .pairValue hpair (Option.mem_toList.mp h)
    · exact .defaultLeft hdefault (Option.mem_toList.mp h)
    · exact .parameterPattern hparameter (Option.mem_toList.mp h)
    · exact .member hpattern (mem_named_children.mp h).1 (mem_named_children.mp h).2
    · exact absurd h List.not_mem_nil
  · intro h
    cases h with
    | pairValue hkind hvalue =>
        rw [boundParts, if_pos hkind]
        exact Option.mem_toList.mpr hvalue
    | defaultLeft hkind hleft =>
        have hkinds : ∀ k ∈ ["assignment_pattern", "object_assignment_pattern"],
            k ≠ "pair_pattern" := by
          decide
        rw [boundParts, if_neg (hkinds _ hkind), if_pos hkind]
        exact Option.mem_toList.mpr hleft
    | parameterPattern hkind hpattern =>
        have hkinds : ∀ k ∈ ["required_parameter", "optional_parameter"],
            k ≠ "pair_pattern" ∧ k ∉ ["assignment_pattern", "object_assignment_pattern"] := by
          decide
        obtain ⟨hpair, hdefault⟩ := hkinds _ hkind
        rw [boundParts, if_neg hpair, if_neg hdefault, if_pos hkind]
        exact Option.mem_toList.mpr hpattern
    | member hkind hparent hnamed =>
        have hkinds : ∀ k ∈ ["object_pattern", "array_pattern", "rest_pattern"],
            k ≠ "pair_pattern" ∧ k ∉ ["assignment_pattern", "object_assignment_pattern"] ∧
              k ∉ ["required_parameter", "optional_parameter"] := by
          decide
        obtain ⟨hpair, hdefault, hparameter⟩ := hkinds _ hkind
        rw [boundParts, if_neg hpair, if_neg hdefault, if_neg hparameter, if_pos hkind]
        exact mem_named_children.mpr ⟨hparent, hnamed⟩

/-- The binding parts of a pattern are children of it, and only a pattern has some. -/
theorem bound_part (h : q ∈ t.boundParts p) : t.parent? q = some p ∧ t.kind p ∈ partKinds := by
  cases mem_bound_parts.mp h with
  | pairValue hkind hvalue => exact ⟨parent_of_field hvalue, by simp [partKinds, hkind]⟩
  | defaultLeft hkind hleft =>
      refine ⟨parent_of_field hleft, ?_⟩
      rcases List.mem_pair.mp hkind with hkind | hkind <;> simp [partKinds, hkind]
  | parameterPattern hkind hpattern =>
      refine ⟨parent_of_field hpattern, ?_⟩
      rcases List.mem_pair.mp hkind with hkind | hkind <;> simp [partKinds, hkind]
  | member hkind hparent _ =>
      have hkinds : ∀ k ∈ ["object_pattern", "array_pattern", "rest_pattern"],
          k ∈ partKinds := by
        decide +kernel
      exact ⟨hparent, hkinds _ hkind⟩

/-- A node with a kind is a row of the tree. -/
theorem lt_size_of_kind (h : t.kind n ≠ "") : n < t.size := by
  rcases Nat.lt_or_ge n t.size with hn | hn
  · exact hn
  · have hrow : t.rows[n]? = none := Array.getElem?_eq_none hn
    exact absurd (by simp [kind, row, hrow]; rfl) h

/-- An identifier is a row of the tree. -/
theorem IsBindingIdentifier.lt_size (h : t.IsBindingIdentifier i) : i < t.size := by
  refine lt_size_of_kind fun hempty => ?_
  rw [IsBindingIdentifier, hempty] at h
  exact absurd h (by decide)

/-- A pattern that binds something is a row of the tree. -/
theorem Binds.lt_size (h : t.Binds p i) : p < t.size := by
  induction h with
  | identifier hi => exact hi.lt_size
  | part _ hpart _ ih => exact Nat.lt_trans (parent_lt (bound_part hpart).1) ih

/-- What a pattern binds is an identifier. -/
theorem Binds.is_identifier (h : t.Binds p i) : t.IsBindingIdentifier i := by
  induction h with
  | identifier hi => exact hi
  | part _ _ _ ih => exact ih

/-- What a pattern binds is within it. -/
theorem Binds.within (h : t.Binds p i) : t.Within i p := by
  induction h with
  | identifier _ => exact within_refl
  | part _ hpart _ ih => exact within_trans ih (within_parent (bound_part hpart).1)

/-- Looking through as many levels as there are rows after a pattern finds all that it binds. -/
theorem mem_bound_within (h : t.size ≤ levels + p) :
    i ∈ t.boundWithin levels p ↔ t.Binds p i := by
  induction levels generalizing p with
  | zero =>
      rw [boundWithin]
      constructor
      · intro hi
        exact absurd hi List.not_mem_nil
      · intro hbinds
        have hlt := hbinds.lt_size
        omega
  | succ levels ih =>
      rw [boundWithin]
      split
      case isTrue hidentifier =>
        rw [List.mem_singleton]
        constructor
        · rintro rfl
          exact .identifier hidentifier
        · intro hbinds
          cases hbinds with
          | identifier _ => rfl
          | part hnot _ _ => exact absurd hidentifier hnot
      case isFalse hnot =>
        rw [List.mem_flatMap]
        have hpart : ∀ q ∈ t.boundParts p, (i ∈ t.boundWithin levels q ↔ t.Binds q i) := by
          intro q hq
          have hlt := parent_lt (bound_part hq).1
          exact ih (by omega)
        constructor
        · rintro ⟨q, hq, hi⟩
          exact .part hnot hq ((hpart q hq).mp hi)
        · intro hbinds
          cases hbinds with
          | identifier hidentifier => exact absurd hidentifier hnot
          | part _ hq hi => exact ⟨_, hq, (hpart _ hq).mpr hi⟩

/-- More levels than there are rows after a pattern find nothing more in it. -/
theorem bound_within_succ (h : t.size ≤ levels + p) :
    t.boundWithin (levels + 1) p = t.boundWithin levels p := by
  induction levels generalizing p with
  | zero =>
      refine List.eq_nil_iff_forall_not_mem.mpr fun i hi => ?_
      have hlt := ((mem_bound_within (by omega)).mp hi).lt_size
      omega
  | succ levels ih =>
      rw [boundWithin, boundWithin]
      split
      case isTrue => rfl
      case isFalse =>
        refine List.flatMap_congr fun q hq => ih ?_
        have hlt := parent_lt (bound_part hq).1
        omega

/-- The identifiers of a pattern are those that it binds. -/
theorem mem_bound_identifiers : i ∈ t.boundIdentifiers p ↔ t.Binds p i :=
  mem_bound_within (by omega)

/-- The identifiers of an optional pattern are those that it binds. -/
theorem mem_bound_identifiers_in {pattern : Option Node} :
    i ∈ t.boundIdentifiersIn pattern ↔ ∃ p ∈ pattern, t.Binds p i := by
  cases pattern with
  | none => simp [boundIdentifiersIn]
  | some p => simp [boundIdentifiersIn, mem_bound_identifiers]

/-- The names that an import introduces are identifiers. -/
theorem imported_name_kind (h : i ∈ t.importedNames n) : t.kind i = "identifier" := by
  simp only [importedNames, List.mem_flatMap] at h
  obtain ⟨clause, -, h⟩ := h
  rw [clauseNames] at h
  split at h
  case isTrue =>
    exact kind_of_named_child_of_kind (List.mem_of_mem_head? (Option.mem_toList.mp h))
  case isFalse =>
    split at h
    case isFalse => exact absurd h List.not_mem_nil
    case isTrue =>
      obtain ⟨part, -, h⟩ := List.mem_flatMap.mp h
      rw [clausePartNames] at h
      split at h
      case isTrue hpart =>
        obtain rfl := List.mem_singleton.mp h
        exact hpart
      case isFalse =>
        split at h
        case isTrue => exact kind_of_named_child_of_kind h
        case isFalse =>
          split at h
          case isFalse => exact absurd h List.not_mem_nil
          case isTrue =>
            obtain ⟨specifier, -, h⟩ := List.mem_filterMap.mp h
            exact of_decide_eq_true (Option.filter_eq_some_iff.mp h).2

/-! ## The order -/

/-- At most one node is in order. -/
theorem to_list_in_order (o : Option Node) : o.toList.Pairwise (· < ·) := by
  cases o <;> simp

/-- The named children of a node are in pre-order. -/
theorem named_children_in_order (t : Tree) (n : Node) : (t.namedChildren n).Pairwise (· < ·) :=
  (t.children_in_order n).filter _

/-- The binding parts of a pattern are in pre-order. -/
theorem bound_parts_in_order (t : Tree) (n : Node) : (t.boundParts n).Pairwise (· < ·) := by
  unfold boundParts
  split_ifs
  · exact to_list_in_order _
  · exact to_list_in_order _
  · exact to_list_in_order _
  · exact t.named_children_in_order n
  · exact .nil

/-- What is found through some levels is within the pattern. -/
theorem within_of_mem_bound_within (h : i ∈ t.boundWithin levels p) : t.Within i p := by
  induction levels generalizing p with
  | zero => exact absurd h List.not_mem_nil
  | succ levels ih =>
      rw [boundWithin] at h
      split at h
      case isTrue => exact List.mem_singleton.mp h ▸ within_refl
      case isFalse =>
        obtain ⟨q, hq, hi⟩ := List.mem_flatMap.mp h
        exact within_trans (ih hi) (within_parent (bound_part hq).1)

/-- What is found through some levels is in pre-order. -/
theorem bound_within_in_order (t : Tree) (levels : Nat) (p : Node) :
    (t.boundWithin levels p).Pairwise (· < ·) := by
  induction levels generalizing p with
  | zero => exact .nil
  | succ levels ih =>
      rw [boundWithin]
      split
      case isTrue => exact List.pairwise_singleton _ _
      case isFalse =>
        exact flat_map_in_order (t.bound_parts_in_order p) (fun q hq => (bound_part hq).1)
          (fun q _ i hi => within_of_mem_bound_within hi) fun q _ => ih q

/-- The identifiers of a pattern are in pre-order, none of them twice. -/
theorem bound_identifiers_in_order (t : Tree) (p : Node) :
    (t.boundIdentifiers p).Pairwise (· < ·) := t.bound_within_in_order t.size p

/-- So are those of an optional pattern. -/
theorem bound_identifiers_in_in_order (t : Tree) (pattern : Option Node) :
    (t.boundIdentifiersIn pattern).Pairwise (· < ·) := by
  cases pattern with
  | none => exact .nil
  | some p => exact t.bound_identifiers_in_order p

/-- The name of an entry of an import is within it. -/
theorem within_of_specifier_name (h : t.specifierName? n = some i) : t.Within i n := by
  rcases Option.or_eq_some_iff.mp (Option.filter_eq_some_iff.mp h).1 with halias | ⟨-, hname⟩
  · exact within_parent (parent_of_field halias)
  · exact within_parent (parent_of_field hname)

/-- The names in a part of an import clause are within it, in pre-order. -/
theorem clause_part_names_in_order (t : Tree) (n : Node) :
    (∀ i ∈ t.clausePartNames n, t.Within i n) ∧ (t.clausePartNames n).Pairwise (· < ·) := by
  unfold clausePartNames
  split_ifs
  · exact ⟨fun i hi => List.mem_singleton.mp hi ▸ within_refl, List.pairwise_singleton _ _⟩
  · exact ⟨fun i hi => within_parent (parent_of_named_child_of_kind hi),
      t.named_children_of_kind_in_order n _⟩
  · rw [List.filterMap_eq_flatMap_toList]
    have hname : ∀ specifier ∈ t.namedChildrenOfKind n "import_specifier",
        ∀ i ∈ (t.specifierName? specifier).toList, t.Within i specifier :=
      fun specifier _ i hi => within_of_specifier_name (Option.mem_toList.mp hi)
    refine ⟨fun i hi => ?_, flat_map_in_order (t.named_children_of_kind_in_order n _)
      (fun _ h => parent_of_named_child_of_kind h) hname fun _ _ => to_list_in_order _⟩
    obtain ⟨specifier, hspecifier, hi⟩ := List.mem_flatMap.mp hi
    exact within_trans (hname specifier hspecifier i hi)
      (within_parent (parent_of_named_child_of_kind hspecifier))
  · exact ⟨fun i hi => absurd hi List.not_mem_nil, .nil⟩

/-- The names in a clause of an import are within it, in pre-order. -/
theorem clause_names_in_order (t : Tree) (n : Node) :
    (∀ i ∈ t.clauseNames n, t.Within i n) ∧ (t.clauseNames n).Pairwise (· < ·) := by
  unfold clauseNames
  split_ifs
  · refine ⟨fun i hi => ?_, to_list_in_order _⟩
    exact within_parent (parent_of_named_child_of_kind
      (List.mem_of_mem_head? (Option.mem_toList.mp hi)))
  · refine ⟨fun i hi => ?_, flat_map_in_order (t.named_children_in_order n)
      (fun _ h => (mem_named_children.mp h).1) (fun part _ => (t.clause_part_names_in_order part).1)
      fun part _ => (t.clause_part_names_in_order part).2⟩
    obtain ⟨part, hpart, hi⟩ := List.mem_flatMap.mp hi
    exact within_trans ((t.clause_part_names_in_order part).1 i hi)
      (within_parent (mem_named_children.mp hpart).1)
  · exact ⟨fun i hi => absurd hi List.not_mem_nil, .nil⟩

/-- The names that an import introduces are in pre-order, none of them twice. -/
theorem imported_names_in_order (t : Tree) (n : Node) :
    (t.importedNames n).Pairwise (· < ·) :=
  flat_map_in_order (t.named_children_in_order n) (fun _ h => (mem_named_children.mp h).1)
    (fun clause _ => (t.clause_names_in_order clause).1)
    fun clause _ => (t.clause_names_in_order clause).2

end Excise.Tree
