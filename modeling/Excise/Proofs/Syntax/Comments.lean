import Excise.Proofs.Syntax.Binding
import Excise.Proofs.Syntax.Form
import Mathlib.Data.List.Basic
import Mathlib.Order.WellFounded
import Mathlib.Tactic.SplitIfs

/-!
# Trees with comments in them

A comment can stand among the children of any node. `Tree.Commented` relates a tree to one with
comments in it: `place` says where the nodes of the first stand in the second, and every other row
of the second is a comment. A list of nodes then becomes the list of their places with comments
among them (`Interspersed`). What is looked up by field, or by another kind than that of comments,
is found in its place (`Commented.child_by_field_eq`, `Commented.named_children_of_kind_eq`), and so
are the identifiers that a pattern or an import names (`Commented.bound_identifiers_eq`,
`Commented.imported_names_eq`). The first named child may be a comment (`Tree.IsFronted`).
-/

namespace Excise

/-- The second list holds the places of the nodes of the first, in their order, and comments among
them. -/
inductive Interspersed (place : Node → Node) (comment : Node → Prop) :
    List Node → List Node → Prop where
  | nil : Interspersed place comment [] []
  | comment {i : Node} {l l' : List Node} (added : comment i)
      (rest : Interspersed place comment l l') : Interspersed place comment l (i :: l')
  | node {n : Node} {l l' : List Node} (rest : Interspersed place comment l l') :
      Interspersed place comment (n :: l) (place n :: l')

namespace Interspersed

variable {place : Node → Node} {comment : Node → Prop} {l l' : List Node} {α β : Type}

/-- Nodes in their places, without comments. -/
theorem of_map (l : List Node) : Interspersed place comment l (l.map place) := by
  induction l with
  | nil => exact .nil
  | cons n rest ih => exact .node ih

/-- A list in order whose members are the places of the nodes of another, and comments. -/
theorem of_mem_iff (hplace : StrictMono place) (hl : l.Pairwise (· < ·))
    (hl' : l'.Pairwise (· < ·)) (hsome : ∀ n ∈ l, place n ∈ l')
    (hmem : ∀ i ∈ l', (∃ n ∈ l, place n = i) ∨ comment i ∧ ∀ n, place n ≠ i) :
    Interspersed place comment l l' := by
  induction l' generalizing l with
  | nil =>
      cases l with
      | nil => exact .nil
      | cons n rest => exact absurd (hsome n List.mem_cons_self) List.not_mem_nil
  | cons i rest' ih =>
      obtain ⟨hfirst, hrest'⟩ := List.pairwise_cons.mp hl'
      rcases hmem i List.mem_cons_self with ⟨n, hn, rfl⟩ | ⟨hcomment, hother⟩
      · -- The first member is the place of the first node.
        cases l with
        | nil => exact absurd hn List.not_mem_nil
        | cons m rest =>
            obtain ⟨hm, hrest⟩ := List.pairwise_cons.mp hl
            have hle : place n ≤ place m := by
              rcases List.mem_cons.mp (hsome m List.mem_cons_self) with heq | hlater
              · exact Nat.le_of_eq heq.symm
              · exact Nat.le_of_lt (hfirst _ hlater)
            obtain rfl : n = m := by
              rcases List.mem_cons.mp hn with heq | hlater
              · exact heq
              · exact absurd (hplace (hm n hlater)) (Nat.not_lt_of_le hle)
            refine .node (ih hrest hrest' (fun k hk => ?_) fun j hj => ?_)
            · refine (List.mem_cons.mp (hsome k (List.mem_cons_of_mem n hk))).resolve_left ?_
              exact fun heq => Nat.ne_of_gt (hplace (hm k hk)) heq
            · rcases hmem j (List.mem_cons_of_mem _ hj) with ⟨k, hk, rfl⟩ | hadded
              · rcases List.mem_cons.mp hk with rfl | hk
                · exact absurd (hfirst _ hj) (Nat.lt_irrefl _)
                · exact .inl ⟨k, hk, rfl⟩
              · exact .inr hadded
      · refine .comment hcomment (ih hl hrest' (fun k hk => ?_) fun j hj =>
          hmem j (List.mem_cons_of_mem i hj))
        exact (List.mem_cons.mp (hsome k hk)).resolve_left (hother k)

/-- Of both lists the same nodes are picked, and any comments. -/
theorem filter (h : Interspersed place comment l l') {p p' : Node → Bool}
    (hp : ∀ n, p' (place n) = p n) : Interspersed place comment (l.filter p) (l'.filter p') := by
  induction h with
  | nil => exact .nil
  | @comment i l l' added rest ih =>
      by_cases hi : p' i
      · rw [List.filter_cons_of_pos hi]
        exact .comment added ih
      · rwa [List.filter_cons_of_neg hi]
  | @node n l l' rest ih =>
      by_cases hn : p n
      · rw [List.filter_cons_of_pos hn, List.filter_cons_of_pos ((hp n).trans hn)]
        exact .node ih
      · rw [List.filter_cons_of_neg hn, List.filter_cons_of_neg (by rwa [hp n])]
        exact ih

/-- Where no member is a comment, the second list is the first in its new places. -/
theorem eq_map (h : Interspersed place comment l l') (hnone : ∀ i ∈ l', ¬ comment i) :
    l' = l.map place := by
  induction h with
  | nil => rfl
  | comment added _ _ => exact absurd added (hnone _ List.mem_cons_self)
  | node _ ih => rw [List.map_cons, ih fun i hi => hnone i (List.mem_cons_of_mem _ hi)]

/-- What comments do not have is found in its place. -/
theorem find_eq (h : Interspersed place comment l l') {p p' : Node → Bool}
    (hp : ∀ n, p' (place n) = p n) (hcomment : ∀ i, comment i → p' i = false) :
    l'.find? p' = (l.find? p).map place := by
  induction h with
  | nil => rfl
  | comment added _ ih => rw [List.find?_cons, hcomment _ added, ih]
  | @node n l l' _ ih =>
      rw [List.find?_cons, List.find?_cons, hp n, ih]
      cases p n <;> rfl

/-- Where comments give nothing, the lists give the same. -/
theorem flat_map_eq (h : Interspersed place comment l l') {f : Node → List α} {f' : Node → List β}
    {g : α → β} (hf : ∀ n ∈ l, f' (place n) = (f n).map g)
    (hcomment : ∀ i, comment i → f' i = []) : l'.flatMap f' = (l.flatMap f).map g := by
  induction h with
  | nil => rfl
  | comment added _ ih => rw [List.flatMap_cons, hcomment _ added, List.nil_append, ih hf]
  | node _ ih =>
      obtain ⟨hn, hrest⟩ := List.forall_mem_cons.mp hf
      rw [List.flatMap_cons, List.flatMap_cons, List.map_append, hn, ih hrest]

/-- Where comments give nothing, the lists give the same. -/
theorem filter_map_eq (h : Interspersed place comment l l') {f : Node → Option α}
    {f' : Node → Option β} {g : α → β} (hf : ∀ n ∈ l, f' (place n) = (f n).map g)
    (hcomment : ∀ i, comment i → f' i = none) : l'.filterMap f' = (l.filterMap f).map g := by
  induction h with
  | nil => rfl
  | comment added _ ih => rw [List.filterMap_cons_none (hcomment _ added), ih hf]
  | @node n l l' _ ih =>
      obtain ⟨hn, hrest⟩ := List.forall_mem_cons.mp hf
      rw [List.filterMap_cons, List.filterMap_cons, hn, ih hrest]
      cases f n <;> rfl

/-- The first member is a comment or the place of the first node. -/
theorem head_cases (h : Interspersed place comment l l') :
    (∃ i, l'.head? = some i ∧ comment i) ∨ l'.head? = l.head?.map place := by
  cases h with
  | nil => exact .inr rfl
  | comment added _ => exact .inl ⟨_, rfl, added⟩
  | node _ => exact .inr rfl

end Interspersed

namespace Tree

/-- The node is a comment: named, of no field, with nothing inside. -/
structure IsComment (t : Tree) (n : Node) : Prop where
  kind_eq : t.kind n = "comment"
  named : t.named n
  field_eq : t.field n = none
  leaf : t.descendants n = []

/-- The node is a comment in none of the places. -/
structure IsAdded (t : Tree) (place : Node → Node) (n : Node) : Prop extends t.IsComment n where
  new : ∀ m, place m ≠ n

/-- A comment binds nothing. -/
theorem IsComment.bound_within_eq {t : Tree} {n : Node} (h : t.IsComment n) (levels : Nat) :
    t.boundWithin levels n = [] := by
  cases levels with
  | zero => rfl
  | succ levels =>
      simp [boundWithin, IsBindingIdentifier, boundParts, h.kind_eq, bindingKinds]

/-- More levels than there are rows find nothing more. -/
theorem bound_within_of_le {t : Tree} {levels : Nat} (h : t.size ≤ levels) (p : Node) :
    t.boundWithin levels p = t.boundWithin t.size p := by
  induction levels, h using Nat.le_induction with
  | base => rfl
  | succ levels hle ih => rw [bound_within_succ (by omega), ih]

/-- The tree `t'` is `t` with comments in it: the nodes of `t` stand in `t'` in the same order and
depth, each as it was but for its range, and every other row of `t'` is a comment. Identifiers,
strings and words keep their text. -/
structure Commented (t t' : Tree) (place : Node → Node) : Prop where
  order : StrictMono place
  lt_size_iff : ∀ n, place n < t'.size ↔ n < t.size
  depth_eq : ∀ n, t'.depth (place n) = t.depth n
  named_eq : ∀ n, t'.named (place n) = t.named n
  kind_eq : ∀ n, t'.kind (place n) = t.kind n
  field_eq : ∀ n, t'.field (place n) = t.field n
  text_eq : ∀ n, t.IsLexeme n → t'.text (place n) = t.text n
  comment : ∀ i < t'.size, (∀ n, place n ≠ i) → t'.IsComment i

namespace Commented

variable {t t' : Tree} {place : Nat → Nat} {a i n q : Nat} (h : t.Commented t' place)

include h

theorem place_inj {m n : Nat} : place m = place n ↔ m = n := h.order.injective.eq_iff

/-- A row is the place of a node or an added comment. -/
theorem cases (hi : i < t'.size) : (∃ n < t.size, place n = i) ∨ t'.IsAdded place i := by
  by_cases hplaced : ∃ n, place n = i
  · obtain ⟨n, rfl⟩ := hplaced
    exact .inl ⟨n, (h.lt_size_iff n).mp hi, rfl⟩
  · have hadded : ∀ n, place n ≠ i := fun n hn => hplaced ⟨n, hn⟩
    exact .inr { h.comment i hi hadded with new := hadded }

/-! ## Around a node and inside it -/

/-- The row after a comment is not deeper, so comments are deeper than what is around them. -/
theorem depth_lt_of_between (ha : a ∈ t.ancestors n) (hai : place a < i) (hin : i ≤ place n) :
    t.depth a < t'.depth i := by
  have hsize := (h.lt_size_iff n).mpr (lt_size_of_mem_ancestors ha)
  obtain ⟨-, hbetween⟩ := mem_ancestors.mp ha
  -- From the last row backwards.
  obtain ⟨k, hk⟩ := Nat.exists_eq_add_of_le hin
  induction k generalizing i with
  | zero =>
      obtain rfl : i = place n := by omega
      rw [h.depth_eq]
      exact hbetween n (mem_ancestors.mp ha).1 (Nat.le_refl n)
  | succ k ih =>
      rcases h.cases (Nat.lt_of_le_of_lt hin hsize) with ⟨m, -, rfl⟩ | hcomment
      · rw [h.depth_eq]
        exact hbetween m (h.order.lt_iff_lt.mp hai) (h.order.le_iff_le.mp hin)
      · have hnext := ih (i := i + 1) (by omega) (by omega) (by omega)
        have hleaf : i + 1 ∉ t'.descendants i := by simp [hcomment.leaf]
        rw [mem_descendants, not_and] at hleaf
        by_contra hshallow
        refine hleaf (Nat.lt_succ_self i) fun j hij hj => ?_
        obtain rfl : j = i + 1 := by omega
        omega

/-- An ancestor is an ancestor in its new place. -/
theorem ancestor_place (ha : a ∈ t.ancestors n) : place a ∈ t'.ancestors (place n) := by
  refine mem_ancestors.mpr ⟨h.order (lt_of_mem_ancestors ha), fun j haj hjn => ?_⟩
  rw [h.depth_eq]
  exact h.depth_lt_of_between ha haj hjn

/-- The root stays the root. -/
theorem root_place : place 0 = 0 := by
  by_contra hne
  have hroot : ∀ n, place n ≠ 0 := by
    intro n hn
    have hle : place 0 ≤ place n := h.order.monotone (Nat.zero_le n)
    omega
  have hcomment := h.comment 0 t'.size_pos hroot
  have hsize : place 0 < t'.size := (h.lt_size_iff 0).mpr t.size_pos
  have hinside : place 0 ∈ t'.descendants 0 := by
    refine mem_descendants.mpr ⟨Nat.pos_of_ne_zero hne, fun j hj hle => ?_⟩
    rw [(depth_eq_zero_iff t'.size_pos).mpr rfl]
    refine Nat.pos_of_ne_zero fun hzero => ?_
    have := (depth_eq_zero_iff (Nat.lt_of_le_of_lt hle hsize)).mp hzero
    omega
  simp [hcomment.leaf] at hinside

/-- The parent stands in its new place. -/
theorem parent_place (hq : t.parent? n = some q) : t'.parent? (place n) = some (place q) := by
  have hancestor := h.ancestor_place (parent_mem_ancestors hq)
  cases hparent : t'.parent? (place n) with
  | none => simp [ancestors_of_no_parent hparent] at hancestor
  | some q' =>
      rcases (mem_ancestors_of_parent hparent).mp hancestor with heq | habove
      · rw [heq]
      · -- What is around the parent is too far out.
        have hlt := (mem_ancestors.mp habove).2 q' (lt_of_mem_ancestors habove) (Nat.le_refl q')
        have hdepth := depth_of_parent hparent
        rw [h.depth_eq, depth_of_parent hq] at hdepth
        rw [h.depth_eq] at hlt
        omega

theorem parent_eq (n : Node) : t'.parent? (place n) = (t.parent? n).map place := by
  cases hparent : t.parent? n with
  | some q => exact h.parent_place hparent
  | none =>
      cases hparent' : t'.parent? (place n) with
      | none => rfl
      | some q' =>
          have hlt := lt_size_of_mem_ancestors (parent_mem_ancestors hparent')
          have hne : n ≠ 0 := by
            rintro rfl
            rw [h.root_place] at hparent'
            exact absurd (parent_lt hparent') (Nat.not_lt_zero q')
          obtain ⟨q, hq⟩ := exists_parent ((h.lt_size_iff n).mp hlt) hne
          simp [hq] at hparent

/-- The nodes around a node, in their new places. -/
theorem ancestors_eq (n : Node) : t'.ancestors (place n) = (t.ancestors n).map place := by
  induction n using parent_induction (t := t) with
  | root n hroot =>
      have hroot' : t'.parent? (place n) = none := by rw [h.parent_eq, hroot, Option.map_none]
      rw [ancestors_of_no_parent hroot, ancestors_of_no_parent hroot', List.map_nil]
  | child n q hq ih =>
      rw [ancestors_of_parent hq, ancestors_of_parent (h.parent_place hq), ih, List.map_cons]

/-- All nodes, in their new places. -/
theorem nodes : Interspersed place (t'.IsAdded place) t.nodes t'.nodes := by
  refine .of_mem_iff h.order List.pairwise_lt_range List.pairwise_lt_range (fun n hn => ?_)
    fun i hi => ?_
  · exact List.mem_range.mpr ((h.lt_size_iff n).mpr (List.mem_range.mp hn))
  · rcases h.cases (List.mem_range.mp hi) with ⟨n, hn, rfl⟩ | hcomment
    · exact .inl ⟨n, List.mem_range.mpr hn, rfl⟩
    · exact .inr ⟨hcomment, hcomment.new⟩

/-- The children of a node, in their new places. -/
theorem children (q : Node) :
    Interspersed place (t'.IsAdded place) (t.children q) (t'.children (place q)) := by
  refine .of_mem_iff h.order (t.children_in_order q) (t'.children_in_order _) (fun n hn => ?_)
    fun i hi => ?_
  · exact mem_children.mpr (h.parent_place (mem_children.mp hn))
  · have hparent := mem_children.mp hi
    rcases h.cases (lt_size_of_mem_ancestors (parent_mem_ancestors hparent)) with
      ⟨n, -, rfl⟩ | hcomment
    · rw [h.parent_eq, Option.map_eq_some_iff] at hparent
      obtain ⟨q', hq', heq⟩ := hparent
      exact .inl ⟨n, mem_children.mpr (h.place_inj.mp heq ▸ hq'), rfl⟩
    · exact .inr ⟨hcomment, hcomment.new⟩

/-- The named children of a node, in their new places. -/
theorem named_children (q : Node) :
    Interspersed place (t'.IsAdded place) (t.namedChildren q) (t'.namedChildren (place q)) :=
  (h.children q).filter h.named_eq

/-- No comment fills a field. -/
theorem child_by_field_eq (q : Node) (name : String) :
    t'.childByField? (place q) name = (t.childByField? q name).map place :=
  (h.children q).find_eq (fun n => by rw [h.field_eq]) fun i hi => by simp [hi.field_eq]

/-- No comment is of another kind. -/
theorem named_children_of_kind_eq (q : Node) {kind : String} (hkind : kind ≠ "comment") :
    t'.namedChildrenOfKind (place q) kind = (t.namedChildrenOfKind q kind).map place := by
  refine ((h.named_children q).filter fun n => by rw [h.kind_eq]).eq_map fun i hi hcomment => ?_
  exact hkind ((kind_of_named_child_of_kind hi).symm.trans hcomment.kind_eq)

theorem field_is_iff (n q : Node) (name : String) :
    t'.FieldIs (place n) (place q) name ↔ t.FieldIs n q name := by
  rw [FieldIs, FieldIs, h.child_by_field_eq, Option.map_eq_some_iff]
  simp only [h.place_inj, exists_eq_right]

/-- The word in a field of words is the same. -/
theorem word_text_eq (q : Node) {name : String} (hname : name ∈ ["kind", "operator"]) :
    (t'.childByField? (place q) name).map t'.text = (t.childByField? q name).map t.text := by
  rw [h.child_by_field_eq, Option.map_map]
  refine Option.map_congr fun word hword => h.text_eq word (.inr ?_)
  rw [IsWord, field_of_child_by_field hword]
  simpa using hname

/-! ## Patterns and imports -/

theorem is_binding_identifier_iff (n : Node) :
    t'.IsBindingIdentifier (place n) ↔ t.IsBindingIdentifier n := by
  rw [IsBindingIdentifier, IsBindingIdentifier, h.kind_eq]

/-- The parts of a pattern that bind, with comments among the parts of an object or array. -/
theorem bound_parts (n : Node) :
    Interspersed place (t'.IsAdded place) (t.boundParts n) (t'.boundParts (place n)) := by
  have hfield : ∀ name : String, Interspersed place (t'.IsAdded place)
      (t.childByField? n name).toList (t'.childByField? (place n) name).toList := by
    intro name
    rw [h.child_by_field_eq, Option.toList_map]
    exact .of_map _
  simp only [boundParts, h.kind_eq]
  split_ifs
  · exact hfield _
  · exact hfield _
  · exact hfield _
  · exact h.named_children n
  · exact .nil

theorem bound_within_eq (levels : Nat) (n : Node) :
    t'.boundWithin levels (place n) = (t.boundWithin levels n).map place := by
  induction levels generalizing n with
  | zero => rfl
  | succ levels ih =>
      rw [boundWithin, boundWithin]
      simp only [h.is_binding_identifier_iff]
      split
      case isTrue => rfl
      case isFalse =>
        exact (h.bound_parts n).flat_map_eq (fun m _ => ih m) fun i hi => hi.bound_within_eq levels

theorem size_le : t.size ≤ t'.size := by
  by_contra hlt
  have hle : t'.size ≤ place t'.size := h.order.le_apply
  exact absurd ((h.lt_size_iff t'.size).mpr (Nat.lt_of_not_le hlt)) (Nat.not_lt_of_le hle)

theorem bound_identifiers_eq (n : Node) :
    t'.boundIdentifiers (place n) = (t.boundIdentifiers n).map place := by
  rw [boundIdentifiers, h.bound_within_eq, bound_within_of_le h.size_le, boundIdentifiers]

theorem bound_identifiers_in_eq (pattern : Option Node) :
    t'.boundIdentifiersIn (pattern.map place) = (t.boundIdentifiersIn pattern).map place := by
  cases pattern with
  | none => rfl
  | some p => exact h.bound_identifiers_eq p

theorem literal_text_eq (n : Node) : t'.literalText? (place n) = t.literalText? n := by
  simp only [literalText?, h.kind_eq]
  split
  case isTrue hkind => rw [h.text_eq n (.inl (by simp [hkind]))]
  case isFalse => rfl

theorem module_specifier_eq (n : Node) :
    t'.moduleSpecifier? (place n) = (t.moduleSpecifier? n).map place := by
  have hstrings : (t'.namedChildrenOfKind (place n) "import_require_clause").flatMap
      (fun clause => t'.namedChildrenOfKind clause "string") =
      ((t.namedChildrenOfKind n "import_require_clause").flatMap
        fun clause => t.namedChildrenOfKind clause "string").map place := by
    rw [h.named_children_of_kind_eq n (by decide), List.flatMap_map, List.map_flatMap]
    exact congrArg₂ _ (funext fun clause => h.named_children_of_kind_eq clause (by decide)) rfl
  rw [moduleSpecifier?, moduleSpecifier?, h.child_by_field_eq, hstrings, List.head?_map,
    Option.map_or]

theorem imports_module_iff (target : String) (n : Node) :
    t'.ImportsModule target (place n) ↔ t.ImportsModule target n := by
  rw [ImportsModule, ImportsModule, h.module_specifier_eq, Option.bind_map]
  simp only [Function.comp_def, h.literal_text_eq]

theorem specifier_name_eq (n : Node) :
    t'.specifierName? (place n) = (t.specifierName? n).map place := by
  rw [specifierName?, specifierName?, h.child_by_field_eq, h.child_by_field_eq, ← Option.map_or,
    Option.filter_map]
  simp only [Function.comp_def, h.kind_eq]

theorem clause_part_names_eq (n : Node) :
    t'.clausePartNames (place n) = (t.clausePartNames n).map place := by
  rw [clausePartNames, clausePartNames, h.kind_eq, h.named_children_of_kind_eq n (by decide),
    h.named_children_of_kind_eq n (by decide)]
  split_ifs
  · rfl
  · rfl
  · rw [List.filterMap_map, List.map_filterMap]
    exact congrArg₂ _ (funext h.specifier_name_eq) rfl
  · rfl

theorem clause_names_eq (n : Node) :
    t'.clauseNames (place n) = (t.clauseNames n).map place := by
  rw [clauseNames, clauseNames, h.kind_eq, h.named_children_of_kind_eq n (by decide)]
  split_ifs
  · rw [List.head?_map, Option.toList_map]
  · exact (h.named_children n).flat_map_eq (fun m _ => h.clause_part_names_eq m) fun i hi => by
      simp [clausePartNames, hi.kind_eq]
  · rfl

theorem imported_names_eq (n : Node) :
    t'.importedNames (place n) = (t.importedNames n).map place :=
  (h.named_children n).flat_map_eq (fun m _ => h.clause_names_eq m) fun i hi => by
    simp [clauseNames, hi.kind_eq]

end Commented

/-- The first named child of the node, in its new place, is a comment that was not there. -/
def IsFronted (t t' : Tree) (place : Node → Node) (n : Node) : Prop :=
  (t'.namedChildren (place n)).head? ≠ (t.namedChildren n).head?.map place

/-- Two optional nodes are compared. -/
instance (t t' : Tree) (place : Node → Node) (n : Node) : Decidable (t.IsFronted t' place n) :=
  inferInstanceAs (Decidable (_ ≠ _))

/-- Where the first named child changes, it is an added comment. -/
theorem Commented.added_of_fronted {t t' : Tree} {place : Nat → Nat} {n : Nat}
    (h : t.Commented t' place) (hfronted : t.IsFronted t' place n) :
    ∃ i, (t'.namedChildren (place n)).head? = some i ∧ t'.IsAdded place i :=
  (h.named_children n).head_cases.resolve_right hfronted

end Tree

end Excise
