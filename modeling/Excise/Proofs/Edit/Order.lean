import Excise.Proofs.Edit.Conservation
import Excise.Proofs.Plan.Tables

/-!
# The order in which a plan was filled

Two plans with the same tables ask for the same edits, in different orders (`Plan.edits_perm`). The
sweep sorts them by their ranges, and of one range the cuts come before the deletions and these
before the replacements, because the sort is stable (`pairwise_merge_sort_of_ties`) and the edits
are made in this order. So where edits of one kind have different ranges only one order is left
(`merge_sort_eq_of_perm`), and carrying out the plans is the same (`apply_order_irrelevant`).
-/

namespace Excise

/-! ## A stable sort -/

/-- A sort of this kind leaves elements that it does not tell apart in their order. -/
theorem pairwise_merge_sort_of_ties {α : Type} {le : α → α → Bool} {S : α → α → Prop}
    {l : List α} (htrans : ∀ a b c, le a b = true → le b c = true → le a c = true)
    (htotal : ∀ a b, (le a b || le b a) = true) (h : l.Pairwise S) :
    (l.mergeSort le).Pairwise fun a b => le a b = true ∧ (le b a = true → S a b) := by
  have hperm := List.mergeSort_perm l.zipIdx (List.zipIdxLE le)
  have hsorted := List.pairwise_mergeSort (List.zipIdxLE_trans htrans)
    (List.zipIdxLE_total htotal) l.zipIdx
  have hindices : (l.zipIdx.mergeSort (List.zipIdxLE le)).Pairwise fun a b => a.2 ≠ b.2 := by
    refine (hperm.pairwise_iff fun h => h.symm).mpr (List.pairwise_map.mp ?_)
    rw [List.zipIdx_map_snd]
    exact List.nodup_range'
  rw [← List.mergeSort_zipIdx, List.pairwise_map]
  refine (hsorted.and hindices).imp_of_mem ?_
  rintro ⟨a, i⟩ ⟨b, j⟩ ha hb ⟨hle, hne⟩
  have ha := List.mem_zipIdx_iff_getElem?.mp (hperm.mem_iff.mp ha)
  have hb := List.mem_zipIdx_iff_getElem?.mp (hperm.mem_iff.mp hb)
  simp only [List.zipIdxLE] at hle
  split at hle
  case isTrue hab =>
    refine ⟨hab, fun hba => ?_⟩
    rw [if_pos hba, decide_eq_true_eq] at hle
    -- Of two places in the list the one that comes first has the smaller index.
    obtain ⟨hi, hai⟩ := List.getElem?_eq_some_iff.mp ha
    obtain ⟨hj, hbj⟩ := List.getElem?_eq_some_iff.mp hb
    have hS := List.pairwise_iff_getElem.mp h i j hi hj (Nat.lt_of_le_of_ne hle hne)
    rwa [hai, hbj] at hS
  case isFalse => exact absurd hle Bool.false_ne_true

/-! ## The sorted edits -/

/-- The place of a kind in the order in which the edits of a plan are made. -/
def EditKind.rank : EditKind → Nat
  | .item => 0
  | .statement => 1
  | .replacement => 2

/-- A kind is known by its place. -/
theorem EditKind.rank_inj {a b : EditKind} (h : a.rank = b.rank) : a = b := by
  cases a <;> cases b <;> first | rfl | exact absurd h (by decide)

namespace Edit

/-- The ranges of two edits are the same. -/
def SameRange (a b : Edit) : Prop := a.start = b.start ∧ a.stop = b.stop

/-- Two offsets are compared twice. -/
instance (a b : Edit) : Decidable (a.SameRange b) := inferInstanceAs (Decidable (_ ∧ _))

/-- Edits that the order of examination does not tell apart have one range. -/
theorem Before.same_range {a b : Edit} (hab : a.Before b) (hba : b.Before a) : a.SameRange b := by
  unfold Before at hab hba
  unfold SameRange
  omega

/-- The order in which edits of a plan are examined, if edits of one kind have different ranges. -/
def Leads (a b : Edit) : Prop := a.Before b ∧ (b.Before a → a.kind.rank < b.kind.rank)

/-- Ranges and kinds are compared. -/
instance (a b : Edit) : Decidable (a.Leads b) := inferInstanceAs (Decidable (_ ∧ (_ → _)))

/-- No two edits lead each other. -/
theorem Leads.asymm {a b : Edit} (hab : a.Leads b) : ¬ b.Leads a := by
  intro hba
  have hlt := hab.2 hba.1
  exact Nat.lt_asymm hlt (hba.2 hab.1)

end Edit

variable {edits others : List Edit}

/-- Edits of one kind have different ranges. -/
def DistinctRanges (edits : List Edit) : Prop :=
  edits.Pairwise fun a b => a.kind = b.kind → ¬ a.SameRange b

/-- The edits are compared pair by pair. -/
instance (edits : List Edit) : Decidable (DistinctRanges edits) :=
  inferInstanceAs (Decidable (edits.Pairwise fun a b => a.kind = b.kind → ¬ a.SameRange b))

/-- The edits come kind by kind. -/
def KindByKind (edits : List Edit) : Prop :=
  edits.Pairwise fun a b => a.kind.rank ≤ b.kind.rank

/-- Other orders of the edits have different ranges, too. -/
theorem DistinctRanges.of_perm (h : DistinctRanges edits) (hperm : others.Perm edits) :
    DistinctRanges others := by
  refine (hperm.pairwise_iff fun {a b} hab hkind hrange => ?_).mpr h
  exact hab hkind.symm ⟨hrange.1.symm, hrange.2.symm⟩

/-- Of sorted edits that came kind by kind each leads those behind it. -/
theorem pairwise_leads (hkinds : KindByKind edits) (hdistinct : DistinctRanges edits) :
    (edits.mergeSort fun a b => a.Before b).Pairwise Edit.Leads := by
  have hranks : edits.Pairwise fun a b => a.SameRange b → a.kind.rank < b.kind.rank := by
    refine hkinds.imp₂ (fun a b hle hne hrange => ?_) hdistinct
    refine Nat.lt_of_le_of_ne hle fun heq => ?_
    exact hne (EditKind.rank_inj heq) hrange
  refine (pairwise_merge_sort_of_ties (fun a b c hab hbc => ?_) (fun a b => ?_) hranks).imp ?_
  · exact decide_eq_true ((of_decide_eq_true hab).trans (of_decide_eq_true hbc))
  · simpa using Edit.before_total a b
  · rintro a b ⟨hab, htie⟩
    have hbefore : a.Before b := of_decide_eq_true hab
    exact ⟨hbefore, fun hba => htie (decide_eq_true hba) (hbefore.same_range hba)⟩

/-- Edits that come kind by kind are sorted into the order in which each leads those behind it. -/
theorem merge_sort_eq_of_leads (hkinds : KindByKind edits) (hdistinct : DistinctRanges edits)
    (hperm : others.Perm edits) (hleads : others.Pairwise Edit.Leads) :
    (edits.mergeSort fun a b => a.Before b) = others := by
  refine List.Perm.eq_of_pairwise (fun a b _ _ hab hba => absurd hba hab.asymm)
    (pairwise_leads hkinds hdistinct) hleads ?_
  exact (List.mergeSort_perm edits _).trans hperm.symm

/-- Two orders of edits that come kind by kind, where those of one kind have different ranges, are
sorted alike. -/
theorem merge_sort_eq_of_perm (hperm : edits.Perm others) (hkinds : KindByKind edits)
    (hothers : KindByKind others) (hdistinct : DistinctRanges edits) :
    (others.mergeSort fun a b => a.Before b) = edits.mergeSort fun a b => a.Before b :=
  merge_sort_eq_of_leads hothers (hdistinct.of_perm hperm.symm)
    ((List.mergeSort_perm edits _).trans hperm) (pairwise_leads hkinds hdistinct)

/-! ## The edits of plans with the same tables -/

/-- Marks that hold the same items cut a list alike. -/
theorem Tree.cut_items_congr {t : Tree} {marked marks : List Node}
    (h : ∀ n, n ∈ marked ↔ n ∈ marks) (items : List Node) :
    t.cutItems marked items = t.cutItems marks items := by
  induction items with
  | nil => rfl
  | cons item rest ih => simp only [Tree.cutItems, h, ih]

namespace Plan

variable {t : Tree} {p q : Plan} {c : Node}

/-- The items that the plan marks in one list are of one kind. -/
def MarksOneKind (t : Tree) (p : Plan) : Prop :=
  ∀ i ∈ p.items, ∀ j ∈ p.items, (t.parent? i).isSome → t.parent? i = t.parent? j →
    t.kind i = t.kind j

/-- The items are compared pair by pair. -/
instance (t : Tree) (p : Plan) : Decidable (p.MarksOneKind t) :=
  inferInstanceAs (Decidable (∀ i ∈ p.items, ∀ j ∈ p.items, (t.parent? i).isSome →
    t.parent? i = t.parent? j → t.kind i = t.kind j))

/-- The list of a container with the items that the plan marks in it. -/
def listAt (t : Tree) (p : Plan) (c : Node) : MarkedList :=
  ⟨c, p.items.filter fun i => t.parent? i = some c⟩

/-- The lists with marked items are those of their containers. -/
theorem marked_lists_eq_map (t : Tree) (p : Plan) :
    p.markedLists t = (p.containers t).map (p.listAt t) :=
  rfl

/-- Adding nodes to a table lists no node twice. -/
theorem nodup_foldl_insert_node {nodes table : List Node} (h : table.Nodup) :
    (nodes.foldl insertNode table).Nodup := by
  induction nodes generalizing table with
  | nil => exact h
  | cons n rest ih => exact ih (nodup_insert_node h)

/-- Nodes that stood in a table stay in their order when others are added. -/
theorem sublist_foldl_insert_node (nodes table : List Node) :
    table.Sublist (nodes.foldl insertNode table) := by
  induction nodes generalizing table with
  | nil => exact List.Sublist.refl table
  | cons n rest ih =>
      refine List.Sublist.trans ?_ (ih (insertNode table n))
      unfold insertNode
      split
      · exact List.Sublist.refl table
      · exact List.sublist_append_left table [n]

namespace SameTables

variable (h : p.SameTables q)

include h

/-- The marked items of a list are the same. -/
theorem mem_marked_iff (c n : Node) :
    n ∈ (p.listAt t c).marked ↔ n ∈ (q.listAt t c).marked :=
  (h.items.filter _).mem_iff

/-- The containers are the same. -/
theorem containers_perm (t : Tree) : (p.containers t).Perm (q.containers t) := by
  refine (List.perm_ext_iff_of_nodup (nodup_foldl_insert_node List.nodup_nil)
    (nodup_foldl_insert_node List.nodup_nil)).mpr fun n => ?_
  rw [mem_foldl_insert_node, mem_foldl_insert_node, (h.items.filterMap t.parent?).mem_iff]

/-- The items of a list are the same, where the marked ones are of one kind. -/
theorem items_eq (hkind : p.MarksOneKind t) (c : Node) :
    (p.listAt t c).items t = (q.listAt t c).items t := by
  unfold MarkedList.items
  cases hp : (p.listAt t c).marked.head? with
  | none =>
      have hnone : (q.listAt t c).marked = [] := by
        refine List.eq_nil_iff_forall_not_mem.mpr fun n hn => ?_
        rw [← h.mem_marked_iff, List.head?_eq_none_iff.mp hp] at hn
        exact List.not_mem_nil hn
      rw [hnone]
      rfl
  | some first =>
      have hfirst := List.mem_of_mem_head? hp
      cases hq : (q.listAt t c).marked.head? with
      | none =>
          rw [h.mem_marked_iff, List.head?_eq_none_iff.mp hq] at hfirst
          exact absurd hfirst List.not_mem_nil
      | some other =>
          have hother := (h.mem_marked_iff c other).mpr (List.mem_of_mem_head? hq)
          obtain ⟨hitem, hparent⟩ := List.mem_filter.mp hfirst
          obtain ⟨hitem', hparent'⟩ := List.mem_filter.mp hother
          rw [decide_eq_true_eq] at hparent hparent'
          have hsame : t.kind first = t.kind other :=
            hkind first hitem other hitem' (by simp [hparent]) (hparent.trans hparent'.symm)
          show t.namedChildrenOfKind c (t.kind first) = t.namedChildrenOfKind c (t.kind other)
          rw [hsame]

/-- A list loses all its items for both plans or for none. -/
theorem is_full_iff (hkind : p.MarksOneKind t) (c : Node) :
    (p.listAt t c).IsFull t ↔ (q.listAt t c).IsFull t := by
  unfold MarkedList.IsFull
  rw [h.items_eq hkind]
  simp only [h.mem_marked_iff]

/-- The cuts are the same. -/
theorem cuts_perm (hkind : p.MarksOneKind t) :
    (((p.markedLists t).filter fun l => ¬ l.IsFull t).flatMap fun l =>
        t.cutItems l.marked (l.items t)).Perm
      (((q.markedLists t).filter fun l => ¬ l.IsFull t).flatMap fun l =>
        t.cutItems l.marked (l.items t)) := by
  have hkeeps : ((p.containers t).filter fun c => ¬ (p.listAt t c).IsFull t).Perm
      ((q.containers t).filter fun c => ¬ (q.listAt t c).IsFull t) := by
    have hcongr : ((p.containers t).filter fun c => ¬ (p.listAt t c).IsFull t) =
        (p.containers t).filter fun c => ¬ (q.listAt t c).IsFull t :=
      List.filter_congr fun c _ => by simp only [h.is_full_iff hkind]
    rw [hcongr]
    exact (h.containers_perm t).filter _
  have hcuts : (fun c => t.cutItems (p.listAt t c).marked ((p.listAt t c).items t)) =
      fun c => t.cutItems (q.listAt t c).marked ((q.listAt t c).items t) := by
    funext c
    rw [h.items_eq hkind]
    exact Tree.cut_items_congr (h.mem_marked_iff c) _
  rw [marked_lists_eq_map, marked_lists_eq_map, List.filter_map, List.filter_map,
    List.flatMap_map, List.flatMap_map, hcuts]
  exact hkeeps.flatMap_right _

/-- The statements to delete are the same. -/
theorem mem_statements_iff (hkind : p.MarksOneKind t) (n : Node) :
    n ∈ p.statements t ↔ n ∈ q.statements t := by
  have hlists : (∃ l ∈ p.markedLists t, l.IsFull t ∧ t.listOwner l.container = n) ↔
      ∃ l ∈ q.markedLists t, l.IsFull t ∧ t.listOwner l.container = n := by
    rw [marked_lists_eq_map, marked_lists_eq_map]
    simp only [List.mem_map, exists_exists_and_eq_and, h.is_full_iff hkind,
      (h.containers_perm t).mem_iff]
    rfl
  rw [mem_statements, mem_statements, h.deletions.mem_iff, hlists]

/-- The statements to delete are the same, each listed once, if the first plan lists none twice. -/
theorem statements_perm (hkind : p.MarksOneKind t) (hnodup : (p.statements t).Nodup) :
    (p.statements t).Perm (q.statements t) := by
  have hdeletions : p.deletions.Nodup := hnodup.sublist (sublist_foldl_insert_node _ _)
  exact (List.perm_ext_iff_of_nodup hnodup
    (nodup_foldl_insert_node (h.deletions.nodup_iff.mp hdeletions))).mpr
      (h.mem_statements_iff hkind)

end SameTables

/-- A plan with different ranges for the edits of each kind lists no statement twice. -/
theorem nodup_statements (h : DistinctRanges (p.edits t)) : (p.statements t).Nodup := by
  have hdeletions : DistinctRanges ((p.statements t).map t.deleteStatement) :=
    h.sublist ((List.sublist_append_right _ _).trans (List.sublist_append_left _ _))
  refine (List.pairwise_map.mp hdeletions).imp fun {a b} hab heq => ?_
  subst heq
  exact hab rfl ⟨rfl, rfl⟩

/-- Plans with the same tables ask for the same edits. -/
theorem edits_perm (h : p.SameTables q) (hkind : p.MarksOneKind t)
    (hdistinct : DistinctRanges (p.edits t)) : (p.edits t).Perm (q.edits t) := by
  have hstatements := h.statements_perm hkind (nodup_statements hdistinct)
  exact ((h.cuts_perm hkind).append (hstatements.map _)).append (h.replacements.map _)

/-- A plan asks for its cuts first, then for its deletions, and for its replacements last. -/
theorem edits_kind_by_kind (t : Tree) (p : Plan) : KindByKind (p.edits t) := by
  have hcuts : ∀ e ∈ ((p.markedLists t).filter fun l => ¬ l.IsFull t).flatMap fun l =>
      t.cutItems l.marked (l.items t), e.kind = .item := by
    intro e he
    obtain ⟨l, -, hcut⟩ := List.mem_flatMap.mp he
    exact Tree.kind_of_mem_cuts hcut
  have hdeletions : ∀ e ∈ (p.statements t).map t.deleteStatement, e.kind = .statement := by
    intro e he
    obtain ⟨n, -, rfl⟩ := List.mem_map.mp he
    exact Tree.kind_of_delete_statement t n
  have hreplacements : ∀ e ∈ p.replacements.map t.replaceNode, e.kind = .replacement := by
    intro e he
    obtain ⟨r, -, rfl⟩ := List.mem_map.mp he
    rfl
  have hone : ∀ (kind : EditKind) (edits : List Edit), (∀ e ∈ edits, e.kind = kind) →
      KindByKind edits := by
    intro kind edits hkind
    refine List.pairwise_of_forall_mem_list fun a ha b hb => ?_
    exact Nat.le_of_eq (congrArg EditKind.rank ((hkind a ha).trans (hkind b hb).symm))
  refine List.pairwise_append.mpr ⟨List.pairwise_append.mpr ⟨hone _ _ hcuts, hone _ _ hdeletions,
    fun a ha b hb => ?_⟩, hone _ _ hreplacements, fun a ha b hb => ?_⟩
  · rw [hcuts a ha, hdeletions b hb]
    decide
  · rw [hreplacements b hb]
    rcases List.mem_append.mp ha with ha | ha
    · rw [hcuts a ha]
      decide
    · rw [hdeletions a ha]
      decide

end Plan

/-- Two plans with the same tables, filled in whatever orders, that mark items of one kind in each
list and whose edits of one kind have different ranges, are carried out alike: the source, the
counts and the reports are the same. -/
theorem apply_order_irrelevant (t : Tree) (p q : Plan) (hsame : p.SameTables q)
    (hkind : p.MarksOneKind t) (hdistinct : DistinctRanges (p.edits t)) :
    p.apply t = q.apply t := by
  have hperm := Plan.edits_perm hsame hkind hdistinct
  have hsorted := merge_sort_eq_of_perm hperm (Plan.edits_kind_by_kind t p)
    (Plan.edits_kind_by_kind t q) hdistinct
  have hsweep : sweep (p.edits t) = sweep (q.edits t) := by rw [sweep, sweep, hsorted]
  rw [Plan.apply, Plan.apply, hsweep]

/-- The program `a(); b(); var c,d,e; f(g);`. -/
def crowdedLine : Tree :=
  (Tree.ofRows? (Bytes.ofText "a(); b(); var c,d,e; f(g);")
    #[⟨0, true, "program", 0, 26, none⟩,
      ⟨1, true, "expression_statement", 0, 4, none⟩,
      ⟨2, true, "call_expression", 0, 3, none⟩,
      ⟨1, true, "expression_statement", 5, 9, none⟩,
      ⟨2, true, "call_expression", 5, 8, none⟩,
      ⟨1, true, "variable_declaration", 10, 20, none⟩,
      ⟨2, true, "variable_declarator", 14, 15, none⟩,
      ⟨2, true, "variable_declarator", 16, 17, none⟩,
      ⟨2, true, "variable_declarator", 18, 19, none⟩,
      ⟨1, true, "expression_statement", 21, 26, none⟩,
      ⟨2, true, "call_expression", 21, 25, none⟩,
      ⟨3, true, "identifier", 21, 22, some "function"⟩,
      ⟨3, true, "arguments", 22, 25, some "arguments"⟩,
      ⟨4, true, "identifier", 23, 24, none⟩]).get (by decide +kernel)

/-- Delete the statements other than the declaration, remove its first two items, and replace a call
and an argument that go with their statements. -/
def crowdedEntries : Plan := ⟨[1, 3, 9], [6, 7], [(13, "undefined"), (2, "0")]⟩

/-- The same tables, filled in another order. -/
def rearrangedEntries : Plan := ⟨[9, 1, 3], [7, 6], [(2, "0"), (13, "undefined")]⟩

/-- The first two deletions overlap and are merged, and the replacements are inside deletions. Both
plans leave ` var e;`. -/
theorem rearranged_entries_applied_alike :
    crowdedEntries.SameTables rearrangedEntries ∧ crowdedEntries.MarksOneKind crowdedLine ∧
      DistinctRanges (crowdedEntries.edits crowdedLine) ∧
      crowdedEntries.apply crowdedLine = rearrangedEntries.apply crowdedLine ∧
      (rearrangedEntries.apply crowdedLine).source = Bytes.ofText " var e;" := by
  have hsame : crowdedEntries.SameTables rearrangedEntries :=
    ⟨by decide, by decide, by decide⟩
  have hkind : crowdedEntries.MarksOneKind crowdedLine := by decide +kernel
  have hdistinct : DistinctRanges (crowdedEntries.edits crowdedLine) := by decide +kernel
  have hresult := apply_order_irrelevant crowdedLine crowdedEntries rearrangedEntries hsame hkind
    hdistinct
  refine ⟨hsame, hkind, hdistinct, hresult, ?_⟩
  have hsorted : ((crowdedEntries.edits crowdedLine).mergeSort fun a b => a.Before b) =
      [⟨0, 5, [], .statement, 1⟩, ⟨0, 3, Bytes.ofText "0", .replacement, 1⟩,
        ⟨4, 9, [], .statement, 1⟩, ⟨14, 16, [], .item, 1⟩, ⟨16, 18, [], .item, 1⟩,
        ⟨20, 26, [], .statement, 1⟩, ⟨23, 24, Bytes.ofText "undefined", .replacement, 1⟩] :=
    merge_sort_eq_of_leads (Plan.edits_kind_by_kind crowdedLine crowdedEntries) hdistinct
      (by decide +kernel) (by decide +kernel)
  have hkept : (sweep (crowdedEntries.edits crowdedLine)).kept =
      [⟨0, 9, [], .statement, 2⟩, ⟨14, 16, [], .item, 1⟩, ⟨16, 18, [], .item, 1⟩,
        ⟨20, 26, [], .statement, 1⟩] := by
    rw [sweep, hsorted]
    decide +kernel
  rw [← hresult, Plan.apply, hkept,
    splice_all_eq_substitute (by decide +kernel) (by decide +kernel)]
  decide +kernel

end Excise
