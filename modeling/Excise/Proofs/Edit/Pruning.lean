import Excise.Proofs.Edit.Requests
import Excise.Proofs.Syntax.Form
import Mathlib.Data.List.Sort

/-!
# A plan carried out on the tree

`Plan.CarriedOut` says what tree is left when a plan is carried out: the nodes that the plan cuts
out are gone, with everything inside them, each node that it replaces is a placeholder, and all else
is as it was (`Plan.Leaves`, `Plan.Keeps`). What is left of a node's surroundings is found again in
the new tree: its ancestors (`CarriedOut.ancestors_eq`), and those of its children that are left
(`CarriedOut.children_eq`).
-/

namespace Excise

namespace Plan

/-- The nodes that a plan cuts out: statements, and items of lists. -/
def cutNodes (p : Plan) (t : Tree) : List Node := p.statements t ++ p.items

/-- The nodes that a plan takes out: those that it cuts, and those that it replaces. -/
def takenNodes (p : Plan) (t : Tree) : List Node := p.cutNodes t ++ p.replacements.keys

/-- Something stands for the node when the plan is carried out: it is not cut out, and it is not
inside a node that is replaced. -/
def Leaves (p : Plan) (t : Tree) (n : Node) : Prop :=
  n < t.size ∧ (∀ m ∈ p.cutNodes t, ¬ t.Within n m) ∧ ∀ m ∈ p.replacements.keys, m ∉ t.ancestors n

/-- The plan leaves the node as it is. -/
def Keeps (p : Plan) (t : Tree) (n : Node) : Prop := p.Leaves t n ∧ n ∉ p.replacements.keys

end Plan

namespace Tree

/-- The node is the placeholder. -/
def IsPlaceholder (t : Tree) (n : Node) : Prop :=
  t.kind n = "undefined" ∧ t.text n = placeholder ∧ t.descendants n = []

/-- The node is a pair of a key and the placeholder, as it takes the place of a shorthand
property. -/
def IsPlaceholderPair (t : Tree) (n : Node) (key : String) : Prop :=
  t.kind n = "pair" ∧ t.descendants n = [n + 1, n + 2, n + 3] ∧
    t.kind (n + 1) = "property_identifier" ∧ t.text (n + 1) = key ∧
    t.field (n + 1) = some "key" ∧ t.kind (n + 2) = ":" ∧ ¬ t.named (n + 2) ∧
    t.field (n + 3) = some "value" ∧ t.IsPlaceholder (n + 3)

end Tree

open Excise.Tree

namespace Plan

/-- Membership in finite lists is decided. -/
instance (p : Plan) (t : Tree) (n : Node) : Decidable (p.Leaves t n) :=
  inferInstanceAs (Decidable (_ ∧ _ ∧ _))

/-- Membership in finite lists is decided. -/
instance (p : Plan) (t : Tree) (n : Node) : Decidable (p.Keeps t n) :=
  inferInstanceAs (Decidable (_ ∧ _))

/-- The tree `t'` is `t` with the plan carried out, and `place` says where in `t'` the nodes that
are left stand: in the same order and depth, each as it was or as a placeholder, and there is
nothing else. Identifiers, strings and words that are kept keep their text. -/
structure CarriedOut (p : Plan) (t t' : Tree) (place : Nat → Nat) : Prop where
  lt_size : ∀ n, p.Leaves t n → place n < t'.size
  order : ∀ m n, p.Leaves t m → p.Leaves t n → m < n → place m < place n
  depth_eq : ∀ n, p.Leaves t n → t'.depth (place n) = t.depth n
  named_eq : ∀ n, p.Leaves t n → t'.named (place n) = t.named n
  field_eq : ∀ n, p.Leaves t n → t'.field (place n) = t.field n
  kind_eq : ∀ n, p.Keeps t n → t'.kind (place n) = t.kind n
  text_eq : ∀ n, p.Keeps t n → t.IsLexeme n → t'.text (place n) = t.text n
  replaced : ∀ n, p.Leaves t n → n ∈ p.replacements.keys →
    if t.kind n = "shorthand_property_identifier" then t'.IsPlaceholderPair (place n) (t.text n)
    else t'.IsPlaceholder (place n)
  nothing_else : ∀ i < t'.size, ∃ n, p.Leaves t n ∧
    (place n = i ∨ n ∈ p.replacements.keys ∧ i ∈ t'.descendants (place n))

variable {p : Plan} {t t' : Tree} {place : Nat → Nat} {a b c i n q : Nat}

/-- What is around a node that is left is kept. -/
theorem Leaves.keeps_of_ancestor (hn : p.Leaves t n) (ha : a ∈ t.ancestors n) : p.Keeps t a := by
  obtain ⟨hsize, hcut, hreplaced⟩ := hn
  refine ⟨⟨Nat.lt_trans (lt_of_mem_ancestors ha) hsize, fun m hm hwithin => ?_,
    fun m hm hma => ?_⟩, fun hmem => ?_⟩
  · exact hcut m hm (within_trans (within_of_mem_ancestors ha) hwithin)
  · exact hreplaced m hm (ancestors_trans hma ha)
  · exact hreplaced a hmem ha

/-- What a kept node is within is kept. -/
theorem Keeps.of_within (hn : p.Keeps t n) (ha : t.Within n a) : p.Keeps t a := by
  rcases within_iff.mp ha with rfl | ha
  · exact hn
  · exact hn.1.keeps_of_ancestor ha

/-- A child of a kept node is left if it is not cut out itself. -/
theorem Keeps.leaves_child (hq : p.Keeps t q) (hc : t.parent? c = some q)
    (hcut : c ∉ p.cutNodes t) : p.Leaves t c := by
  obtain ⟨⟨-, hqcut, hqreplaced⟩, hqkey⟩ := hq
  refine ⟨lt_size_of_mem_ancestors (parent_mem_ancestors hc), fun m hm hwithin => ?_,
    fun m hm hmc => ?_⟩
  · rcases within_iff.mp hwithin with rfl | hmc
    · exact hcut hm
    · rcases (mem_ancestors_of_parent hc).mp hmc with rfl | hmq
      · exact hqcut m hm within_refl
      · exact hqcut m hm (within_of_mem_ancestors hmq)
  · rcases (mem_ancestors_of_parent hc).mp hmc with rfl | hmq
    · exact hqkey hm
    · exact hqreplaced m hm hmq

/-- A node is kept exactly if it is within none that the plan takes out. -/
theorem keeps_iff : p.Keeps t n ↔ n < t.size ∧ ∀ m ∈ p.takenNodes t, ¬ t.Within n m := by
  simp only [Keeps, Leaves, takenNodes, List.mem_append, within_iff, not_or]
  constructor
  · rintro ⟨⟨hsize, hcut, hreplaced⟩, hkey⟩
    refine ⟨hsize, fun m hm => ?_⟩
    rcases hm with hm | hm
    · exact hcut m hm
    · exact ⟨fun heq => hkey (heq ▸ hm), hreplaced m hm⟩
  · rintro ⟨hsize, htaken⟩
    exact ⟨⟨hsize, fun m hm => htaken m (.inl hm), fun m hm => (htaken m (.inr hm)).2⟩,
      fun hmem => (htaken n (.inr hmem)).1 rfl⟩

/-- A plan takes out what it records. -/
theorem Records.mem_taken (h : p.Records n) : n ∈ p.takenNodes t := by
  simp only [takenNodes, cutNodes, List.mem_append]
  rcases h with hdelete | hitem | hreplaced
  · exact .inl (.inl (mem_statements.mpr (.inl hdelete)))
  · exact .inl (.inr hitem)
  · exact .inr hreplaced

end Plan

namespace Tree

variable {t : Tree} {a b k n : Nat}

/-- A node has only one ancestor of each depth. -/
theorem ancestor_unique (ha : a ∈ t.ancestors n) (hb : b ∈ t.ancestors n)
    (hdepth : t.depth a = t.depth b) : a = b := by
  obtain ⟨han, habove⟩ := mem_ancestors.mp ha
  obtain ⟨hbn, hbelow⟩ := mem_ancestors.mp hb
  rcases Nat.lt_trichotomy a b with hlt | heq | hgt
  · have := habove b hlt (Nat.le_of_lt hbn)
    omega
  · exact heq
  · have := hbelow a hgt (Nat.le_of_lt han)
    omega

/-- Between a node and a later one outside it, something around the later one, or that itself, is no
deeper than the first. -/
theorem exists_shallower (hlt : k < n) (h : k ∉ t.ancestors n) :
    ∃ r, t.Within n r ∧ k < r ∧ t.depth r ≤ t.depth k := by
  induction n using parent_induction (t := t) with
  | root n hn =>
      refine ⟨n, within_refl, hlt, ?_⟩
      by_cases hsize : n < t.size
      · obtain ⟨q, hq⟩ := exists_parent hsize (Nat.ne_of_gt (Nat.zero_lt_of_lt hlt))
        simp [hq] at hn
      · rw [depth_of_size_le (Nat.le_of_not_lt hsize)]
        exact Nat.zero_le _
  | child n q hq ih =>
      rw [mem_ancestors_of_parent hq, not_or] at h
      rcases Nat.lt_trichotomy k q with hkq | rfl | hqk
      · obtain ⟨r, hr, hkr, hdepth⟩ := ih hkq h.2
        exact ⟨r, within_trans (within_parent hq) hr, hkr, hdepth⟩
      · exact absurd rfl h.1
      · have hdepth := depth_of_parent hq
        have hbetween := (mem_ancestors.mp (parent_mem_ancestors hq)).2 k hqk (Nat.le_of_lt hlt)
        exact ⟨n, within_refl, hlt, by omega⟩

end Tree

namespace Plan.CarriedOut

variable {p : Plan} {t t' : Tree} {place : Nat → Nat} {a b c i k n q : Nat}
  (h : p.CarriedOut t t' place)

include h

/-- Nodes that are left stand in their order. -/
theorem place_lt_iff (hm : p.Leaves t a) (hn : p.Leaves t b) : place a < place b ↔ a < b := by
  constructor
  · intro hlt
    rcases Nat.lt_trichotomy a b with hab | rfl | hba
    · exact hab
    · exact absurd hlt (Nat.lt_irrefl _)
    · have := h.order b a hn hm hba
      omega
  · exact h.order a b hm hn

/-- Nodes that are left stand in different places. -/
theorem place_inj (hm : p.Leaves t a) (hn : p.Leaves t b) (heq : place a = place b) : a = b := by
  rcases Nat.lt_trichotomy a b with hab | rfl | hba
  · have := h.order a b hm hn hab
    omega
  · rfl
  · have := h.order b a hn hm hba
    omega

/-- What is left of an ancestor is an ancestor. -/
theorem ancestor_place (hn : p.Leaves t n) (ha : a ∈ t.ancestors n) :
    place a ∈ t'.ancestors (place n) := by
  obtain ⟨hlt, hbetween⟩ := mem_ancestors.mp ha
  have hkeeps := hn.keeps_of_ancestor ha
  refine mem_ancestors.mpr ⟨h.order a n hkeeps.1 hn hlt, fun j haj hjn => ?_⟩
  rw [h.depth_eq a hkeeps.1]
  obtain ⟨k, hk, rfl | ⟨hreplaced, hjk⟩⟩ :=
    h.nothing_else j (Nat.lt_of_le_of_lt hjn (h.lt_size n hn))
  · have hak := (h.place_lt_iff hkeeps.1 hk).mp haj
    have hkn : ¬ n < k := fun hnk => Nat.not_lt_of_le hjn (h.order n k hn hk hnk)
    rw [h.depth_eq k hk]
    exact hbetween k hak (Nat.le_of_not_lt hkn)
  · -- The row belongs to a placeholder, which starts after `a`.
    obtain ⟨hkj, hdeeper⟩ := mem_descendants.mp hjk
    have hdepth := hdeeper j hkj (Nat.le_refl j)
    rw [h.depth_eq k hk] at hdepth
    rcases Nat.lt_trichotomy a k with hak | rfl | hka
    · have hkn : ¬ n < k := fun hnk => by
        have := h.order n k hn hk hnk
        omega
      have := hbetween k hak (Nat.le_of_not_lt hkn)
      omega
    · exact absurd hreplaced hkeeps.2
    · -- Otherwise something left around `a` would end the placeholder.
      obtain ⟨r, hr, hkr, hshallow⟩ := exists_shallower hka (hkeeps.1.2.2 k hreplaced)
      have hrkeeps := hkeeps.of_within hr
      have hra : r ≤ a := by
        rcases within_iff.mp hr with rfl | hr
        · exact Nat.le_refl _
        · exact Nat.le_of_lt (lt_of_mem_ancestors hr)
      have hplace : place r ≤ place a := by
        rcases Nat.lt_or_eq_of_le hra with hra | rfl
        · exact Nat.le_of_lt (h.order r a hrkeeps.1 hkeeps.1 hra)
        · exact Nat.le_refl _
      have hrow := hdeeper (place r) (h.order k r hk hrkeeps.1 hkr) (by omega)
      rw [h.depth_eq k hk, h.depth_eq r hrkeeps.1] at hrow
      omega

/-- What is left of a node stands in what is left of its parent. -/
theorem parent_place (hn : p.Leaves t n) (hq : t.parent? n = some q) :
    t'.parent? (place n) = some (place q) := by
  have hkeeps := hn.keeps_of_ancestor (parent_mem_ancestors hq)
  have hancestor := h.ancestor_place hn (parent_mem_ancestors hq)
  cases hparent : t'.parent? (place n) with
  | none => simp [ancestors_of_no_parent hparent] at hancestor
  | some q' =>
      have hdepth := depth_of_parent hparent
      rw [h.depth_eq n hn, depth_of_parent hq] at hdepth
      rw [ancestor_unique (parent_mem_ancestors hparent) hancestor
        (by rw [h.depth_eq q hkeeps.1]; omega)]

/-- The root stays the root. -/
theorem root_place : p.Leaves t 0 ∧ place 0 = 0 := by
  obtain ⟨n, hn, hrow⟩ := h.nothing_else 0 t'.size_pos
  have hplace : place n = 0 := by
    rcases hrow with hrow | ⟨-, hmem⟩
    · exact hrow
    · exact absurd (mem_descendants.mp hmem).1 (Nat.not_lt_zero _)
  have hdepth := h.depth_eq n hn
  rw [hplace, (depth_eq_zero_iff t'.size_pos).mpr rfl] at hdepth
  obtain rfl := (depth_eq_zero_iff hn.1).mp hdepth.symm
  exact ⟨hn, hplace⟩

/-- What is left of a node's ancestors are the ancestors of what is left of it. -/
theorem ancestors_eq (hn : p.Leaves t n) :
    t'.ancestors (place n) = (t.ancestors n).map place := by
  induction n using parent_induction (t := t) with
  | root n hroot =>
      have hzero : n = 0 := by
        by_contra hne
        obtain ⟨q, hq⟩ := exists_parent hn.1 hne
        simp [hq] at hroot
      subst hzero
      rw [h.root_place.2, ancestors_of_no_parent hroot, List.map_nil]
      exact List.eq_nil_iff_forall_not_mem.mpr fun a ha =>
        absurd (lt_of_mem_ancestors ha) (Nat.not_lt_zero a)
  | child n q hq ih =>
      have hkeeps := hn.keeps_of_ancestor (parent_mem_ancestors hq)
      rw [ancestors_of_parent hq, ancestors_of_parent (h.parent_place hn hq), ih hkeeps.1,
        List.map_cons]

/-- What is left of a node is within what is left of another exactly as before. -/
theorem within_place (hn : p.Leaves t n) (ha : t.Within n a) : t'.Within (place n) (place a) := by
  rcases within_iff.mp ha with rfl | ha
  · exact within_refl
  · exact within_of_mem_ancestors (h.ancestor_place hn ha)

/-- No kept node is inside a placeholder. -/
theorem not_mem_placeholder (hq : p.Keeps t q) (hk : p.Leaves t k)
    (hreplaced : k ∈ p.replacements.keys) : place q ∉ t'.descendants (place k) := by
  intro hmem
  rw [mem_descendants_iff_mem_ancestors, h.ancestors_eq hq.1] at hmem
  obtain ⟨a, ha, heq⟩ := List.mem_map.mp hmem
  have hkeeps := hq.1.keeps_of_ancestor ha
  exact hkeeps.2 (h.place_inj hkeeps.1 hk heq ▸ hreplaced)

/-- The children of what is left of a kept node are what is left of its children. -/
theorem parent_eq_place (hq : p.Keeps t q) :
    t'.parent? i = some (place q) ↔ ∃ c, t.parent? c = some q ∧ p.Leaves t c ∧ place c = i := by
  constructor
  · intro hi
    have hsize : i < t'.size := lt_size_of_mem_ancestors (parent_mem_ancestors hi)
    obtain ⟨c, hc, rfl | ⟨hreplaced, hmem⟩⟩ := h.nothing_else i hsize
    · cases hparent : t.parent? c with
      | none =>
          have hzero : c = 0 := by
            by_contra hne
            obtain ⟨q', hq'⟩ := exists_parent hc.1 hne
            simp [hq'] at hparent
          subst hzero
          rw [h.root_place.2] at hi
          exact absurd (parent_lt hi) (Nat.not_lt_zero _)
      | some q' =>
          have hkeeps := hc.keeps_of_ancestor (parent_mem_ancestors hparent)
          have heq := Option.some.inj ((h.parent_place hc hparent).symm.trans hi)
          rw [h.place_inj hkeeps.1 hq.1 heq] at hparent
          exact ⟨c, hparent, hc, rfl⟩
    · -- A row inside a placeholder has the placeholder or another such row as its parent.
      rw [mem_descendants_iff_mem_ancestors, mem_ancestors_of_parent hi] at hmem
      rcases hmem with heq | hmem
      · exact absurd (h.place_inj hc hq.1 heq ▸ hreplaced) hq.2
      · exact absurd (mem_descendants_iff_mem_ancestors.mpr hmem)
          (h.not_mem_placeholder hq hc hreplaced)
  · rintro ⟨c, hparent, hc, rfl⟩
    exact h.parent_place hc hparent

/-- The children of what is left of a kept node, in order. -/
theorem children_eq (hq : p.Keeps t q) :
    t'.children (place q) = ((t.children q).filter fun c => p.Leaves t c).map place := by
  refine (t'.children_in_order (place q)).eq_of_mem_iff ?_ fun i => ?_
  · have hsorted := (t.children_in_order q).filter (fun c => p.Leaves t c)
    refine List.pairwise_map.mpr (hsorted.imp_of_mem fun {a b} ha hb hlt => ?_)
    exact h.order a b (of_decide_eq_true (List.mem_filter.mp ha).2)
      (of_decide_eq_true (List.mem_filter.mp hb).2) hlt
  · rw [mem_children, h.parent_eq_place hq]
    simp only [List.mem_map, List.mem_filter, mem_children, decide_eq_true_eq, and_assoc]

/-- The named children of what is left of a kept node, in order. -/
theorem named_children_eq (hq : p.Keeps t q) :
    t'.namedChildren (place q) = ((t.namedChildren q).filter fun c => p.Leaves t c).map place := by
  rw [namedChildren, namedChildren, h.children_eq hq, List.filter_map, List.filter_filter,
    List.filter_filter]
  congr 1
  refine List.filter_congr fun c _ => ?_
  by_cases hc : p.Leaves t c
  · simp [hc, h.named_eq c hc]
  · simp [hc]

/-- What fills a field in what is left of a kept node is the first of its children left that fills
it. -/
theorem child_by_field_eq (hq : p.Keeps t q) (name : String) :
    t'.childByField? (place q) name =
      ((t.children q).find? fun c => p.Leaves t c ∧ t.field c = some name).map place := by
  rw [childByField?, h.children_eq hq, List.find?_map, List.find?_filter]
  congr 2
  funext c
  by_cases hc : p.Leaves t c
  · simp [hc, h.field_eq c hc]
  · simp [hc]

end Plan.CarriedOut

end Excise
