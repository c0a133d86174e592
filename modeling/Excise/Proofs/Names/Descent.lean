import Excise.Names.Descent
import Excise.Proofs.Names.Nearest
import Mathlib.Data.List.Sort
import Mathlib.Logic.Function.Iterate

/-!
# What a descent opens and declares

The nodes on the stack of a descent (`Tree.descend`) and all that is inside them are the rows that
were not visited yet, in their order, so after `k` visits the row on top is row `k`
(`Tree.Descended`). The scopes handed down to a node are the chain of scopes around it. The descent
is therefore over after as many visits as the tree has rows; it has then declared
`Tree.declarations`, and what it opened says for every node which scopes are around it
(`descent_exact`).
-/

namespace Excise.Tree

variable {t : Tree} {c k m n p s : Nat} {d : Descent}

/-! ## The rows of a subtree -/

/-- A node and all that is inside it. -/
def subtree (t : Tree) (n : Node) : List Node := n :: t.descendants n

/-- The rows of a subtree are those within its root. -/
theorem mem_subtree : m ∈ t.subtree n ↔ t.Within m n := List.mem_cons

/-- The rows of a subtree are in order. -/
theorem subtree_in_order (t : Tree) (n : Node) : (t.subtree n).Pairwise (· < ·) := by
  have hrange : (List.range' (n + 1) (t.size - (n + 1))).Pairwise (· < ·) :=
    List.pairwise_lt_range'
  exact .cons (fun m hm => (mem_descendants.mp hm).1)
    (hrange.sublist (List.takeWhile_sublist _))

/-- A subtree is its root and the subtrees of the children, one after the other. -/
theorem subtree_eq (t : Tree) (n : Node) :
    t.subtree n = n :: (t.children n).flatMap t.subtree := by
  have hparts : ((t.children n).flatMap t.subtree).Pairwise (· < ·) :=
    flat_map_in_order (t.children_in_order n) (fun c hc => mem_children.mp hc)
      (fun c _ m hm => mem_subtree.mp hm) fun c _ => t.subtree_in_order c
  have hbelow : ∀ m : Nat, m ∈ (t.children n).flatMap t.subtree ↔ n ∈ t.ancestors m := by
    intro m
    simp only [List.mem_flatMap, mem_children, mem_subtree]
    constructor
    · rintro ⟨c, hc, hwithin⟩
      rcases within_iff.mp hwithin with rfl | hancestor
      · exact parent_mem_ancestors hc
      · exact ancestors_trans (parent_mem_ancestors hc) hancestor
    · exact exists_child_of_mem_ancestors
  have hordered : (n :: (t.children n).flatMap t.subtree).Pairwise (· < ·) :=
    .cons (fun m hm => lt_of_mem_ancestors ((hbelow m).mp hm)) hparts
  refine (t.subtree_in_order n).eq_of_mem_iff hordered fun m => ?_
  rw [mem_subtree, within_iff, List.mem_cons, hbelow]

/-- All rows are within the root. -/
theorem subtree_root (t : Tree) : t.subtree 0 = List.range' 0 t.size := by
  refine (t.subtree_in_order 0).eq_of_mem_iff List.pairwise_lt_range' fun m : Nat => ?_
  rw [mem_subtree, Within, mem_descendants_root, List.mem_range'_1, Nat.zero_add]
  constructor
  · rintro (rfl | ⟨hlt, -⟩)
    · exact ⟨Nat.le_refl 0, t.size_pos⟩
    · exact ⟨Nat.zero_le m, hlt⟩
  · rintro ⟨-, hlt⟩
    by_cases hm : m = 0
    · exact .inl hm
    · exact .inr ⟨hlt, hm⟩

/-! ## The scopes that are handed down -/

/-- The scopes around a node, each with whether a `var` goes to it. -/
def openScopes (t : Tree) (n : Node) : List OpenScope :=
  (t.scopeChain n).map fun s => ⟨s, t.OpensFunctionScope s⟩

/-- The function scopes around a node other than the root: the closest is found in its chain. -/
theorem exists_function_scope (hn : n ∈ t.descendants 0) :
    ∃ s, (t.scopeChain n).find? (fun s => t.OpensFunctionScope s) = some s ∧
      s = t.hoistScope (t.scopeAround n) := by
  have hroot : (0 : Node) ∈ t.ancestors n := mem_descendants_iff_mem_ancestors.mp hn
  rw [find_function_scope]
  cases hfind : (t.ancestors n).find? (fun s => t.OpensFunctionScope s) with
  | none =>
      have hopens : t.OpensFunctionScope 0 := .inl rfl
      exact absurd hopens (by simpa using List.find?_eq_none.mp hfind 0 hroot)
  | some s =>
      exact ⟨s, rfl, (closest_of_find hfind).unique (hoist_scope_around_closest hn)⟩

/-- A function scope found in a chain of scopes is where a `var` goes. -/
theorem function_scope_of_find {chain : List Node}
    (h : chain.find? (fun s => t.OpensFunctionScope s) = some s) :
    functionScope? (chain.map fun s => ⟨s, t.OpensFunctionScope s⟩) = some s := by
  induction chain with
  | nil => simp at h
  | cons a chain ih =>
      rw [List.find?_cons] at h
      by_cases ha : t.OpensFunctionScope a
      · obtain rfl : a = s := by simpa [ha] using h
        simp [functionScope?, ha]
      · have hrest : chain.find? (fun s => t.OpensFunctionScope s) = some s := by
          simpa [ha] using h
        have hne : chain ≠ [] := by
          rintro rfl
          simp at hrest
        simpa [functionScope?, ha, hne] using ih hrest

section

variable (hn : n ∈ t.descendants 0)

include hn

/-- Some scope is around every node but the root. -/
theorem open_scopes_ne_nil : t.openScopes n ≠ [] := by
  obtain ⟨s, hs, -⟩ := exists_function_scope hn
  intro hnil
  rw [openScopes, List.map_eq_nil_iff] at hnil
  simp [hnil] at hs

/-- The innermost of the scopes around a node. -/
theorem innermost_open_scopes : innermost? (t.openScopes n) = some (t.scopeAround n) := by
  have hne := open_scopes_ne_nil hn
  rw [openScopes, ne_eq, List.map_eq_nil_iff] at hne
  obtain ⟨s, rest, hchain⟩ := List.exists_cons_of_ne_nil hne
  simp [innermost?, openScopes, scopeAround, hchain]

/-- The scope around a node that a `var` goes to. -/
theorem function_scope_open_scopes :
    functionScope? (t.openScopes n) = some (t.hoistScope (t.scopeAround n)) := by
  obtain ⟨s, hs, rfl⟩ := exists_function_scope hn
  exact function_scope_of_find hs

/-- Where a `var` goes from a block that the node opens. -/
theorem function_scope_block (hblock : ¬ t.OpensFunctionScope n) :
    functionScope? (⟨n, false⟩ :: t.openScopes n) = some (t.hoistScope n) := by
  obtain ⟨s, hs, -⟩ := exists_function_scope hn
  have hhoist : t.hoistScope n = s := by
    rw [hoistScope, if_neg hblock, hs, Option.getD_some]
  rw [functionScope?, if_neg (by simp [open_scopes_ne_nil hn]), hhoist]
  exact function_scope_of_find hs

end

/-- The root opens the scope of the program. -/
theorem opened_by_root (t : Tree) : t.openedBy? 0 (t.openScopes 0) = some [⟨0, true⟩] :=
  if_pos (.inr rfl)

/-- What opens no scope hands down the scopes around it, and what opens one adds it to them, unless
it begins an outermost scope. -/
theorem opened_by_eq (hn : n ∈ t.descendants 0) :
    t.openedBy? n (t.openScopes n) =
      if t.OpensOutermostScope n then some [⟨n, true⟩]
      else if t.OpensScope n then some (⟨n, t.OpensFunctionScope n⟩ :: t.openScopes n)
      else none := by
  have hroot : n ≠ 0 := (mem_descendants_root.mp hn).2
  have hne := open_scopes_ne_nil hn
  by_cases hprogram : t.kind n = "program"
  · rw [openedBy?, if_pos (.inl hprogram), if_pos (.inr hprogram)]
  · have hinner : ¬ t.OpensOutermostScope n := by simp [OpensOutermostScope, hroot, hprogram]
    rw [openedBy?, if_neg (by simp [hprogram, hne]), if_neg hinner]
    by_cases hfunction : t.kind n ∈ functionKinds
    · have hopens : t.OpensFunctionScope n := .inr hfunction
      rw [if_pos hfunction, if_pos (.inl hopens), decide_eq_true hopens]
    · have hblock : ¬ t.OpensFunctionScope n := by simp [OpensFunctionScope, hroot, hfunction]
      have hopens : t.OpensScope n ↔ t.kind n ∈ blockKinds ∨ t.IsNamedClassExpression n := by
        simp [OpensScope, hblock]
      rw [if_neg hfunction, decide_eq_false hblock]
      have hclass : "class" ∉ blockKinds := by decide +kernel
      have hdeclared : ∀ kind ∈ declaredClassKinds, kind ∉ blockKinds ∧ kind ≠ "class" := by
        decide +kernel
      by_cases hdeclaredClass : t.kind n ∈ declaredClassKinds
      · obtain ⟨hkind, hexpression⟩ := hdeclared _ hdeclaredClass
        rw [if_pos hdeclaredClass, if_neg]
        simp [hopens, hkind, IsNamedClassExpression, hexpression]
      · rw [if_neg hdeclaredClass]
        by_cases hexpression : t.kind n = "class"
        · rw [if_pos hexpression]
          simp only [hopens, IsNamedClassExpression, hexpression, hclass, false_or, true_and]
        · simp only [hexpression, if_false, hopens, IsNamedClassExpression, false_and, or_false]

/-- The scopes that a node hands down are those around its children. -/
theorem open_scopes_of_parent (hp : t.parent? c = some p) :
    t.openScopes c = (t.openedBy? p (t.openScopes p)).getD (t.openScopes p) := by
  have hchain : t.scopeChain c = t.throughOutermost
      (if t.OpensScope p then p :: (t.ancestors p).filter t.OpensScope
        else (t.ancestors p).filter t.OpensScope) := by
    rw [scopeChain, ancestors_of_parent hp, List.filter_cons]
    simp only [decide_eq_true_eq]
  have hopens : t.OpensOutermostScope p → t.OpensScope p := fun h => .inl h.opens_function
  by_cases hroot : p = 0
  · subst hroot
    rw [opened_by_root, Option.getD_some, openScopes, hchain, if_pos (hopens (.inl rfl)),
      throughOutermost, if_pos (.inl rfl)]
    simp [OpensFunctionScope]
  · have hsize : p < t.size := Nat.lt_trans (parent_lt hp)
      (lt_size_of_mem_ancestors (parent_mem_ancestors hp))
    rw [opened_by_eq (mem_descendants_root.mpr ⟨hsize, hroot⟩), openScopes, hchain]
    by_cases houtermost : t.OpensOutermostScope p
    · rw [if_pos (hopens houtermost), throughOutermost, if_pos houtermost, if_pos houtermost]
      simp [houtermost.opens_function]
    · rw [if_neg houtermost]
      by_cases hscope : t.OpensScope p
      · rw [if_pos hscope, if_pos hscope, throughOutermost, if_neg houtermost]
        rfl
      · rw [if_neg hscope, if_neg hscope]
        rfl

/-! ## What one node declares -/

/-- The scopes around what is in a node. -/
def scopesInside (t : Tree) (n : Node) : List OpenScope :=
  (t.openedBy? n (t.openScopes n)).getD (t.openScopes n)

section

variable (hn : n ∈ t.descendants 0) (hinner : ¬ t.OpensOutermostScope n)

include hn hinner

/-- In a node that opens a scope this scope comes first. -/
theorem scopes_inside_of_opens (h : t.OpensScope n) :
    t.scopesInside n = ⟨n, t.OpensFunctionScope n⟩ :: t.openScopes n := by
  rw [scopesInside, opened_by_eq hn, if_neg hinner, if_pos h, Option.getD_some]

/-- A function declares its name around it or inside, and its single parameter inside. -/
theorem declared_at_function (hkind : t.kind n ∈ functionKinds) :
    t.declaredAt n (t.openScopes n) (t.scopesInside n) (some 0) = t.functionDeclarations n := by
  have hopens : t.OpensScope n := .inl (.inr hkind)
  have hinside := scopes_inside_of_opens hn hinner hopens
  have houter : ¬ (t.kind n = "program" ∨ t.openScopes n = []) := by
    have hprogram : t.kind n ≠ "program" := fun h => hinner (.inr h)
    simp [hprogram, open_scopes_ne_nil hn]
  rw [declaredAt, if_neg houter, if_pos hkind, innermost_open_scopes hn, hinside,
    functionDeclarations]
  rfl

/-- A class expression declares its name inside, if it has one. -/
theorem declare_at_class_name (hclass : t.kind n = "class") :
    t.declareAt (t.childByField? n "name").toList (innermost? (t.scopesInside n)) .className =
      t.declare (t.childByField? n "name").toList n .className := by
  cases hname : t.childByField? n "name" with
  | none => cases innermost? (t.scopesInside n) <;> rfl
  | some name =>
      have hopens : t.OpensScope n := .inr (.inr ⟨hclass, by simp [hname]⟩)
      rw [scopes_inside_of_opens hn hinner hopens]
      rfl

/-- Where the names of a loop over a collection go. -/
theorem declared_at_loop (hkind : t.kind n = "for_in_statement")
    (hblock : ¬ t.OpensFunctionScope n) :
    (match t.childByField? n "kind" with
      | none => []
      | some word =>
          t.declareAt (t.boundIdentifiersIn (t.childByField? n "left"))
            (if t.text word = "var" then functionScope? (t.scopesInside n)
              else innermost? (t.scopesInside n))
            (.keyword (t.text word))) = t.loopDeclarations n := by
  have hopens : t.OpensScope n := .inr (.inl (by simp [hkind, blockKinds]))
  rw [scopes_inside_of_opens hn hinner hopens, decide_eq_false hblock,
    function_scope_block hn hblock, loopDeclarations]
  cases t.childByField? n "kind" with
  | none => rfl
  | some word =>
      by_cases hvar : t.text word = "var"
      · simp only [if_pos hvar, declareAt, Option.elim_some]
      · simp only [if_neg hvar]
        rfl

/-- Every other construct declares its names in the scope around it, in the function scope, in its
own or in that of the program. -/
theorem declared_at_other (hkind : t.kind n ∉ functionKinds) :
    t.declaredAt n (t.openScopes n) (t.scopesInside n) (some 0) = t.declarationsAt n := by
  have hroot : n ≠ 0 := (mem_descendants_root.mp hn).2
  have houter : ¬ (t.kind n = "program" ∨ t.openScopes n = []) := by
    have hprogram : t.kind n ≠ "program" := fun h => hinner (.inr h)
    simp [hprogram, open_scopes_ne_nil hn]
  have hblock : ¬ t.OpensFunctionScope n := by simp [OpensFunctionScope, hroot, hkind]
  rw [declaredAt, if_neg houter, if_neg hkind, declarationsAt, if_neg hinner, if_neg hkind,
    innermost_open_scopes hn, function_scope_open_scopes hn]
  by_cases hdeclared : t.kind n ∈ declaredClassKinds
  · rw [if_pos hdeclared, if_pos hdeclared]
    rfl
  rw [if_neg hdeclared, if_neg hdeclared]
  by_cases hclass : t.kind n = "class"
  · rw [if_pos hclass, if_pos hclass, declare_at_class_name hn hinner hclass]
  rw [if_neg hclass, if_neg hclass]
  by_cases hcatch : t.kind n = "catch_clause"
  · have hopens : t.OpensScope n := .inr (.inl (by simp [hcatch, blockKinds]))
    rw [if_pos hcatch, if_pos hcatch, scopes_inside_of_opens hn hinner hopens]
    rfl
  rw [if_neg hcatch, if_neg hcatch]
  by_cases hloop : t.kind n = "for_in_statement"
  · rw [if_pos hloop, if_pos hloop]
    exact declared_at_loop hn hinner hloop hblock
  rw [if_neg hloop, if_neg hloop]
  -- The rest is declared around the node or in the scope of the program, branch by branch.
  rfl

end

/-- A node declares what its construct declares, in the scopes handed down to it. -/
theorem declared_at_eq (hn : n < t.size) :
    t.declaredAt n (t.openScopes n) (t.scopesInside n) (some 0) = t.declarationsAt n := by
  by_cases hroot : n = 0
  · subst hroot
    rw [declaredAt, if_pos (.inr rfl), declarationsAt, if_pos (.inl rfl)]
  · have hinside : n ∈ t.descendants 0 := mem_descendants_root.mpr ⟨hn, hroot⟩
    by_cases houtermost : t.OpensOutermostScope n
    · have hprogram : t.kind n = "program" := houtermost.resolve_left hroot
      rw [declaredAt, if_pos (.inl hprogram), declarationsAt, if_pos houtermost]
    · by_cases hfunction : t.kind n ∈ functionKinds
      · rw [declared_at_function hinside houtermost hfunction, declarationsAt,
          if_neg houtermost, if_pos hfunction]
      · exact declared_at_other hinside houtermost hfunction

/-! ## One visit -/

/-- A descent after `k` visits: what waits are the rows from `k` on, each node with the scopes
around it, and the rows before `k` have opened their scopes and made their declarations. -/
structure Descended (t : Tree) (k : Nat) (d : Descent) : Prop where
  rows : (d.stack.map Prod.fst).flatMap t.subtree = List.range' k (t.size - k)
  scopes : ∀ e ∈ d.stack, e.2 = t.openScopes e.1
  program : d.programScope = if k = 0 then none else some 0
  opened : ∀ m : Nat,
    d.opened.get? m = if m < k then t.openedBy? m (t.openScopes m) else none
  declarations : d.declarations = (List.range k).flatMap t.declarationsAt

/-- Before the first visit all rows wait. -/
theorem descended_start (t : Tree) : t.Descended 0 descentStart where
  rows := by simp [descentStart, subtree_root]
  scopes := by
    intro e he
    obtain rfl := List.mem_singleton.mp he
    rfl
  program := rfl
  opened _ := rfl
  declarations := rfl

/-- The row that comes next is on top of the stack. -/
theorem Descended.top (h : t.Descended k d) (hk : k < t.size) :
    ∃ rest, d.stack = (k, t.openScopes k) :: rest ∧
      (t.children k ++ rest.map Prod.fst).flatMap t.subtree =
        List.range' (k + 1) (t.size - (k + 1)) := by
  have hrows := h.rows
  obtain ⟨later, hlater⟩ : ∃ later, t.size - k = later + 1 := ⟨t.size - k - 1, by omega⟩
  rw [hlater, List.range'_succ] at hrows
  cases hstack : d.stack with
  | nil => simp [hstack] at hrows
  | cons top rest =>
      rw [hstack, List.map_cons, List.flatMap_cons, subtree_eq, List.cons_append] at hrows
      obtain ⟨htop, hrest⟩ := List.cons.inj hrows
      have hscopes := h.scopes top (by simp [hstack])
      obtain ⟨n, scopes⟩ := top
      obtain rfl : n = k := htop
      obtain rfl : scopes = t.openScopes n := hscopes
      have hcount : t.size - (n + 1) = later := by omega
      exact ⟨rest, rfl, by rw [List.flatMap_append, hrest, hcount]⟩

/-- The children of the visited node come to stand in their order, each with the scopes in it. -/
theorem push_children (t : Tree) (n : Node) (rest : List (Node × List OpenScope)) :
    (t.children n).reverse.foldl (fun stack c => (c, t.scopesInside n) :: stack) rest =
      (t.children n).map (fun c => (c, t.scopesInside n)) ++ rest := by
  generalize t.children n = parts
  induction parts with
  | nil => rfl
  | cons c parts ih => simp [ih]

/-- A visit takes the next row. -/
theorem Descended.descend (h : t.Descended k d) (hk : k < t.size) :
    t.Descended (k + 1) (t.descend d) := by
  obtain ⟨rest, hstack, hrows⟩ := h.top hk
  -- The scope of the program is that of the root, which is visited first.
  have hprogram : (if t.kind k = "program" ∨ t.openScopes k = [] then d.programScope.or (some k)
      else d.programScope) = some 0 := by
    rw [h.program]
    by_cases hroot : k = 0
    · subst hroot
      exact if_pos (.inr rfl)
    · simp [hroot]
  have hvisit : t.descend d =
      { stack := (t.children k).map (fun c => (c, t.scopesInside k)) ++ rest
        programScope := some 0
        opened := (t.openedBy? k (t.openScopes k)).elim d.opened (d.opened.set k)
        declarations := d.declarations ++ t.declarationsAt k } := by
    rw [Tree.descend, hstack]
    simp only [hprogram]
    rw [← declared_at_eq hk, ← push_children]
    rfl
  rw [hvisit]
  refine ⟨?_, ?_, rfl, ?_, ?_⟩
  · simpa [Function.comp_def] using hrows
  · intro e he
    rcases List.mem_append.mp he with he | he
    · obtain ⟨c, hc, rfl⟩ := List.mem_map.mp he
      exact (open_scopes_of_parent (mem_children.mp hc)).symm
    · exact h.scopes e (hstack ▸ List.mem_cons_of_mem _ he)
  · intro m
    have hopened := h.opened m
    by_cases hm : m = k
    · subst hm
      cases hrow : t.openedBy? m (t.openScopes m) with
      | none => simpa [hrow] using hopened
      | some scopes => simp
    · have hlt : m < k + 1 ↔ m < k := by omega
      cases hrow : t.openedBy? k (t.openScopes k) with
      | none => simpa [hlt] using hopened
      | some scopes => simpa [hlt, Table.get?_set_of_ne d.opened scopes (Ne.symm hm)] using hopened
  · rw [h.declarations, List.range_succ, List.flatMap_append, List.flatMap_singleton]

/-! ## The whole descent -/

/-- So many visits take so many rows. -/
theorem descended_iterate (t : Tree) (k : Nat) (hk : k ≤ t.size) :
    t.Descended k (t.descend^[k] descentStart) := by
  induction k with
  | zero => exact t.descended_start
  | succ k ih =>
      rw [Function.iterate_succ_apply']
      exact (ih (Nat.le_of_succ_le hk)).descend hk

/-- What all rows opened says which scopes are around a node. -/
theorem Descended.scopes_around (h : t.Descended t.size d) (hp : t.parent? n = some p) :
    t.scopesAround d n = t.openScopes n := by
  have hfound : (t.ancestors n).findSome? d.opened.get? = some (t.openScopes n) := by
    induction n using parent_induction (t := t) generalizing p with
    | root n hn => simp [hn] at hp
    | child n q hq ih =>
        obtain rfl : q = p := Option.some.inj (hq.symm.trans hp)
        have hrow : q < t.size := Nat.lt_trans (parent_lt hq)
          (lt_size_of_mem_ancestors (parent_mem_ancestors hq))
        rw [ancestors_of_parent hq, List.findSome?_cons, h.opened, if_pos hrow,
          open_scopes_of_parent hq]
        cases hopened : t.openedBy? q (t.openScopes q) with
        | some scopes => rfl
        | none =>
            -- A node that opens nothing is not the root, so that it has a parent in its turn.
            have hroot : q ≠ 0 := by
              rintro rfl
              simp [opened_by_root] at hopened
            obtain ⟨r, hr⟩ := exists_parent hrow hroot
            exact ih hr
  rw [scopesAround, hfound, Option.getD_some]

/-- The descent visits every row once and in order, and is over after as many visits as there are
rows. It has then made the declarations of the tree, in the scope of each construct, and around
every node inside another the scopes that it opened are the chain of scopes of the node, each marked
as function scope or not. -/
theorem descent_exact (t : Tree) :
    (∀ k < t.size, (t.descend^[k] descentStart).stack.head?.map Prod.fst = some k) ∧
      (t.descend^[t.size] descentStart).stack = [] ∧
      (t.descend^[t.size] descentStart).declarations = t.declarations ∧
      ∀ n p, t.parent? n = some p →
        t.scopesAround (t.descend^[t.size] descentStart) n =
          (t.scopeChain n).map fun s => ⟨s, t.OpensFunctionScope s⟩ := by
  have hdone := t.descended_iterate t.size (Nat.le_refl _)
  refine ⟨fun k hk => ?_, ?_, hdone.declarations, fun n p hp => hdone.scopes_around hp⟩
  · obtain ⟨rest, hstack, -⟩ := (t.descended_iterate k (Nat.le_of_lt hk)).top hk
    rw [hstack]
    rfl
  · have hrows := hdone.rows
    cases hstack : (t.descend^[t.size] descentStart).stack with
    | nil => rfl
    | cons top rest => simp [hstack, subtree] at hrows

end Excise.Tree
