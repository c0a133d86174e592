import Excise.Proofs.Names.Tables
import Excise.Proofs.Syntax.Form
import Mathlib.Data.List.Basic

/-!
# A variable under a new name

`Tree.IsRenaming` relates a tree to one of the same form in which one binding has a new name: the
nodes that belong to the binding have that name as their text, and all other identifiers and strings
keep theirs. If no node of the tree has the new name as its text, the tables of the two trees agree:
the bindings are the same but for the name (`IsRenaming.bindings_eq`), and every node belongs to the
same one (`IsRenaming.binding_of_eq`).
-/

namespace Excise

/-- A binding after one of the bindings got a new name. -/
def Binding.renamed (b : Binding) (name : String) (c : Binding) : Binding :=
  if c = b then { c with name := name } else c

namespace Tree

variable {t t' : Tree} {b c : Binding} {name : String} {n s : Nat} {d e : Declaration}

/-- The trees have the same form, the nodes that belong to the binding have the new name, and other
identifiers and strings have the text that they had. -/
structure IsRenaming (t t' : Tree) (b : Binding) (name : String) : Prop where
  form : SameForm t t'
  renamed : ∀ n, t.resolution.bindingOf? n = some b → t'.text n = name
  kept : ∀ n, t.kind n ∈ "string" :: referenceKinds → t.resolution.bindingOf? n ≠ some b →
    t'.text n = t.text n

/-- A binding under the name that the node which first declares it has in a tree. -/
def relabel (t : Tree) (c : Binding) : Binding := { c with name := t.text c.identifier }

/-- No node has the text. -/
def IsFresh (t : Tree) (name : String) : Prop := ∀ n ∈ t.nodes, t.text n ≠ name

/-- Renaming changes the name of one binding only. -/
theorem renamed_eq : (b.renamed name c).kind = c.kind ∧
    (b.renamed name c).identifier = c.identifier ∧ (b.renamed name c).scope = c.scope := by
  rw [Binding.renamed]
  split <;> exact ⟨rfl, rfl, rfl⟩

/-- A binding has a name that is some node's text. -/
theorem IsFresh.name_ne (h : t.IsFresh name) (hc : c ∈ t.resolution.bindings) : c.name ≠ name := by
  obtain ⟨hkind, htext⟩ := name_of_binding_of (binding_of_identifier hc)
  have hrow : c.identifier < t.size := by
    refine lt_size_of_kind fun hempty => ?_
    rw [hempty] at hkind
    exact absurd hkind (by decide)
  exact htext ▸ h c.identifier (List.mem_range.mpr hrow)

/-- Renamed bindings of different names have different names. -/
theorem IsFresh.renamed_name_inj (h : t.IsFresh name) (hb : b ∈ t.resolution.bindings)
    (hc : c ∈ t.resolution.bindings) {a : Binding}
    (heq : (a.renamed name b).name = (a.renamed name c).name) : b.name = c.name := by
  simp only [Binding.renamed] at heq
  split at heq
  case isTrue hba =>
    split at heq
    case isTrue hca => rw [hba, hca]
    case isFalse => exact absurd heq.symm (h.name_ne hc)
  case isFalse =>
    split at heq
    case isTrue => exact absurd heq (h.name_ne hb)
    case isFalse => exact heq

/-- A table with other values gives the other value. -/
theorem lookup_map_values {α β : Type} (f : α → β) (table : List (Node × α)) (n : Node) :
    (table.map (Prod.map id f)).lookup n = (table.lookup n).map f := by
  induction table with
  | nil => rfl
  | cons entry rest ih =>
      obtain ⟨m, v⟩ := entry
      rw [List.map_cons, Prod.map_apply, List.lookup_cons, List.lookup_cons, ih]
      by_cases hm : n = m
      · simp [hm]
      · simp [beq_false_of_ne hm]

namespace IsRenaming

variable (h : IsRenaming t t' b name) (hfresh : t.IsFresh name)

include h

/-- A node that belongs to a binding has its name after the renaming. -/
theorem text_of_binding_of (hn : t.resolution.bindingOf? n = some c) :
    t'.text n = (b.renamed name c).name := by
  obtain ⟨hkind, htext⟩ := name_of_binding_of hn
  by_cases hcb : c = b
  · rw [Binding.renamed, if_pos hcb, h.renamed n (hcb ▸ hn)]
  · rw [Binding.renamed, if_neg hcb, ← htext]
    refine h.kept n (List.mem_cons_of_mem _ hkind) ?_
    rw [hn]
    exact fun heq => hcb (Option.some.inj heq)

include hfresh

/-- Identifiers declared in one scope have the same name after the renaming if they had before. -/
theorem same_name_iff (hd : d ∈ t.declarations) (he : e ∈ t.declarations)
    (hscope : d.scope = e.scope) :
    t'.text d.identifier = t'.text e.identifier ↔
      t.text d.identifier = t.text e.identifier := by
  obtain ⟨c, hc, hbinding, hcscope, hcname⟩ := binding_of_declaration hd
  obtain ⟨c', hc', hbinding', hcscope', hcname'⟩ := binding_of_declaration he
  rw [h.text_of_binding_of hbinding, h.text_of_binding_of hbinding', ← hcname, ← hcname']
  constructor
  · exact hfresh.renamed_name_inj hc hc'
  · intro hname
    have hscopes : c.scope = c'.scope := by rw [hcscope, hcscope', hscope]
    rw [t.bindings_made.distinct.eq hc hc' hscopes hname]

/-- The bindings that some declarations make are the same but for the names. -/
theorem foldl_add_declaration {made rest : List Declaration} {bindings : List Binding}
    (hmade : t.MadeBy made bindings) (hmem : ∀ d ∈ made ++ rest, d ∈ t.declarations) :
    rest.foldl t'.addDeclaration (bindings.map t'.relabel) =
      (rest.foldl t.addDeclaration bindings).map t'.relabel := by
  induction rest generalizing made bindings with
  | nil => rfl
  | cons d rest ih =>
      have hd : d ∈ t.declarations := hmem d (by simp)
      have hname : ∀ c ∈ bindings, c.scope = d.scope →
          (t'.text c.identifier = t'.text d.identifier ↔ c.name = t.text d.identifier) := by
        intro c hc hscope
        obtain ⟨e, he, rfl⟩ := hmade.made_of_mem c hc
        exact h.same_name_iff hfresh (hmem e (by simp [he])) hd hscope
      -- The declaration joins a binding in both trees, or makes a new one in both.
      have hstep : t'.addDeclaration (bindings.map t'.relabel) d =
          (t.addDeclaration bindings d).map t'.relabel := by
        rcases t.add_declaration_cases bindings d with ⟨c, hc, hscope, hcname, heq⟩ | ⟨hnew, heq⟩
        · rcases t'.add_declaration_cases (bindings.map t'.relabel) d with
            ⟨-, -, -, -, heq'⟩ | ⟨hnew', -⟩
          · rw [heq, heq']
          · exact absurd ((hname c hc hscope).mpr hcname)
              (hnew' _ (List.mem_map_of_mem hc) hscope)
        · rcases t'.add_declaration_cases (bindings.map t'.relabel) d with
            ⟨c', hc', hscope, hcname, -⟩ | ⟨-, heq'⟩
          · obtain ⟨c, hc, rfl⟩ := List.mem_map.mp hc'
            exact absurd ((hname c hc hscope).mp hcname) (hnew c hc hscope)
          · rw [heq, heq', List.map_append]
            rfl
      rw [List.foldl_cons, List.foldl_cons, hstep]
      exact ih (hmade.add d) (by simpa using hmem)

/-- The bindings are the same but for the name of the renamed one. -/
theorem bindings_eq :
    t'.resolution.bindings = t.resolution.bindings.map (b.renamed name) := by
  have hnone : t.MadeBy [] [] := ⟨List.Pairwise.nil, by simp, by simp⟩
  have hfold : t.declarations.foldl t'.addDeclaration ([].map t'.relabel) =
      (t.declarations.foldl t.addDeclaration []).map t'.relabel :=
    h.foldl_add_declaration hfresh hnone (by simp)
  rw [List.map_nil, ← h.form.declarations_eq] at hfold
  refine (show t'.resolution.bindings = _ from hfold).trans ?_
  rw [h.form.declarations_eq]
  refine List.map_congr_left fun c hc => ?_
  have hname := h.text_of_binding_of (binding_of_identifier hc)
  obtain ⟨hkind, hidentifier, hscope⟩ : (b.renamed name c).kind = c.kind ∧
      (b.renamed name c).identifier = c.identifier ∧ (b.renamed name c).scope = c.scope :=
    renamed_eq
  cases hrenamed : b.renamed name c
  simp_all [relabel]

/-- The scope of a binding gives the renamed binding for its name. -/
theorem binding_at_renamed (hc : c ∈ t.resolution.bindings) :
    bindingAt? t'.bindings c.scope (b.renamed name c).name = some (b.renamed name c) := by
  have hmem : b.renamed name c ∈ t'.resolution.bindings := by
    rw [h.bindings_eq hfresh]
    exact List.mem_map_of_mem hc
  exact t'.bindings_made.distinct.binding_at.mpr ⟨hmem, renamed_eq.2.2, rfl⟩

/-- The same identifiers declare the same bindings. -/
theorem declared_eq :
    t'.resolution.declared =
      t.resolution.declared.map (Prod.map id (b.renamed name)) := by
  have hdeclared : ∀ u : Tree, u.resolution.declared = u.declaredWith u.bindings := fun u => rfl
  rw [hdeclared, hdeclared, declaredWith, declaredWith, h.form.declarations_eq, List.map_filterMap]
  refine List.filterMap_congr fun d hd => ?_
  obtain ⟨c, hc, hbinding, hscope, hname⟩ := binding_of_declaration hd
  have hat := t.bindings_made.distinct.binding_at.mpr ⟨hc, hscope, hname⟩
  rw [hat, h.text_of_binding_of hbinding, ← hscope, h.binding_at_renamed hfresh hc]
  rfl

/-- A scope that gives nothing for the name at a node gives nothing after the renaming, if the
node's name means the renamed binding exactly when it got the new name. -/
theorem binding_at_none (hat : bindingAt? t.bindings s (t.text n) = none)
    (htext : t'.text n = t.text n ∨ t'.text n = name ∧ t.text n = b.name) (hn : n ∈ t.nodes) :
    bindingAt? t'.bindings s (t'.text n) = none := by
  rw [binding_at_eq_none_iff] at hat ⊢
  have hbindings : t'.bindings = t.bindings.map (b.renamed name) := h.bindings_eq hfresh
  rw [hbindings]
  intro c' hc' hscope hname
  obtain ⟨c, hc, rfl⟩ := List.mem_map.mp hc'
  refine hat c hc (renamed_eq.2.2 ▸ hscope) ?_
  by_cases hcb : c = b
  · rcases htext with hkept | ⟨-, holdname⟩
    · -- The new name would be the text of the node.
      rw [Binding.renamed, if_pos hcb, hkept] at hname
      exact absurd hname.symm (hfresh n hn)
    · rw [holdname, hcb]
  · rw [Binding.renamed, if_neg hcb] at hname
    rcases htext with hkept | ⟨hnew, -⟩
    · rw [hname, hkept]
    · exact absurd (hname.trans hnew) (hfresh.name_ne hc)

/-- A name means the same binding after the renaming. -/
theorem lookup_eq (hn : n ∈ t.nodes) (hkind : t.kind n ∈ referenceKinds)
    (hbinding : t.resolution.bindingOf? n = t.lookup? t.bindings n (t.text n)) :
    t'.lookup? t'.bindings n (t'.text n) =
      (t.lookup? t.bindings n (t.text n)).map (b.renamed name) := by
  have htext : t'.text n = t.text n ∨ t'.text n = name ∧ t.text n = b.name := by
    by_cases hb : t.resolution.bindingOf? n = some b
    · exact .inr ⟨h.renamed n hb, (name_of_binding_of hb).2⟩
    · exact .inl (h.kept n (List.mem_cons_of_mem _ hkind) hb)
  -- The same scopes are searched in the same order, and those that gave nothing still give nothing.
  have hchain := h.form.scope_chain_eq n
  cases hlookup : t.lookup? t.bindings n (t.text n) with
  | none =>
      rw [Option.map_none, lookup?, hchain, List.findSome?_eq_none_iff]
      rw [ lookup?, List.findSome?_eq_none_iff] at hlookup
      exact fun s hs => h.binding_at_none hfresh (hlookup s hs) htext hn
  | some c =>
      rw [hlookup] at hbinding
      have hc := Resolution.mem_bindings_of_binding_of hbinding
      obtain ⟨before, s, after, hsplit, hat, hbefore⟩ := List.findSome?_eq_some_iff.mp hlookup
      obtain ⟨rfl, -⟩ := binding_at_fits hat
      rw [Option.map_some, lookup?, hchain, List.findSome?_eq_some_iff]
      refine ⟨before, c.scope, after, hsplit, ?_, fun s hs =>
        h.binding_at_none hfresh (hbefore s hs) htext hn⟩
      rw [h.text_of_binding_of hbinding, h.binding_at_renamed hfresh hc]

/-- The same nodes use the same bindings. -/
theorem uses_eq :
    t'.resolution.uses = t.resolution.uses.map (Prod.map id (b.renamed name)) := by
  have huses : ∀ u : Tree, u.resolution.uses = u.usesWith u.bindings u.resolution.declared :=
    fun u => rfl
  rw [huses, huses, usesWith, usesWith, h.form.nodes_eq, List.map_filterMap]
  refine List.filterMap_congr fun n hn => ?_
  have hdeclares : (t'.resolution.declared.lookup n).isNone =
      (t.resolution.declared.lookup n).isNone := by
    rw [h.declared_eq hfresh, lookup_map_values, Option.isNone_map]
  rw [h.form.kind_eq, hdeclares]
  simp only [h.form.in_use_position_iff]
  split
  case isTrue huse =>
    obtain ⟨hkind, hfree, hposition⟩ := huse
    -- What is placed has an entry in the table of declarations, and then counts as no use.
    have hplaced : ∀ c s, ¬ t.Places c n s := by
      intro construct s hplaces
      obtain ⟨d, hd, rfl, -⟩ := places_iff_declared.mp ⟨construct, hplaces⟩
      obtain ⟨c, hc, -, hscope, hname⟩ := binding_of_declaration hd
      have hat := t.bindings_made.distinct.binding_at.mpr ⟨hc, hscope, hname⟩
      rw [lookup_declared hd, hat] at hfree
      exact absurd hfree (by simp)
    rw [h.lookup_eq hfresh hn hkind (binding_of_use hn hkind hplaced hposition), Option.map_map,
      Option.map_map]
    rfl
  case isFalse => rfl

/-- Every node belongs to the same binding. -/
theorem binding_of_eq :
    t'.resolution.bindingOf? n = (t.resolution.bindingOf? n).map (b.renamed name) := by
  rw [Resolution.bindingOf?, Resolution.bindingOf?, h.declared_eq hfresh, h.uses_eq hfresh,
    lookup_map_values, lookup_map_values, Option.map_or]

omit h in
/-- Different bindings stay different. -/
theorem renamed_inj {a : Binding} (ha : a ∈ t.resolution.bindings)
    (hc : c ∈ t.resolution.bindings) (heq : b.renamed name a = b.renamed name c) : a = c := by
  have hscope : a.scope = c.scope := by
    have hrenamed := congrArg Binding.scope heq
    rwa [renamed_eq.2.2, renamed_eq.2.2] at hrenamed
  exact t.bindings_made.distinct.eq ha hc hscope
    (hfresh.renamed_name_inj ha hc (congrArg Binding.name heq))

/-- Every binding has the same uses. -/
theorem uses_of_eq (hc : c ∈ t.resolution.bindings) :
    t'.resolution.usesOf (b.renamed name c) = t.resolution.usesOf c := by
  rw [Resolution.usesOf, Resolution.usesOf, h.uses_eq hfresh, List.filter_map, List.map_map]
  have hsame : ∀ u ∈ t.resolution.uses,
      ((fun u : Node × Binding => decide (u.2 = b.renamed name c)) ∘
        Prod.map id (b.renamed name)) u = decide (u.2 = c) := by
    rintro ⟨n, a⟩ hu
    refine decide_eq_decide.mpr ⟨fun heq => ?_, fun heq => congrArg (b.renamed name) heq⟩
    exact renamed_inj hfresh (mem_uses (show (n, a) ∈ t.usesWith _ _ from hu)).2.2 hc heq
  rw [List.filter_congr hsame]
  rfl

end IsRenaming

end Tree

end Excise
