import Excise.Proofs.Edit.Pruning
import Excise.Proofs.Names.Scoping

/-!
# Names in a tree with a plan carried out

Where a plan spares the nodes by which calls, classes, imports and loops are read
(`Plan.SparesHeads`), the scopes around a node that is kept are the same as before
(`CarriedOut.sees_place`), and an identifier that is kept is placed in the same scope as before
(`CarriedOut.places_place`): everything around it is kept too, and the nodes that are gone stand in
no field that the construct is read by.
-/

namespace Excise

open Excise.Tree

/-- The plan cuts no callee, argument or name of a class out, and takes nothing away from an import
and no word of a declaration. -/
structure Plan.SparesHeads (p : Plan) (t : Tree) : Prop where
  cut : ∀ m ∈ p.cutNodes t, ∀ q ∈ t.parent? m,
    t.kind q ∉ ["call_expression", "class"] ∧ t.field q ≠ some "arguments"
  taken : ∀ m ∈ p.takenNodes t, t.field m ≠ some "kind" ∧
    ∀ q ∈ t.parent? m, t.kind q ∉ ["import_statement", "import_require_clause"]

namespace Plan.CarriedOut

variable {p : Plan} {t t' : Tree} {place : Nat → Nat} {c i m n q s : Nat} {name : String}

/-- The kinds of node of which placeholders consist. -/
def placeholderKinds : List String := ["undefined", "pair", "property_identifier", ":"]

variable (h : p.CarriedOut t t' place)

include h

/-! ## Children that are found again -/

/-- A placeholder is of one of its kinds. -/
theorem kind_of_replaced (hn : p.Leaves t n) (hreplaced : n ∈ p.replacements.keys) :
    t'.kind (place n) ∈ placeholderKinds ∧
      ∀ i ∈ t'.descendants (place n), t'.kind i ∈ placeholderKinds := by
  have hrow := h.replaced n hn hreplaced
  split at hrow
  case isTrue =>
    obtain ⟨hkind, hinside, hkey, -, -, hcolon, -, -, hvalue, -⟩ := hrow
    rw [hinside]
    simp [placeholderKinds, hkind, hkey, hcolon, hvalue]
  case isFalse =>
    obtain ⟨hkind, -, hinside⟩ := hrow
    simp [placeholderKinds, hkind, hinside]

/-- A node of any other kind is one that is kept. -/
theorem exists_kept (hi : i < t'.size) (hkind : t'.kind i ∉ placeholderKinds) :
    ∃ n, p.Keeps t n ∧ place n = i ∧ t.kind n = t'.kind i := by
  obtain ⟨n, hn, hrow⟩ := h.nothing_else i hi
  by_cases hreplaced : n ∈ p.replacements.keys
  · obtain ⟨hown, hinside⟩ := h.kind_of_replaced hn hreplaced
    rcases hrow with rfl | ⟨-, hmem⟩
    · exact absurd hown hkind
    · exact absurd (hinside i hmem) hkind
  · rcases hrow with rfl | ⟨hmem, -⟩
    · exact ⟨n, ⟨hn, hreplaced⟩, rfl, (h.kind_eq n ⟨hn, hreplaced⟩).symm⟩
    · exact absurd hmem hreplaced

/-- What fills a field still does if it is left. -/
theorem child_by_field_place (hq : p.Keeps t q) (hc : t.childByField? q name = some c)
    (hleft : p.Leaves t c) : t'.childByField? (place q) name = some (place c) := by
  obtain ⟨hfield, before, after, hsplit, hbefore⟩ := List.find?_eq_some_iff_append.mp hc
  rw [h.child_by_field_eq hq, Option.map_eq_some_iff]
  refine ⟨c, List.find?_eq_some_iff_append.mpr ⟨?_, before, after, hsplit, fun a ha => ?_⟩, rfl⟩
  · exact decide_eq_true ⟨hleft, of_decide_eq_true hfield⟩
  · have hnot : ¬ t.field a = some name := by simpa using hbefore a ha
    simp [hnot]

/-- A field that nothing filled stays empty. -/
theorem child_by_field_none (hq : p.Keeps t q) (hc : t.childByField? q name = none) :
    t'.childByField? (place q) name = none := by
  rw [h.child_by_field_eq hq, Option.map_eq_none_iff, List.find?_eq_none]
  intro c hmem
  have hnot : ¬ t.field c = some name := by simpa using List.find?_eq_none.mp hc c hmem
  simp [hnot]

/-- What fills a field filled it before, if what filled it before is left. -/
theorem exists_child_by_field (hq : p.Keeps t q) (hi : t'.childByField? (place q) name = some i)
    (hleft : ∀ c, t.childByField? q name = some c → p.Leaves t c) :
    ∃ c, t.childByField? q name = some c ∧ p.Leaves t c ∧ place c = i := by
  cases hc : t.childByField? q name with
  | none => rw [h.child_by_field_none hq hc] at hi; cases hi
  | some c =>
      rw [h.child_by_field_place hq hc (hleft c hc)] at hi
      exact ⟨c, rfl, hleft c hc, Option.some.inj hi⟩

/-- A named child that is kept is found again. -/
theorem named_child_place (hc : c ∈ t.namedChildren q) (hkeeps : p.Keeps t c) :
    place c ∈ t'.namedChildren (place q) := by
  have hq := hkeeps.of_within (within_parent (mem_named_children.mp hc).1)
  rw [h.named_children_eq hq]
  exact List.mem_map_of_mem (List.mem_filter.mpr ⟨hc, decide_eq_true hkeeps.1⟩)

/-- The named children of a kind that are kept are found again, in order, and no others. -/
theorem named_children_of_kind_eq (hq : p.Keeps t q) (hname : name ∉ placeholderKinds) :
    t'.namedChildrenOfKind (place q) name =
      ((t.namedChildrenOfKind q name).filter fun c => p.Keeps t c).map place := by
  rw [namedChildrenOfKind, namedChildrenOfKind, h.named_children_eq hq, List.filter_map,
    List.filter_filter, List.filter_filter]
  congr 1
  refine List.filter_congr fun c _ => ?_
  by_cases hc : p.Leaves t c
  · by_cases hreplaced : c ∈ p.replacements.keys
    · -- The placeholder is of none of the kinds that are looked for.
      have hother : t'.kind (place c) ≠ name := fun heq =>
        hname (heq ▸ (h.kind_of_replaced hc hreplaced).1)
      simp [Keeps, hreplaced, hother]
    · simp [Keeps, hc, hreplaced, h.kind_eq c ⟨hc, hreplaced⟩]
  · simp [Keeps, hc]

/-- A named child of a kind that is kept is found again. -/
theorem named_child_of_kind_place (hc : c ∈ t.namedChildrenOfKind q name) (hkeeps : p.Keeps t c) :
    place c ∈ t'.namedChildrenOfKind (place q) name := by
  obtain ⟨hnamed, hkind⟩ := List.mem_filter.mp hc
  refine List.mem_filter.mpr ⟨h.named_child_place hnamed hkeeps, ?_⟩
  rwa [h.kind_eq c hkeeps]

/-! ## Patterns and imports -/

/-- A binding part that is kept is one still. -/
theorem bound_part_place (hc : c ∈ t.boundParts q) (hkeeps : p.Keeps t c) :
    place c ∈ t'.boundParts (place q) := by
  have hq := hkeeps.of_within (within_parent (bound_part hc).1)
  have hfield : ∀ {field : String}, c ∈ (t.childByField? q field).toList →
      place c ∈ (t'.childByField? (place q) field).toList := fun hmem =>
    Option.mem_toList.mpr (h.child_by_field_place hq (Option.mem_toList.mp hmem) hkeeps.1)
  rw [boundParts] at hc ⊢
  rw [h.kind_eq q hq]
  split_ifs at hc ⊢
  · exact hfield hc
  · exact hfield hc
  · exact hfield hc
  · exact h.named_child_place hc hkeeps
  · exact absurd hc List.not_mem_nil

/-- A pattern still binds an identifier that is kept. -/
theorem binds_place (hbinds : t.Binds q i) (hkeeps : p.Keeps t i) :
    t'.Binds (place q) (place i) := by
  induction hbinds with
  | identifier hidentifier =>
      refine .identifier ?_
      rw [IsBindingIdentifier, h.kind_eq _ hkeeps]
      exact hidentifier
  | @part q c i hnot hpart hbinds ih =>
      have hc := hkeeps.of_within hbinds.within
      have hq := hc.of_within (within_parent (bound_part hpart).1)
      refine .part ?_ (h.bound_part_place hpart hc) (ih hkeeps)
      rw [IsBindingIdentifier, h.kind_eq _ hq]
      exact hnot

/-- The names of the declarators of a declaration still bind an identifier that is kept. -/
theorem declarator_binds_place (hbinds : t.DeclaratorBinds n i) (hkeeps : p.Keeps t i) :
    t'.DeclaratorBinds (place n) (place i) := by
  obtain ⟨d, hd, q, hq, hi⟩ := hbinds
  have hqkeeps := hkeeps.of_within hi.within
  have hdkeeps := hqkeeps.of_within (within_parent (parent_of_field hq))
  exact ⟨place d, h.named_child_of_kind_place hd hdkeeps, place q,
    h.child_by_field_place hdkeeps hq hqkeeps.1, h.binds_place hi hkeeps⟩

/-- An entry in a list of imported names still has its local name if that is kept. -/
theorem specifier_name_place (hi : t.specifierName? q = some i) (hkeeps : p.Keeps t i) :
    t.parent? i = some q ∧ t'.specifierName? (place q) = some (place i) := by
  obtain ⟨hor, hkind⟩ := Option.filter_eq_some_iff.mp hi
  have hkind' : decide (t'.kind (place i) = "identifier") = true := by
    rwa [h.kind_eq i hkeeps]
  -- The local name is the alias, or the imported name where there is no alias.
  rcases Option.or_eq_some_iff.mp hor with halias | ⟨hnone, hname⟩
  · have hparent := parent_of_field halias
    have hq := hkeeps.of_within (within_parent hparent)
    refine ⟨hparent, Option.filter_eq_some_iff.mpr ⟨Option.or_eq_some_iff.mpr (.inl ?_), hkind'⟩⟩
    exact h.child_by_field_place hq halias hkeeps.1
  · have hparent := parent_of_field hname
    have hq := hkeeps.of_within (within_parent hparent)
    refine ⟨hparent, Option.filter_eq_some_iff.mpr
      ⟨Option.or_eq_some_iff.mpr (.inr ⟨h.child_by_field_none hq hnone, ?_⟩), hkind'⟩⟩
    exact h.child_by_field_place hq hname hkeeps.1

/-- A part of an import clause still introduces a local name that is kept. -/
theorem clause_part_names_place (hi : i ∈ t.clausePartNames q) (hkeeps : p.Keeps t i) :
    t.Within i q ∧ place i ∈ t'.clausePartNames (place q) := by
  rw [clausePartNames] at hi
  split_ifs at hi with hidentifier hnamespace hnamed
  · obtain rfl := List.mem_singleton.mp hi
    refine ⟨within_refl, ?_⟩
    rw [clausePartNames, if_pos (by rw [h.kind_eq i hkeeps]; exact hidentifier)]
    exact List.mem_singleton_self _
  · have hwithin := within_parent (parent_of_named_child_of_kind hi)
    have hq := hkeeps.of_within hwithin
    refine ⟨hwithin, ?_⟩
    rw [clausePartNames, h.kind_eq q hq, if_neg hidentifier, if_pos hnamespace]
    exact h.named_child_of_kind_place hi hkeeps
  · obtain ⟨specifier, hspecifier, hi⟩ := List.mem_filterMap.mp hi
    obtain ⟨hparent, hname⟩ := h.specifier_name_place hi hkeeps
    have hskeeps := hkeeps.of_within (within_parent hparent)
    have hwithin := within_parent (parent_of_named_child_of_kind hspecifier)
    have hq := hskeeps.of_within hwithin
    refine ⟨within_trans (within_parent hparent) hwithin, ?_⟩
    rw [clausePartNames, h.kind_eq q hq, if_neg hidentifier, if_neg hnamespace, if_pos hnamed]
    exact List.mem_filterMap.mpr
      ⟨place specifier, h.named_child_of_kind_place hspecifier hskeeps, hname⟩
  · exact absurd hi List.not_mem_nil

/-- A clause of an import still introduces a local name that is kept. -/
theorem clause_names_place (hi : i ∈ t.clauseNames q) (hkeeps : p.Keeps t i) :
    t.Within i q ∧ place i ∈ t'.clauseNames (place q) := by
  rw [clauseNames] at hi
  split_ifs at hi with hrequire himport
  · have hhead := Option.mem_toList.mp hi
    obtain ⟨rest, hlist⟩ := List.head?_eq_some_iff.mp hhead
    have hwithin := within_parent (parent_of_named_child_of_kind (List.mem_of_mem_head? hhead))
    have hq := hkeeps.of_within hwithin
    refine ⟨hwithin, ?_⟩
    rw [clauseNames, h.kind_eq q hq, if_pos hrequire,
      h.named_children_of_kind_eq hq (by simp [placeholderKinds]), hlist]
    simp [hkeeps]
  · obtain ⟨part, hpart, hi⟩ := List.mem_flatMap.mp hi
    obtain ⟨hwithin, hmem⟩ := h.clause_part_names_place hi hkeeps
    have hpkeeps := hkeeps.of_within hwithin
    have houter := within_parent (mem_named_children.mp hpart).1
    have hq := hpkeeps.of_within houter
    refine ⟨within_trans hwithin houter, ?_⟩
    rw [clauseNames, h.kind_eq q hq, if_neg hrequire, if_pos himport]
    exact List.mem_flatMap.mpr ⟨place part, h.named_child_place hpart hpkeeps, hmem⟩
  · exact absurd hi List.not_mem_nil

/-- An import still introduces a local name that is kept. -/
theorem imported_name_place (hi : i ∈ t.importedNames n) (hkeeps : p.Keeps t i) :
    t.Within i n ∧ place i ∈ t'.importedNames (place n) := by
  obtain ⟨clause, hclause, hi⟩ := List.mem_flatMap.mp hi
  obtain ⟨hwithin, hmem⟩ := h.clause_names_place hi hkeeps
  refine ⟨within_trans hwithin (within_parent (mem_named_children.mp hclause).1), ?_⟩
  exact List.mem_flatMap.mpr
    ⟨place clause, h.named_child_place hclause (hkeeps.of_within hwithin), hmem⟩

/-! ## Scopes -/

/-- Only the root stands in the first row. -/
theorem place_eq_zero_iff (hn : p.Leaves t n) : place n = 0 ↔ n = 0 := by
  obtain ⟨hroot, hplace⟩ := h.root_place
  constructor
  · exact fun heq => h.place_inj hn hroot (heq.trans hplace.symm)
  · rintro rfl
    exact hplace

/-- A kept node opens a function scope exactly if it did. -/
theorem opens_function_scope_iff (hs : p.Keeps t s) :
    t'.OpensFunctionScope (place s) ↔ t.OpensFunctionScope s := by
  rw [OpensFunctionScope, OpensFunctionScope, h.place_eq_zero_iff hs.1, h.kind_eq s hs]

/-- A kept node opens a scope exactly if it did. -/
theorem opens_scope_iff (hheads : p.SparesHeads t) (hs : p.Keeps t s) :
    t'.OpensScope (place s) ↔ t.OpensScope s := by
  rw [OpensScope, OpensScope, h.opens_function_scope_iff hs, h.kind_eq s hs]
  refine or_congr_right (or_congr_right ?_)
  rw [IsNamedClassExpression, IsNamedClassExpression, h.kind_eq s hs]
  refine and_congr_right fun hclass => ?_
  -- The name of a class is not cut out, so the class has a name exactly if it had one.
  cases hname : t.childByField? s "name" with
  | none => rw [h.child_by_field_none hs hname]
  | some c =>
      have hparent := parent_of_field hname
      have hcut : c ∉ p.cutNodes t := fun hmem =>
        (hheads.cut c hmem s hparent).1 (by simp [hclass])
      rw [h.child_by_field_place hs hname (hs.leaves_child hparent hcut)]
      rfl

/-- The closest node with a property that kept nodes keep is the closest still. -/
theorem closest_place {P P' : Node → Prop} (hP : ∀ s, p.Keeps t s → (P' (place s) ↔ P s))
    (hn : p.Leaves t n) (hs : t.Closest P n s) : t'.Closest P' (place n) (place s) where
  around := h.ancestor_place hn hs.around
  holds := (hP s (hn.keeps_of_ancestor hs.around)).mpr hs.holds
  nearest a' ha' hPa' := by
    rw [h.ancestors_eq hn] at ha'
    obtain ⟨a, ha, rfl⟩ := List.mem_map.mp ha'
    have hPa := (hP a (hn.keeps_of_ancestor ha)).mp hPa'
    exact h.within_place (hn.keeps_of_ancestor hs.around).1 (hs.nearest a ha hPa)

/-- What a kept node sees it sees still. -/
theorem sees_place (hheads : p.SparesHeads t) (hn : p.Leaves t n) (hs : t.Sees n s) :
    t'.Sees (place n) (place s) where
  around := h.ancestor_place hn hs.around
  opens := (h.opens_scope_iff hheads (hn.keeps_of_ancestor hs.around)).mpr hs.opens
  programs a' ha' hprogram := by
    rw [h.ancestors_eq hn] at ha'
    obtain ⟨a, ha, rfl⟩ := List.mem_map.mp ha'
    rw [h.kind_eq a (hn.keeps_of_ancestor ha)] at hprogram
    exact h.within_place (hn.keeps_of_ancestor hs.around).1 (hs.programs a ha hprogram)

/-- A construct inside the root is inside it still. -/
theorem construct_place (hn : p.Leaves t n) (hmem : n ∈ t.descendants 0) :
    place n ∈ t'.descendants 0 := by
  refine mem_descendants_root.mpr ⟨h.lt_size n hn, fun hzero => ?_⟩
  exact (mem_descendants_root.mp hmem).2 ((h.place_eq_zero_iff hn).mp hzero)

/-- The word of a kept loop is what it was. -/
theorem word_place (hheads : p.SparesHeads t) (hn : p.Keeps t n)
    (hword : t.childByField? n "kind" = some c) :
    t'.childByField? (place n) "kind" = some (place c) ∧ t'.text (place c) = t.text c := by
  have hfield := field_of_child_by_field hword
  have htaken : c ∉ p.takenNodes t := fun hmem => (hheads.taken c hmem).1 hfield
  simp only [takenNodes, List.mem_append, not_or] at htaken
  have hleft := hn.leaves_child (parent_of_field hword) htaken.1
  refine ⟨h.child_by_field_place hn hword hleft, h.text_eq c ⟨hleft, htaken.2⟩ (.inr ?_)⟩
  rw [IsWord, hfield]
  simp

/-- A construct places an identifier that is kept in the scope in which it placed it before. -/
theorem places_place (hheads : p.SparesHeads t) (hplaces : t.Places n i s)
    (hkeeps : p.Keeps t i) : t'.Places (place n) (place i) (place s) := by
  have hidentifier : t'.IsBindingIdentifier (place i) := by
    rw [IsBindingIdentifier, h.kind_eq i hkeeps]
    exact hplaces.is_identifier
  have hfunction : ∀ a, p.Keeps t a → (t'.OpensFunctionScope (place a) ↔ t.OpensFunctionScope a) :=
    fun a ha => h.opens_function_scope_iff ha
  have hscope : ∀ a, p.Keeps t a → (t'.OpensScope (place a) ↔ t.OpensScope a) :=
    fun a ha => h.opens_scope_iff hheads ha
  -- The constructs with a name of their own, and those with a pattern.
  have hfield : ∀ {field : String}, t.childByField? n field = some i →
      p.Keeps t n ∧ t'.childByField? (place n) field = some (place i) := fun hname => by
    have hn := hkeeps.of_within (within_parent (parent_of_field hname))
    exact ⟨hn, h.child_by_field_place hn hname hkeeps.1⟩
  have hpattern : ∀ {field : String} {q : Node}, t.childByField? n field = some q → t.Binds q i →
      p.Keeps t n ∧ t'.childByField? (place n) field = some (place q) := fun hq hi => by
    have hqkeeps := hkeeps.of_within hi.within
    have hn := hqkeeps.of_within (within_parent (parent_of_field hq))
    exact ⟨hn, h.child_by_field_place hn hq hqkeeps.1⟩
  have hdeclaration : t.DeclaratorBinds n i → p.Keeps t n := by
    rintro ⟨d, hd, q, hq, hi⟩
    have hqd := within_trans hi.within (within_parent (parent_of_field hq))
    exact hkeeps.of_within (within_trans hqd (within_parent (parent_of_named_child_of_kind hd)))
  cases hplaces with
  | hoisted hmem hkind hbinds hs =>
      have hn := hdeclaration hbinds
      exact .hoisted (h.construct_place hn.1 hmem) ((h.kind_eq n hn).trans hkind)
        (h.declarator_binds_place hbinds hkeeps) (h.closest_place hfunction hn.1 hs)
  | hoistedLoop hmem hkind hword hvar hleft hi hs =>
      obtain ⟨hn, hleft'⟩ := hpattern hleft hi
      obtain ⟨hword', htext⟩ := h.word_place hheads hn hword
      exact .hoistedLoop (h.construct_place hn.1 hmem) ((h.kind_eq n hn).trans hkind) hword'
        (htext.trans hvar) hleft' (h.binds_place hi hkeeps) (h.closest_place hfunction hn.1 hs)
  | lexical hmem hkind hbinds hs =>
      have hn := hdeclaration hbinds
      exact .lexical (h.construct_place hn.1 hmem) ((h.kind_eq n hn).trans hkind)
        (h.declarator_binds_place hbinds hkeeps) (h.closest_place hscope hn.1 hs)
  | functionName hmem hkind hname _ hs =>
      obtain ⟨hn, hname'⟩ := hfield hname
      exact .functionName (h.construct_place hn.1 hmem) (h.kind_eq n hn ▸ hkind) hname'
        hidentifier (h.closest_place hscope hn.1 hs)
  | className hmem hkind hname _ hs =>
      obtain ⟨hn, hname'⟩ := hfield hname
      exact .className (h.construct_place hn.1 hmem) (h.kind_eq n hn ▸ hkind) hname'
        hidentifier (h.closest_place hscope hn.1 hs)
  | parameter hmem hkind hq hi hs =>
      have hqkeeps := hkeeps.of_within hi.within
      have hn := hqkeeps.of_within (within_parent (mem_named_children.mp hq).1)
      exact .parameter (h.construct_place hn.1 hmem) ((h.kind_eq n hn).trans hkind)
        (h.named_child_place hq hqkeeps) (h.binds_place hi hkeeps)
        (h.closest_place hscope hn.1 hs)
  | functionExpression hmem hkind hname _ =>
      obtain ⟨hn, hname'⟩ := hfield hname
      exact .functionExpression (h.construct_place hn.1 hmem) (h.kind_eq n hn ▸ hkind) hname'
        hidentifier
  | classExpression hmem hkind hname _ =>
      obtain ⟨hn, hname'⟩ := hfield hname
      exact .classExpression (h.construct_place hn.1 hmem) ((h.kind_eq n hn).trans hkind) hname'
        hidentifier
  | arrowParameter hmem hkind hname _ =>
      obtain ⟨hn, hname'⟩ := hfield hname
      exact .arrowParameter (h.construct_place hn.1 hmem) ((h.kind_eq n hn).trans hkind) hname'
        hidentifier
  | caught hmem hkind hparameter hi =>
      obtain ⟨hn, hparameter'⟩ := hpattern hparameter hi
      exact .caught (h.construct_place hn.1 hmem) ((h.kind_eq n hn).trans hkind) hparameter'
        (h.binds_place hi hkeeps)
  | loop hmem hkind hword hvar hleft hi =>
      obtain ⟨hn, hleft'⟩ := hpattern hleft hi
      obtain ⟨hword', htext⟩ := h.word_place hheads hn hword
      exact .loop (h.construct_place hn.1 hmem) ((h.kind_eq n hn).trans hkind) hword'
        (fun hvar' => hvar (htext ▸ hvar')) hleft' (h.binds_place hi hkeeps)
  | imported hmem hkind hi =>
      obtain ⟨hwithin, hi'⟩ := h.imported_name_place hi hkeeps
      have hn := hkeeps.of_within hwithin
      rw [h.root_place.2]
      exact .imported (h.construct_place hn.1 hmem) ((h.kind_eq n hn).trans hkind) hi'

end Plan.CarriedOut

end Excise
