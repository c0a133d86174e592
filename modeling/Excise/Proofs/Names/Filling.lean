import Excise.Names.Filling
import Excise.Proofs.Names.Tables
import Mathlib.Data.List.Induction

/-!
# The filled tables

No entry of the tables of names is ever written over while they are filled, since no identifier is
declared twice (`Tree.IsDeclared.add`, `Tree.IsResolved.add`), and in the end they are those of the
resolution (`filled_eq`). So they agree with one another (`tables_agree`).
-/

namespace Excise

/-! ## Tables of bindings -/

section Keyed

variable {κ α β : Type} [DecidableEq κ] {items : List α} {value : α → β} {a : α}

/-- A table is searched for a key from the front. -/
theorem Table.get?_eq_lookup (table : Table κ β) (k : κ) : table.get? k = table.lookup k := by
  induction table with
  | nil => rfl
  | cons e rest ih =>
      obtain ⟨key, value⟩ := e
      rw [List.lookup_cons, Table.get?, ih]
      by_cases h : key = k
      · simp [h]
      · simp [h, beq_false_of_ne (Ne.symm h)]

/-- The first item of a key gives the value of it. -/
theorem Table.get?_map (items : List α) (key : α → κ) (value : α → β) (k : κ) :
    Table.get? (items.map fun a => (key a, value a)) k =
      (items.find? fun a => key a = k).map value := by
  induction items with
  | nil => rfl
  | cons a rest ih =>
      by_cases h : key a = k
      · simp [Table.get?, h]
      · simp [Table.get?, h, ih]

/-- An item that is there has its value. -/
theorem Table.get?_map_self [DecidableEq α] (ha : a ∈ items) :
    Table.get? (items.map fun a => (a, value a)) a = some (value a) := by
  induction items with
  | nil => exact absurd ha List.not_mem_nil
  | cons first rest ih =>
      by_cases h : first = a
      · simp [Table.get?, h]
      · simp [Table.get?, h, ih ((List.mem_cons.mp ha).resolve_left (Ne.symm h))]

/-- Giving a value to an item that is there changes the value of that item alone. -/
theorem Table.set_map [DecidableEq α] (hdistinct : items.Nodup) (ha : a ∈ items) (v : β) :
    Table.set (items.map fun a => (a, value a)) a v =
      items.map fun a' => (a', if a' = a then v else value a') := by
  induction items with
  | nil => exact absurd ha List.not_mem_nil
  | cons first rest ih =>
      obtain ⟨hfirst, hrest⟩ := List.nodup_cons.mp hdistinct
      by_cases h : first = a
      · subst h
        have hsame : ∀ a' ∈ rest, (a', value a') = (a', if a' = first then v else value a') := by
          intro a' ha'
          rw [if_neg]
          rintro rfl
          exact hfirst ha'
        simp [Table.set, List.map_congr_left hsame]
      · simp [Table.set, h, ih hrest ((List.mem_cons.mp ha).resolve_left (Ne.symm h))]

end Keyed

variable {t : Tree} {n s : Nat} {name : String} {b c : Binding} {bindings : List Binding}
  {d : Declaration} {made more : List Declaration} {tables : NameTables}

/-- Distinct bindings come once each. -/
theorem Distinct.nodup (h : Distinct bindings) : bindings.Nodup :=
  h.imp fun {b c} hne heq => hne (by simp [heq])

/-- More bindings leave the binding that a scope gives for a name. -/
theorem binding_at_append (h : bindingAt? bindings s name = some b) (more : List Binding) :
    bindingAt? (bindings ++ more) s name = some b := by
  rw [bindingAt?] at h ⊢
  rw [List.find?_append, h, Option.some_or]

/-- The entry of a binding among the names of its scope. -/
def Binding.entry (b : Binding) : (Node × String) × Binding := ((b.scope, b.name), b)

/-- The names of the scopes give their bindings. -/
theorem get?_entries (bindings : List Binding) (s : Node) (name : String) :
    Table.get? (bindings.map Binding.entry) (s, name) = bindingAt? bindings s name := by
  have hmap := Table.get?_map bindings (fun b => (b.scope, b.name)) id (s, name)
  rw [Option.map_id] at hmap
  refine Eq.trans hmap ?_
  simp [bindingAt?, Prod.ext_iff]

namespace Tree

/-! ## The declarations -/

/-- The tables say what was declared so far. -/
structure IsDeclared (t : Tree) (made : List Declaration) (tables : NameTables) : Prop where
  bindings : tables.bindings = made.foldl t.addDeclaration []
  names : tables.names = tables.bindings.map Binding.entry
  declared : tables.declared = made.filterMap fun d =>
    (bindingAt? tables.bindings d.scope (t.text d.identifier)).map (d.identifier, ·)
  resolved : tables.resolved = []
  references : tables.references = tables.bindings.map fun b => (b, [])

/-- The bindings so far are those that were made. -/
theorem IsDeclared.made_by (h : t.IsDeclared made tables) : t.MadeBy made tables.bindings := by
  have hnone : t.MadeBy [] [] := ⟨List.Pairwise.nil, by simp, by simp⟩
  rw [h.bindings]
  exact hnone.add_all made

/-- What is entered as declaring was declared. -/
theorem IsDeclared.mem_keys (h : t.IsDeclared made tables) (hn : n ∈ Table.keys tables.declared) :
    n ∈ made.map Declaration.identifier := by
  obtain ⟨entry, hentry, rfl⟩ := List.mem_map.mp hn
  rw [h.declared] at hentry
  obtain ⟨d, hd, hsome⟩ := List.mem_filterMap.mp hentry
  obtain ⟨b, -, rfl⟩ := Option.map_eq_some_iff.mp hsome
  exact List.mem_map_of_mem hd

/-- An identifier that was not declared before is entered without writing over anything. -/
theorem IsDeclared.add (h : t.IsDeclared made tables)
    (hnew : d.identifier ∉ made.map Declaration.identifier) :
    t.IsDeclared (made ++ [d]) (t.declareIn tables d) := by
  have hset := fun b => Table.set_of_new (mt h.mem_keys hnew) (k := d.identifier) b
  have hnames : tables.names.get? (d.scope, t.text d.identifier) =
      bindingAt? tables.bindings d.scope (t.text d.identifier) := by
    rw [h.names, get?_entries]
  unfold declareIn
  rw [hnames]
  cases hat : bindingAt? tables.bindings d.scope (t.text d.identifier) with
  | some b =>
      have hsame : t.addDeclaration tables.bindings d = tables.bindings := by
        rw [addDeclaration, hat]
      refine ⟨?_, h.names, ?_, h.resolved, h.references⟩
      · rw [List.foldl_append, ← h.bindings]
        exact hsame.symm
      · rw [List.filterMap_append, ← h.declared]
        simp [hat, hset]
  | none =>
      have hmore : t.addDeclaration tables.bindings d = tables.bindings ++ [t.madeBinding d] := by
        rw [addDeclaration, hat]
      have hother : t.madeBinding d ∉ tables.bindings :=
        fun hmem => binding_at_eq_none_iff.mp hat _ hmem rfl rfl
      -- What was declared before keeps its binding.
      have hbefore : ∀ e ∈ made, (bindingAt? (tables.bindings ++ [t.madeBinding d]) e.scope
            (t.text e.identifier)).map (e.identifier, ·) =
          (bindingAt? tables.bindings e.scope (t.text e.identifier)).map (e.identifier, ·) := by
        intro e he
        obtain ⟨b, hb, hscope, hname⟩ := h.made_by.mem_of_made e he
        have hold := h.made_by.distinct.binding_at.mpr ⟨hb, hscope, hname⟩
        rw [hold, binding_at_append hold]
      have hlast : bindingAt? (tables.bindings ++ [t.madeBinding d]) d.scope
          (t.text d.identifier) = some (t.madeBinding d) := by
        have hnone := hat
        rw [bindingAt?] at hnone ⊢
        rw [List.find?_append, hnone]
        simp [madeBinding]
      refine ⟨?_, ?_, ?_, h.resolved, ?_⟩
      · rw [List.foldl_append, ← h.bindings]
        exact hmore.symm
      · show tables.names.set _ _ = _
        rw [Table.set_of_new (Table.get?_eq_none_iff.mp (hnames.trans hat)), h.names,
          List.map_append]
        rfl
      · show tables.declared.set _ _ = _
        rw [hset, List.filterMap_append, List.filterMap_congr hbefore, ← h.declared]
        simp [hlast]
      · show tables.references.set _ _ = _
        rw [Table.set_of_new, h.references, List.map_append]
        · rfl
        · simpa [h.references, Table.keys] using hother

/-- More declarations one by one, of which none is of an identifier that was declared before. -/
theorem IsDeclared.add_all (h : t.IsDeclared made tables)
    (hdistinct : ((made ++ more).map Declaration.identifier).Nodup) :
    t.IsDeclared (made ++ more) (more.foldl t.declareIn tables) := by
  induction more generalizing made tables with
  | nil => rwa [List.append_nil]
  | cons d rest ih =>
      have hassoc : made ++ d :: rest = made ++ [d] ++ rest := by simp
      have hnew : d.identifier ∉ made.map Declaration.identifier := by
        intro hmem
        rw [List.map_append, List.map_cons] at hdistinct
        exact (List.nodup_append.mp hdistinct).2.2 _ hmem _ List.mem_cons_self rfl
      rw [hassoc] at hdistinct ⊢
      exact ih (h.add hnew) hdistinct

/-- After some of the declarations of a tree the tables say what was declared so far. -/
theorem is_declared_of_prefix (h : made <+: t.declarations) :
    t.IsDeclared made (t.declaredTables made) := by
  have hnone : t.IsDeclared [] .empty := ⟨rfl, rfl, rfl, rfl, rfl⟩
  refine hnone.add_all (t.declared_once.sublist ?_)
  exact (List.IsPrefix.sublist h).map _

/-- After all declarations the tables have the bindings and the declaring nodes of the tree. -/
theorem declared_tables (t : Tree) :
    t.declaredTables t.declarations =
      ⟨t.bindings.map Binding.entry, t.bindings, t.resolution.declared, [],
        t.bindings.map fun b => (b, [])⟩ := by
  have h := t.is_declared_of_prefix List.prefix_rfl
  have hbindings : (t.declaredTables t.declarations).bindings = t.bindings := h.bindings
  have hnames := h.names
  have hdeclared := h.declared
  have hreferences := h.references
  rw [hbindings] at hnames hdeclared hreferences
  rw [← hnames, ← hreferences, ← h.resolved, ← hbindings]
  exact congrArg (NameTables.mk _ _ · _ _) hdeclared

/-! ## The uses -/

/-- The binding that a node uses: that of its name in the innermost scope around it that has it. -/
def use? (t : Tree) (n : Node) : Option Binding :=
  if t.kind n ∈ referenceKinds ∧ (t.resolution.declared.lookup n).isNone ∧ t.InUsePosition n then
    t.lookup? t.bindings n (t.text n)
  else none

/-- The uses of a tree are those of its nodes. -/
theorem uses_eq (t : Tree) :
    t.resolution.uses = t.nodes.filterMap fun n => (t.use? n).map (n, ·) := by
  show t.usesWith t.bindings t.resolution.declared = _
  rw [usesWith]
  congr 1
  funext n
  rw [use?]
  split <;> rfl

/-- The uses of a binding are the nodes that use it. -/
theorem uses_of_eq (t : Tree) (b : Binding) :
    t.resolution.usesOf b = t.nodes.filter fun n => t.use? n = some b := by
  rw [Resolution.usesOf, uses_eq]
  induction t.nodes with
  | nil => rfl
  | cons n rest ih =>
      cases huse : t.use? n with
      | none => simp [huse, ih]
      | some c => by_cases hc : c = b <;> simp [huse, hc, ih]

/-- The tables say what was resolved so far. -/
structure IsResolved (t : Tree) (seen : List Node) (tables : NameTables) : Prop where
  names : tables.names = t.bindings.map Binding.entry
  bindings : tables.bindings = t.bindings
  declared : tables.declared = t.resolution.declared
  resolved : tables.resolved = seen.filterMap fun n => (t.use? n).map (n, ·)
  references : tables.references =
    t.bindings.map fun b => (b, seen.filter fun n => t.use? n = some b)

variable {seen later : List Node}

/-- What a node uses does not depend on what was resolved before. -/
theorem IsResolved.used_in (h : t.IsResolved seen tables) (n : Node) :
    t.usedIn tables n = t.use? n := by
  rw [usedIn, use?, h.declared, Table.get?_eq_lookup, lookup?, h.names]
  simp only [get?_entries]

/-- A node that was not seen before is entered without writing over anything. -/
theorem IsResolved.add (h : t.IsResolved seen tables) (hnew : n ∉ seen) :
    t.IsResolved (seen ++ [n]) (t.resolveIn tables n) := by
  rw [resolveIn, h.used_in]
  cases huse : t.use? n with
  | none =>
      refine ⟨h.names, h.bindings, h.declared, ?_, ?_⟩
      · rw [List.filterMap_append, ← h.resolved]
        simp [huse]
      · rw [h.references]
        simp [List.filter_append, huse]
  | some b =>
      have hb : b ∈ t.bindings := by
        rw [use?] at huse
        split at huse
        · exact lookup_mem huse
        · exact nomatch huse
      have hkey : n ∉ Table.keys tables.resolved := by
        rw [h.resolved, Table.keys]
        intro hmem
        obtain ⟨entry, hentry, rfl⟩ := List.mem_map.mp hmem
        obtain ⟨m, hm, hsome⟩ := List.mem_filterMap.mp hentry
        obtain ⟨c, -, rfl⟩ := Option.map_eq_some_iff.mp hsome
        exact hnew hm
      have hold : tables.references.get? b =
          some (seen.filter fun n => t.use? n = some b) := by
        rw [h.references, Table.get?_map_self hb]
      refine ⟨h.names, h.bindings, h.declared, ?_, ?_⟩
      · show tables.resolved.set n b = _
        rw [Table.set_of_new hkey, List.filterMap_append, ← h.resolved]
        simp [huse]
      · show tables.references.set b _ = _
        rw [hold, h.references, Table.set_map t.bindings_made.distinct.nodup hb]
        refine List.map_congr_left fun c _ => ?_
        rw [List.filter_append, Option.getD_some]
        by_cases hc : c = b
        · subst hc
          simp [huse]
        · have hother : ¬ t.use? n = some c := by
            rw [huse, Option.some.injEq]
            exact Ne.symm hc
          simp [hc, hother]

/-- More nodes one by one, none of which was seen before. -/
theorem IsResolved.add_all (h : t.IsResolved seen tables) (hdistinct : (seen ++ later).Nodup) :
    t.IsResolved (seen ++ later) (later.foldl t.resolveIn tables) := by
  induction later generalizing seen tables with
  | nil => rwa [List.append_nil]
  | cons n rest ih =>
      have hassoc : seen ++ n :: rest = seen ++ [n] ++ rest := by simp
      have hnew : n ∉ seen := fun hmem =>
        (List.nodup_append.mp hdistinct).2.2 _ hmem _ List.mem_cons_self rfl
      rw [hassoc] at hdistinct ⊢
      exact ih (h.add hnew) hdistinct

/-- After some of the nodes of a tree the tables say what was resolved so far. -/
theorem is_resolved_of_prefix (h : seen <+: t.nodes) :
    t.IsResolved seen (t.resolvedTables seen) := by
  have hnone : t.IsResolved [] (t.declaredTables t.declarations) := by
    rw [declared_tables]
    exact ⟨rfl, rfl, rfl, rfl, by simp⟩
  exact hnone.add_all (List.nodup_range.sublist (List.IsPrefix.sublist h))

/-- In the end the tables are those of the resolution. -/
theorem filled_eq (t : Tree) :
    t.filled = ⟨t.resolution.bindings.map Binding.entry, t.resolution.bindings,
      t.resolution.declared, t.resolution.uses,
      t.resolution.bindings.map fun b => (b, t.resolution.usesOf b)⟩ := by
  have h : t.IsResolved t.nodes t.filled := t.is_resolved_of_prefix List.prefix_rfl
  have hresolved := h.resolved
  rw [← uses_eq] at hresolved
  have hreferences : t.filled.references =
      t.resolution.bindings.map fun b => (b, t.resolution.usesOf b) := by
    refine h.references.trans (List.map_congr_left fun b _ => ?_)
    rw [uses_of_eq]
  rw [← hreferences, ← hresolved, ← h.declared]
  exact congrArg₂ (NameTables.mk · · _ _ _) h.names h.bindings

/-! ## What the tables say of one another -/

/-- More declarations leave the bindings that there are, in their places. -/
theorem bindings_grow (t : Tree) (bindings : List Binding) (more : List Declaration) :
    bindings <+: more.foldl t.addDeclaration bindings := by
  induction more generalizing bindings with
  | nil => exact List.prefix_rfl
  | cons d rest ih =>
      refine List.IsPrefix.trans ?_ (ih (t.addDeclaration bindings d))
      rcases t.add_declaration_cases bindings d with ⟨-, -, -, -, heq⟩ | ⟨-, heq⟩
      · exact heq.symm ▸ List.prefix_rfl
      · exact heq.symm ▸ List.prefix_append _ _

/-- Every declaring node is entered. -/
theorem keys_declared (t : Tree) :
    Table.keys t.resolution.declared = t.declarations.map Declaration.identifier := by
  have hsome : ∀ d ∈ t.declarations,
      (bindingAt? t.bindings d.scope (t.text d.identifier)).isSome := by
    intro d hd
    obtain ⟨b, hb, hscope, hname⟩ := t.bindings_made.mem_of_made d hd
    rw [t.bindings_made.distinct.binding_at.mpr ⟨hb, hscope, hname⟩]
    rfl
  show (t.declaredWith t.bindings).map _ = _
  rw [declaredWith]
  generalize t.declarations = declarations at hsome
  induction declarations with
  | nil => rfl
  | cons d rest ih =>
      obtain ⟨b, hb⟩ := Option.isSome_iff_exists.mp (hsome d List.mem_cons_self)
      rw [List.filterMap_cons_some (by rw [hb]; rfl), List.map_cons, List.map_cons,
        ih fun e he => hsome e (List.mem_cons_of_mem _ he)]

/-- What was entered for some of the declarations stays, in its place. -/
theorem declared_grow (h : made <+: t.declarations) :
    (t.declaredTables made).declared <+: t.resolution.declared := by
  have hmade := is_declared_of_prefix h
  obtain ⟨more, hmore⟩ := h
  obtain ⟨later, hlater⟩ := t.bindings_grow (t.declaredTables made).bindings more
  have hbindings : t.bindings = (t.declaredTables made).bindings ++ later := by
    rw [hlater, hmade.bindings, bindings, ← hmore, List.foldl_append]
  have hsame : ∀ d ∈ made, (bindingAt? t.bindings d.scope (t.text d.identifier)).map
        (d.identifier, ·) =
      (bindingAt? (t.declaredTables made).bindings d.scope (t.text d.identifier)).map
        (d.identifier, ·) := by
    intro d hd
    obtain ⟨b, hb, hscope, hname⟩ := hmade.made_by.mem_of_made d hd
    have hat := hmade.made_by.distinct.binding_at.mpr ⟨hb, hscope, hname⟩
    rw [hat, hbindings, binding_at_append hat]
  show _ <+: t.declaredWith t.bindings
  rw [declaredWith, ← hmore, List.filterMap_append, List.filterMap_congr hsame, ← hmade.declared]
  exact List.prefix_append _ _

/-- The identifier of a binding is the first one that is declared with its name in its scope. The
induction is on the declarations, from the last one. -/
theorem first_declared (t : Tree) (made : List Declaration)
    (hb : b ∈ made.foldl t.addDeclaration []) :
    ∃ front d back, made = front ++ d :: back ∧ t.madeBinding d = b ∧
      ∀ e ∈ front, ¬ (e.scope = b.scope ∧ t.text e.identifier = b.name) := by
  induction made using List.reverseRecOn with
  | nil => exact absurd hb List.not_mem_nil
  | append_singleton made d ih =>
      have hnone : t.MadeBy [] [] := ⟨List.Pairwise.nil, by simp, by simp⟩
      have hmade := hnone.add_all made
      have hold : b ∈ made.foldl t.addDeclaration [] → ∃ front d' back,
          made ++ [d] = front ++ d' :: back ∧ t.madeBinding d' = b ∧
            ∀ e ∈ front, ¬ (e.scope = b.scope ∧ t.text e.identifier = b.name) := by
        intro hb
        obtain ⟨front, d', back, hsplit, hrest⟩ := ih hb
        exact ⟨front, d', back ++ [d], by simp [hsplit], hrest⟩
      rw [List.foldl_append, List.foldl_cons, List.foldl_nil] at hb
      rcases t.add_declaration_cases (made.foldl t.addDeclaration []) d with
        ⟨-, -, -, -, heq⟩ | ⟨hnew, heq⟩
      · exact hold (heq ▸ hb)
      · rw [heq] at hb
        rcases List.mem_append.mp hb with hb | hb
        · exact hold hb
        · obtain rfl := List.mem_singleton.mp hb
          refine ⟨made, d, [], rfl, rfl, fun e he hboth => ?_⟩
          obtain ⟨c, hc, hscope, hname⟩ := hmade.mem_of_made e he
          exact hnew c hc (hscope.trans hboth.1) (hname.trans hboth.2)

/-- The filled tables give the binding of a node. -/
theorem filled_binding_of (t : Tree) (n : Node) :
    t.filled.bindingOf? n = t.resolution.bindingOf? n := by
  rw [filled_eq, NameTables.bindingOf?, Table.get?_eq_lookup, Table.get?_eq_lookup]
  rfl

/-- A node of the tree uses a binding if it has it and declares nothing. -/
theorem use_iff (hn : n ∈ t.nodes) : t.use? n = some b ↔
    n ∉ Table.keys t.resolution.declared ∧ t.resolution.bindingOf? n = some b := by
  have huses : t.resolution.uses.lookup n = t.use? n := by
    rw [uses_eq, lookup_filter_map, if_pos hn]
  rw [← Table.get?_eq_none_iff, Table.get?_eq_lookup, Resolution.bindingOf?, huses]
  constructor
  · intro huse
    have hnone : t.resolution.declared.lookup n = none := by
      rw [use?] at huse
      split at huse
      case isTrue h => exact Option.isNone_iff_eq_none.mp h.2.1
      case isFalse => cases huse
    exact ⟨hnone, by rw [hnone, Option.none_or, huse]⟩
  · rintro ⟨hnone, hsome⟩
    rwa [hnone, Option.none_or] at hsome

/-- The nodes that are entered as uses. -/
theorem keys_uses (t : Tree) :
    Table.keys t.resolution.uses = t.nodes.filter fun n => (t.use? n).isSome := by
  rw [uses_eq, Table.keys]
  induction t.nodes with
  | nil => rfl
  | cons n rest ih => cases huse : t.use? n <;> simp [huse, ih]

/-- What some tables of a tree say of one another. -/
structure Agree (t : Tree) (tables : NameTables) : Prop where
  /-- Every identifier that is declared is entered, once. -/
  declared_keys : Table.keys tables.declared = t.declarations.map Declaration.identifier
  /-- No node is entered twice, be it as declaring or as a use. -/
  entered_once : (Table.keys tables.declared ++ Table.keys tables.resolved).Nodup
  /-- A declaring identifier belongs to a binding of its text in its scope. -/
  declaring : ∀ d ∈ t.declarations, ∃ b ∈ tables.bindings,
    tables.bindingOf? d.identifier = some b ∧ b.scope = d.scope ∧ b.name = t.text d.identifier
  /-- No two bindings share scope and name. -/
  distinct : Distinct tables.bindings
  /-- The bindings are the entries of the names of all scopes, once each. -/
  names : tables.names = tables.bindings.map Binding.entry
  /-- The identifier of a binding is the first one that is declared for it. -/
  first : ∀ b ∈ tables.bindings, ∃ front d back, t.declarations = front ++ d :: back ∧
    d.identifier = b.identifier ∧ tables.bindingOf? d.identifier = some b ∧
      ∀ e ∈ front, tables.bindingOf? e.identifier ≠ some b
  /-- The uses of a binding are the nodes that belong to it and declare nothing, in pre-order. -/
  references : ∀ b ∈ tables.bindings, tables.references.get? b = some (t.nodes.filter fun n =>
    n ∉ Table.keys tables.declared ∧ tables.bindingOf? n = some b)
  /-- A node that belongs to a binding has its name as its text. -/
  text : ∀ n b, tables.bindingOf? n = some b → b ∈ tables.bindings ∧ t.text n = b.name
  /-- A use is in the references of one binding only. -/
  one_binding : ∀ n ∈ Table.keys tables.resolved,
    ∃! b, n ∈ (tables.references.get? b).getD []

/-- The filled tables have as references of a binding its uses. -/
theorem filled_references (hb : b ∈ t.resolution.bindings) :
    t.filled.references.get? b = some (t.resolution.usesOf b) := by
  rw [filled_eq]
  exact Table.get?_map_self hb

/-- Only a binding has references. -/
theorem mem_filled_references (h : n ∈ (t.filled.references.get? b).getD []) :
    t.use? n = some b := by
  rw [filled_eq] at h
  cases hget : Table.get? (t.resolution.bindings.map fun b => (b, t.resolution.usesOf b)) b with
  | none => simp [hget] at h
  | some uses =>
      rw [hget, Option.getD_some] at h
      obtain ⟨c, -, heq⟩ := List.mem_map.mp (Table.mem_of_get? hget)
      obtain ⟨rfl, rfl⟩ := Prod.mk.inj heq
      rw [uses_of_eq] at h
      exact of_decide_eq_true (List.mem_filter.mp h).2

/-- What is entered as a use is a node that uses a binding. -/
theorem use_of_resolved (h : n ∈ Table.keys t.filled.resolved) :
    n ∈ t.nodes ∧ ∃ b, t.use? n = some b := by
  rw [filled_eq, keys_uses] at h
  obtain ⟨hn, hsome⟩ := List.mem_filter.mp h
  exact ⟨hn, Option.isSome_iff_exists.mp hsome⟩

/-- No node is entered twice. -/
theorem filled_once (t : Tree) :
    (Table.keys t.filled.declared ++ Table.keys t.filled.resolved).Nodup := by
  refine List.nodup_append.mpr ⟨?_, ?_, ?_⟩
  · rw [filled_eq, keys_declared]
    exact t.declared_once
  · rw [filled_eq, keys_uses]
    exact List.nodup_range.filter _
  · rintro n hdeclared _ hresolved rfl
    obtain ⟨hn, b, huse⟩ := use_of_resolved hresolved
    rw [filled_eq] at hdeclared
    exact ((use_iff hn).mp huse).1 hdeclared

/-- The identifier of a binding is the first one that belongs to it. -/
theorem filled_first (hb : b ∈ t.resolution.bindings) :
    ∃ front d back, t.declarations = front ++ d :: back ∧ d.identifier = b.identifier ∧
      t.filled.bindingOf? d.identifier = some b ∧
      ∀ e ∈ front, t.filled.bindingOf? e.identifier ≠ some b := by
  obtain ⟨front, d, back, hsplit, rfl, hfront⟩ := t.first_declared t.declarations hb
  refine ⟨front, d, back, hsplit, rfl, ?_, fun e he hsame => ?_⟩
  · exact (t.filled_binding_of _).trans (binding_of_identifier hb)
  · have hdeclared : e ∈ t.declarations := by
      rw [hsplit]
      exact List.mem_append_left _ he
    obtain ⟨c, -, hof, hscope, hname⟩ := binding_of_declaration hdeclared
    rw [filled_binding_of, hof] at hsame
    obtain rfl := Option.some.inj hsame
    exact hfront e he ⟨hscope.symm, hname.symm⟩

/-- A use is in the references of its binding only. -/
theorem filled_one_binding (h : n ∈ Table.keys t.filled.resolved) :
    ∃! b, n ∈ (t.filled.references.get? b).getD [] := by
  obtain ⟨hn, b, huse⟩ := use_of_resolved h
  have hb := Resolution.mem_bindings_of_binding_of ((use_iff hn).mp huse).2
  refine ⟨b, ?_, fun c hc => Option.some.inj ((mem_filled_references hc).symm.trans huse)⟩
  show n ∈ (t.filled.references.get? b).getD []
  rw [filled_references hb, uses_of_eq]
  exact List.mem_filter.mpr ⟨hn, decide_eq_true huse⟩

/-- The filled tables agree with one another. -/
theorem filled_agree (t : Tree) : t.Agree t.filled where
  declared_keys := by
    rw [filled_eq]
    exact t.keys_declared
  entered_once := t.filled_once
  declaring d hd := by
    obtain ⟨b, hb, hof, hscope, hname⟩ := binding_of_declaration hd
    rw [filled_binding_of, filled_eq]
    exact ⟨b, hb, hof, hscope, hname⟩
  distinct := by
    rw [filled_eq]
    exact t.bindings_made.distinct
  names := by rw [filled_eq]
  first b hb := by
    rw [filled_eq] at hb
    exact filled_first hb
  references b hb := by
    rw [filled_eq] at hb
    rw [filled_references hb, uses_of_eq]
    refine congrArg some (List.filter_congr fun n hn => ?_)
    rw [filled_binding_of, filled_eq]
    exact decide_eq_decide.mpr (use_iff hn)
  text n b hof := by
    rw [filled_binding_of] at hof
    rw [filled_eq]
    exact ⟨Resolution.mem_bindings_of_binding_of hof, (name_of_binding_of hof).2⟩
  one_binding _ hn := filled_one_binding hn

/-- The tables agree. They are those of the resolution, and say of one another what they should. No
entry is ever written over: as the tables are filled, the declaring nodes and the uses only come in
at the end. -/
theorem tables_agree (t : Tree) :
    t.Agree t.filled ∧
    (t.filled.bindings = t.resolution.bindings ∧
      (∀ n, t.filled.bindingOf? n = t.resolution.bindingOf? n) ∧
      ∀ b ∈ t.filled.bindings, t.filled.references.get? b = some (t.resolution.usesOf b)) ∧
    (∀ made, made <+: t.declarations → (t.declaredTables made).declared <+: t.filled.declared) ∧
    ∀ seen, seen <+: t.nodes → (t.resolvedTables seen).declared = t.filled.declared ∧
      (t.resolvedTables seen).resolved <+: t.filled.resolved := by
  have hbindings : t.filled.bindings = t.resolution.bindings := by rw [filled_eq]
  refine ⟨t.filled_agree, ⟨hbindings, t.filled_binding_of, fun b hb =>
    filled_references (hbindings ▸ hb)⟩, fun made hmade => ?_, fun seen hseen => ?_⟩
  · rw [filled_eq]
    exact declared_grow hmade
  · have h := is_resolved_of_prefix hseen
    rw [filled_eq, h.declared, h.resolved, uses_eq]
    exact ⟨rfl, hseen.filterMap _⟩

end Tree

end Excise
