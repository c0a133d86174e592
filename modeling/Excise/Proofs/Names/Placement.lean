import Excise.Names.Declaration
import Excise.Proofs.Names.Nearest
import Excise.Proofs.Syntax.Binding

/-!
# Where names are placed

`Tree.Places` says, construct by construct, which identifiers are declared and in which scope each
of them is placed: the innermost scope around the construct, the function scope that a `var` is
hoisted to, the construct itself, or the root. `places_iff_declared` says that these are exactly the
declarations of the tree.
-/

namespace Excise.Tree

variable {t : Tree} {i n s : Nat}

/-- A declaration binds an identifier in the name of one of its declarators. -/
def DeclaratorBinds (t : Tree) (n i : Node) : Prop :=
  ∃ d ∈ t.namedChildrenOfKind n "variable_declarator", ∃ p ∈ t.childByField? d "name", t.Binds p i

/-- The identifiers in the names of declarators are those that they bind. -/
theorem mem_declarator_identifiers : i ∈ t.declaratorIdentifiers n ↔ t.DeclaratorBinds n i := by
  simp only [declaratorIdentifiers, List.mem_flatMap, mem_bound_identifiers_in, DeclaratorBinds]

theorem DeclaratorBinds.is_identifier (h : t.DeclaratorBinds n i) : t.IsBindingIdentifier i := by
  obtain ⟨d, -, p, -, hbinds⟩ := h
  exact hbinds.is_identifier

/-- `Places t n i s`: the construct `n` declares the identifier `i` in the scope `s`. There is one
case for each construct that declares names; a construct is a node inside the root. -/
inductive Places (t : Tree) : Node → Node → Node → Prop where
  | hoisted {n i s : Node} :
      n ∈ t.descendants 0 → t.kind n = "variable_declaration" → t.DeclaratorBinds n i →
      t.Closest t.OpensFunctionScope n s → Places t n i s
  | hoistedLoop {n word p i s : Node} :
      n ∈ t.descendants 0 → t.kind n = "for_in_statement" →
      t.childByField? n "kind" = some word → t.text word = "var" →
      t.childByField? n "left" = some p → t.Binds p i →
      t.Closest t.OpensFunctionScope n s → Places t n i s
  | lexical {n i s : Node} :
      n ∈ t.descendants 0 → t.kind n = "lexical_declaration" → t.DeclaratorBinds n i →
      t.Closest t.OpensScope n s → Places t n i s
  | functionName {n i s : Node} :
      n ∈ t.descendants 0 → t.kind n ∈ declaredFunctionKinds →
      t.childByField? n "name" = some i → t.IsBindingIdentifier i →
      t.Closest t.OpensScope n s → Places t n i s
  | className {n i s : Node} :
      n ∈ t.descendants 0 → t.kind n ∈ declaredClassKinds →
      t.childByField? n "name" = some i → t.IsBindingIdentifier i →
      t.Closest t.OpensScope n s → Places t n i s
  | parameter {n p i s : Node} :
      n ∈ t.descendants 0 → t.kind n = "formal_parameters" →
      p ∈ t.namedChildren n → t.Binds p i →
      t.Closest t.OpensScope n s → Places t n i s
  | functionExpression {n i : Node} :
      n ∈ t.descendants 0 → t.kind n ∈ functionExpressionKinds →
      t.childByField? n "name" = some i → t.IsBindingIdentifier i → Places t n i n
  | classExpression {n i : Node} :
      n ∈ t.descendants 0 → t.kind n = "class" →
      t.childByField? n "name" = some i → t.IsBindingIdentifier i → Places t n i n
  | arrowParameter {n i : Node} :
      n ∈ t.descendants 0 → t.kind n = "arrow_function" →
      t.childByField? n "parameter" = some i → t.IsBindingIdentifier i → Places t n i n
  | caught {n p i : Node} :
      n ∈ t.descendants 0 → t.kind n = "catch_clause" →
      t.childByField? n "parameter" = some p → t.Binds p i → Places t n i n
  | loop {n word p i : Node} :
      n ∈ t.descendants 0 → t.kind n = "for_in_statement" →
      t.childByField? n "kind" = some word → t.text word ≠ "var" →
      t.childByField? n "left" = some p → t.Binds p i → Places t n i n
  | imported {n i : Node} :
      n ∈ t.descendants 0 → t.kind n = "import_statement" → i ∈ t.importedNames n → Places t n i 0

/-- Membership among the declarations of some nodes in one scope. -/
theorem mem_declare {identifiers : List Node} {kind : BindingKind} {d : Declaration} :
    d ∈ t.declare identifiers s kind ↔
      d.identifier ∈ identifiers ∧ t.IsBindingIdentifier d.identifier ∧
        d.scope = s ∧ d.kind = kind := by
  simp only [declare, List.mem_map, List.mem_filter, decide_eq_true_eq]
  constructor
  · rintro ⟨i, ⟨hi, hidentifier⟩, rfl⟩
    exact ⟨hi, hidentifier, rfl, rfl⟩
  · rintro ⟨hi, hidentifier, rfl, rfl⟩
    exact ⟨d.identifier, ⟨hi, hidentifier⟩, rfl⟩

/-- The identifiers in the names of declarators are in pre-order, none of them twice. -/
theorem declarator_identifiers_in_order (t : Tree) (n : Node) :
    (t.declaratorIdentifiers n).Pairwise (· < ·) := by
  refine flat_map_in_order (t.named_children_of_kind_in_order n _)
    (fun d hd => parent_of_named_child_of_kind hd) (fun d _ i hi => ?_)
    fun d _ => t.bound_identifiers_in_in_order _
  obtain ⟨p, hp, hbinds⟩ := mem_bound_identifiers_in.mp hi
  exact within_trans hbinds.within (within_parent (parent_of_field hp))

/-- The declarations are made in one scope and in one way, of identifiers in pre-order. -/
def MadeTogether (t : Tree) (made : List Declaration) : Prop :=
  ∃ identifiers scope kind, identifiers.Pairwise (· < ·) ∧ made = t.declare identifiers scope kind

/-- A choice between declarations made together is made together. -/
theorem MadeTogether.choice {c : Prop} [Decidable c] {made other : List Declaration}
    (h : t.MadeTogether made) (hother : t.MadeTogether other) :
    t.MadeTogether (if c then made else other) := by
  split
  · exact h
  · exact hother

/-- A construct makes all its declarations together. -/
theorem declarations_at_together (t : Tree) (n : Node) : t.MadeTogether (t.declarationsAt n) := by
  have hnone : t.MadeTogether [] := ⟨[], 0, .imported, .nil, rfl⟩
  have hmade : ∀ {identifiers : List Node} {scope : Node} {kind : BindingKind},
      identifiers.Pairwise (· < ·) → t.MadeTogether (t.declare identifiers scope kind) :=
    fun horder => ⟨_, _, _, horder, rfl⟩
  have hname : ∀ {field : String} {scope : Node} {kind : BindingKind},
      t.MadeTogether (t.declare (t.childByField? n field).toList scope kind) :=
    hmade (to_list_in_order _)
  have hdeclarators := t.declarator_identifiers_in_order n
  have hparameters : ((t.namedChildren n).flatMap t.boundIdentifiers).Pairwise (· < ·) :=
    flat_map_in_order (t.named_children_in_order n) (fun _ h => (mem_named_children.mp h).1)
      (fun _ _ _ hi => (mem_bound_identifiers.mp hi).within)
      fun p _ => t.bound_identifiers_in_order p
  -- One choice after the other, in the order in which the kinds are looked for.
  have hloop : t.MadeTogether (t.loopDeclarations n) := by
    rw [loopDeclarations]
    split
    · exact hnone
    · exact hmade (t.bound_identifiers_in_in_order _)
  have hfunction : t.MadeTogether (t.functionDeclarations n) :=
    .choice hname (.choice hname (.choice hname hnone))
  exact .choice hnone <| .choice hfunction <| .choice hname <| .choice hname <|
    .choice (hmade (t.bound_identifiers_in_in_order _)) <| .choice hloop <|
    .choice (hmade hparameters) <| .choice (hmade hdeclarators) <| .choice (hmade hdeclarators) <|
    .choice (hmade (t.imported_names_in_order n)) hnone

/-- A construct with declarations is inside the root. -/
theorem inside_root_of_declared {d : Declaration} (hn : n ∈ t.nodes) (h : d ∈ t.declarationsAt n) :
    n ∈ t.descendants 0 := by
  refine mem_descendants_root.mpr ⟨List.mem_range.mp hn, ?_⟩
  rintro rfl
  rw [declarationsAt, if_pos (.inl rfl)] at h
  exact absurd h List.not_mem_nil

/-- Every declaration is made by a construct inside the root. -/
theorem construct_of_declaration {d : Declaration} (h : d ∈ t.declarations) :
    ∃ n ∈ t.descendants 0, d ∈ t.declarationsAt n := by
  obtain ⟨n, hn, hd⟩ := List.mem_flatMap.mp h
  exact ⟨n, inside_root_of_declared hn hd, hd⟩

/-- A construct that declares identifiers together declares each of them. -/
theorem declared_of_together {identifiers : List Node} {kind : BindingKind}
    (h : t.declarationsAt n = t.declare identifiers s kind)
    (hi : i ∈ identifiers) (hidentifier : t.IsBindingIdentifier i) :
    ∃ d ∈ t.declarationsAt n, d.identifier = i ∧ d.scope = s := by
  rw [h]
  exact ⟨⟨i, s, kind⟩, mem_declare.mpr ⟨hi, hidentifier, rfl, rfl⟩, rfl, rfl⟩

/-- A construct of another kind than `program` begins no outermost scope. -/
theorem not_outermost_of_construct (hn : n ∈ t.descendants 0) (hkind : t.kind n ≠ "program") :
    ¬ t.OpensOutermostScope n := by
  rintro (hroot | hprogram)
  · exact (mem_descendants_root.mp hn).2 hroot
  · exact hkind hprogram

/-- The kinds of function that declare a name are kinds of function, and none is `program`. -/
theorem function_kind_of_named
    (h : t.kind n ∈ declaredFunctionKinds ++ functionExpressionKinds ++ ["arrow_function"]) :
    t.kind n ∈ functionKinds ∧ t.kind n ≠ "program" := by
  have hkinds : ∀ k ∈ declaredFunctionKinds ++ functionExpressionKinds ++ ["arrow_function"],
      k ∈ functionKinds ∧ k ≠ "program" := by
    decide +kernel
  exact hkinds _ h

/-- The declarations of a construct that is a function with a name. -/
theorem declarations_at_function (hn : n ∈ t.descendants 0)
    (h : t.kind n ∈ declaredFunctionKinds ++ functionExpressionKinds ++ ["arrow_function"]) :
    t.declarationsAt n = t.functionDeclarations n := by
  obtain ⟨hfunction, hprogram⟩ := function_kind_of_named h
  rw [declarationsAt, if_neg (not_outermost_of_construct hn hprogram), if_pos hfunction]

/-- The declarations of a construct that is no function. -/
theorem declarations_at_other (hn : n ∈ t.descendants 0) (h : t.kind n ∉ functionKinds) :
    t.declarationsAt n =
      if t.kind n ∈ declaredClassKinds then
        t.declare (t.childByField? n "name").toList (t.scopeAround n) .className
      else if t.kind n = "class" then t.declare (t.childByField? n "name").toList n .className
      else if t.kind n = "catch_clause" then
        t.declare (t.boundIdentifiersIn (t.childByField? n "parameter")) n .caught
      else if t.kind n = "for_in_statement" then t.loopDeclarations n
      else if t.kind n = "formal_parameters" then
        t.declare ((t.namedChildren n).flatMap t.boundIdentifiers) (t.scopeAround n) .parameter
      else if t.kind n = "variable_declaration" then
        t.declare (t.declaratorIdentifiers n) (t.hoistScope (t.scopeAround n)) (.keyword "var")
      else if t.kind n = "lexical_declaration" then
        t.declare (t.declaratorIdentifiers n) (t.scopeAround n) (.keyword (t.lexicalWord n))
      else if t.kind n = "import_statement" then t.declare (t.importedNames n) 0 .imported
      else [] := by
  have hprogram : t.kind n ≠ "program" := fun hkind => h (by simp [hkind, functionKinds])
  rw [declarationsAt, if_neg (not_outermost_of_construct hn hprogram), if_neg h]

/-- A loop over a collection opens no function scope. -/
theorem not_function_scope_of_loop (hn : n ∈ t.descendants 0)
    (hkind : t.kind n = "for_in_statement") : ¬ t.OpensFunctionScope n := by
  rintro (hroot | hfunction)
  · exact (mem_descendants_root.mp hn).2 hroot
  · simp [hkind, functionKinds] at hfunction

/-- A construct declares what it places. -/
theorem Places.declared (h : t.Places n i s) :
    ∃ d ∈ t.declarationsAt n, d.identifier = i ∧ d.scope = s := by
  cases h with
  | hoisted hn hkind hbinds hs =>
      rw [hs.unique (hoist_scope_around_closest hn)]
      have hother := declarations_at_other hn (by simp [hkind, functionKinds])
      simp only [hkind, declaredClassKinds] at hother
      exact declared_of_together hother (mem_declarator_identifiers.mpr hbinds)
        hbinds.is_identifier
  | hoistedLoop hn hkind hword hvar hleft hi hs =>
      have hblock := not_function_scope_of_loop hn hkind
      rw [hs.unique (hoist_scope_closest hn hblock)]
      have hother := declarations_at_other hn (by simp [hkind, functionKinds])
      simp only [hkind, declaredClassKinds, loopDeclarations, hword, hvar] at hother
      exact declared_of_together hother
        (mem_bound_identifiers_in.mpr ⟨_, hleft, hi⟩) hi.is_identifier
  | lexical hn hkind hbinds hs =>
      rw [hs.unique (scope_around_closest hn)]
      have hother := declarations_at_other hn (by simp [hkind, functionKinds])
      simp only [hkind, declaredClassKinds] at hother
      exact declared_of_together hother (mem_declarator_identifiers.mpr hbinds)
        hbinds.is_identifier
  | functionName hn hkind hname hi hs =>
      rw [hs.unique (scope_around_closest hn)]
      have hfunction := declarations_at_function hn (by simp [hkind])
      rw [functionDeclarations, if_pos hkind] at hfunction
      exact declared_of_together hfunction (by simp [hname]) hi
  | className hn hkind hname hi hs =>
      rw [hs.unique (scope_around_closest hn)]
      -- Functions are looked for first, and no class is one.
      have hkinds : ∀ k ∈ declaredClassKinds, k ∉ functionKinds := by decide +kernel
      have hother := declarations_at_other hn (hkinds _ hkind)
      rw [if_pos hkind] at hother
      exact declared_of_together hother (by simp [hname]) hi
  | parameter hn hkind hp hi hs =>
      rw [hs.unique (scope_around_closest hn)]
      have hother := declarations_at_other hn (by simp [hkind, functionKinds])
      simp only [hkind, declaredClassKinds] at hother
      exact declared_of_together hother
        (List.mem_flatMap.mpr ⟨_, hp, mem_bound_identifiers.mpr hi⟩) hi.is_identifier
  | functionExpression hn hkind hname hi =>
      have hdeclared : ∀ k ∈ functionExpressionKinds, k ∉ declaredFunctionKinds := by
        decide +kernel
      have hfunction := declarations_at_function hn (by simp [hkind])
      rw [functionDeclarations, if_neg (hdeclared _ hkind), if_pos hkind] at hfunction
      exact declared_of_together hfunction (by simp [hname]) hi
  | classExpression hn hkind hname hi =>
      have hother := declarations_at_other hn (by simp [hkind, functionKinds])
      simp only [hkind, declaredClassKinds] at hother
      exact declared_of_together hother (by simp [hname]) hi
  | arrowParameter hn hkind hname hi =>
      have hfunction := declarations_at_function hn (by simp [hkind])
      simp only [functionDeclarations, hkind, declaredFunctionKinds,
        functionExpressionKinds] at hfunction
      exact declared_of_together hfunction (by simp [hname]) hi
  | caught hn hkind hparameter hi =>
      have hother := declarations_at_other hn (by simp [hkind, functionKinds])
      simp only [hkind, declaredClassKinds] at hother
      exact declared_of_together hother
        (mem_bound_identifiers_in.mpr ⟨_, hparameter, hi⟩) hi.is_identifier
  | loop hn hkind hword hvar hleft hi =>
      have hother := declarations_at_other hn (by simp [hkind, functionKinds])
      simp only [hkind, declaredClassKinds, loopDeclarations, hword, hvar] at hother
      exact declared_of_together hother
        (mem_bound_identifiers_in.mpr ⟨_, hleft, hi⟩) hi.is_identifier
  | imported hn hkind hi =>
      have hother := declarations_at_other hn (by simp [hkind, functionKinds])
      simp only [hkind, declaredClassKinds] at hother
      exact declared_of_together hother hi (by simp [IsBindingIdentifier, bindingKinds,
        imported_name_kind hi])

/-- A declaration of a function places its identifier. -/
theorem places_of_function {d : Declaration} (hn : n ∈ t.descendants 0)
    (h : d ∈ t.functionDeclarations n) : t.Places n d.identifier d.scope := by
  rw [functionDeclarations] at h
  split at h
  case isTrue hkind =>
    obtain ⟨hname, hi, hscope, -⟩ := mem_declare.mp h
    rw [hscope]
    exact .functionName hn hkind (Option.mem_toList.mp hname) hi (scope_around_closest hn)
  case isFalse =>
    split at h
    case isTrue hkind =>
      obtain ⟨hname, hi, hscope, -⟩ := mem_declare.mp h
      rw [hscope]
      exact .functionExpression hn hkind (Option.mem_toList.mp hname) hi
    case isFalse =>
      split at h
      case isTrue hkind =>
        obtain ⟨hparameter, hi, hscope, -⟩ := mem_declare.mp h
        rw [hscope]
        exact .arrowParameter hn hkind (Option.mem_toList.mp hparameter) hi
      case isFalse => exact absurd h List.not_mem_nil

/-- A declaration of a loop over a collection places its identifier. -/
theorem places_of_loop {d : Declaration} (hn : n ∈ t.descendants 0)
    (hkind : t.kind n = "for_in_statement") (h : d ∈ t.loopDeclarations n) :
    t.Places n d.identifier d.scope := by
  rw [loopDeclarations] at h
  split at h
  case h_1 => exact absurd h List.not_mem_nil
  case h_2 word hword =>
    obtain ⟨hleft, -, hscope, -⟩ := mem_declare.mp h
    obtain ⟨p, hp, hi⟩ := mem_bound_identifiers_in.mp hleft
    rw [hscope]
    split
    case isTrue hvar =>
      have hblock := not_function_scope_of_loop hn hkind
      exact .hoistedLoop hn hkind hword hvar hp hi (hoist_scope_closest hn hblock)
    case isFalse hvar => exact .loop hn hkind hword hvar hp hi

/-- A declaration of a construct that is no function places its identifier. -/
theorem places_of_other {d : Declaration} (hn : n ∈ t.descendants 0)
    (hother : t.kind n ∉ functionKinds) (h : d ∈ t.declarationsAt n) :
    t.Places n d.identifier d.scope := by
  rw [declarations_at_other hn hother] at h
  split_ifs at h with hclass hexpression hcatch hloop hparameters hvar hlexical himport
  · obtain ⟨hname, hi, hscope, -⟩ := mem_declare.mp h
    rw [hscope]
    exact .className hn hclass (Option.mem_toList.mp hname) hi (scope_around_closest hn)
  · obtain ⟨hname, hi, hscope, -⟩ := mem_declare.mp h
    rw [hscope]
    exact .classExpression hn hexpression (Option.mem_toList.mp hname) hi
  · obtain ⟨hname, -, hscope, -⟩ := mem_declare.mp h
    obtain ⟨p, hp, hi⟩ := mem_bound_identifiers_in.mp hname
    rw [hscope]
    exact .caught hn hcatch hp hi
  · exact places_of_loop hn hloop h
  · obtain ⟨hname, -, hscope, -⟩ := mem_declare.mp h
    obtain ⟨p, hp, hi⟩ := List.mem_flatMap.mp hname
    rw [hscope]
    exact .parameter hn hparameters hp (mem_bound_identifiers.mp hi) (scope_around_closest hn)
  · obtain ⟨hname, -, hscope, -⟩ := mem_declare.mp h
    rw [hscope]
    exact .hoisted hn hvar (mem_declarator_identifiers.mp hname) (hoist_scope_around_closest hn)
  · obtain ⟨hname, -, hscope, -⟩ := mem_declare.mp h
    rw [hscope]
    exact .lexical hn hlexical (mem_declarator_identifiers.mp hname) (scope_around_closest hn)
  · obtain ⟨hname, -, hscope, -⟩ := mem_declare.mp h
    rw [hscope]
    exact .imported hn himport hname
  · exact absurd h List.not_mem_nil

/-- A construct places what it declares. -/
theorem places_of_declared {d : Declaration} (hn : n ∈ t.descendants 0)
    (h : d ∈ t.declarationsAt n) : t.Places n d.identifier d.scope := by
  by_cases hfunction : t.kind n ∈ functionKinds
  · rw [declarationsAt] at h
    split at h
    case isTrue => exact absurd h List.not_mem_nil
    case isFalse => exact places_of_function hn (by simpa [hfunction] using h)
  · exact places_of_other hn hfunction h

/-- A construct that places an identifier is inside the root. -/
theorem Places.construct_mem (h : t.Places n i s) : n ∈ t.descendants 0 := by
  cases h <;> assumption

/-- What a construct places is an identifier. -/
theorem Places.is_identifier (h : t.Places n i s) : t.IsBindingIdentifier i := by
  obtain ⟨d, hd, rfl, -⟩ := h.declared
  obtain ⟨identifiers, scope, kind, -, htogether⟩ := t.declarations_at_together n
  rw [htogether] at hd
  exact (mem_declare.mp hd).2.1

/-- The declarations of a tree are exactly the identifiers that constructs place. -/
theorem places_iff_declared :
    (∃ n, t.Places n i s) ↔ ∃ d ∈ t.declarations, d.identifier = i ∧ d.scope = s := by
  constructor
  · rintro ⟨n, h⟩
    obtain ⟨d, hd, rfl, rfl⟩ := h.declared
    have hrow : n ∈ t.nodes := List.mem_range.mpr (mem_descendants_root.mp h.construct_mem).1
    exact ⟨d, List.mem_flatMap.mpr ⟨n, hrow, hd⟩, rfl, rfl⟩
  · rintro ⟨d, hd, rfl, rfl⟩
    obtain ⟨n, hn, hat⟩ := construct_of_declaration hd
    exact ⟨n, places_of_declared hn hat⟩

end Excise.Tree
