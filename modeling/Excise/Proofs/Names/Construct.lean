import Excise.Proofs.Names.Placement
import Mathlib.Data.List.Nodup

/-!
# The construct that declares an identifier

An identifier can be declared by one construct only, which is found by going up from the identifier:
past the parts of patterns to what stands around the pattern (`Tree.frame?`), and from there through
a declarator or the parts of an import (`Tree.construct?`). A construct makes all its declarations
together, so no identifier is declared twice (`declaration_unique`), and none is placed in two
scopes (`Places.unique`).
-/

namespace Excise.Tree

variable {t : Tree} {c i n p s : Nat} {d d' : Declaration}

/-- What stands around the pattern that an identifier is part of. -/
def frame? (t : Tree) (i : Node) : Option Node :=
  (t.ancestors i).find? fun a => t.kind a ∉ partKinds

/-- The construct whose declaration an identifier can be, by where the identifier stands. -/
def construct? (t : Tree) (i : Node) : Option Node :=
  (t.frame? i).bind fun f =>
    if t.kind f ∈ ["variable_declarator", "import_clause", "import_require_clause"] then t.parent? f
    else if t.kind f = "namespace_import" then (t.parent? f).bind t.parent?
    else if t.kind f = "import_specifier" then ((t.parent? f).bind t.parent?).bind t.parent?
    else some f

/-- What is around a pattern is around all that it binds. -/
theorem Binds.frame_eq (h : t.Binds p i) : t.frame? i = t.frame? p := by
  induction h with
  | identifier _ => rfl
  | @part p q i _ hpart _ ih =>
      obtain ⟨hparent, hkind⟩ := bound_part hpart
      rw [ih, frame?, ancestors_of_parent hparent, List.find?_cons_of_neg (by simpa using hkind)]
      rfl

/-- A child of a node that is no part of a pattern has that node around it. -/
theorem frame_of_parent (h : t.parent? i = some p) (hkind : t.kind p ∉ partKinds) :
    t.frame? i = some p := by
  rw [frame?, ancestors_of_parent h, List.find?_cons_of_pos (by simpa using hkind)]

/-- What a pattern of a construct binds has the construct around it. -/
theorem Binds.frame_of_parent (h : t.Binds p i) (hp : t.parent? p = some c)
    (hkind : t.kind c ∉ partKinds) : t.frame? i = some c :=
  h.frame_eq.trans (Tree.frame_of_parent hp hkind)

/-- The kinds of construct around which no other construct is looked for. -/
def directKinds : List String :=
  ["formal_parameters", "catch_clause", "for_in_statement", "class"] ++ declaredClassKinds ++
    declaredFunctionKinds ++ functionExpressionKinds ++ ["arrow_function"]

/-- A construct directly around a pattern is the one that declares. -/
theorem construct_of_direct (h : t.frame? i = some c) (hkind : t.kind c ∈ directKinds) :
    t.construct? i = some c := by
  have hkinds : ∀ k ∈ directKinds,
      k ∉ ["variable_declarator", "import_clause", "import_require_clause"] ∧
        k ≠ "namespace_import" ∧ k ≠ "import_specifier" := by
    decide +kernel
  obtain ⟨hlist, hnamespace, hspecifier⟩ := hkinds _ hkind
  rw [construct?, h, Option.bind_some, if_neg hlist, if_neg hnamespace, if_neg hspecifier]

/-- A direct construct is no part of a pattern. -/
theorem not_part_of_direct (h : t.kind c ∈ directKinds) : t.kind c ∉ partKinds := by
  have hkinds : ∀ k ∈ directKinds, k ∉ partKinds := by decide +kernel
  exact hkinds _ h

/-- What the declarators of a declaration bind leads to the declaration. -/
theorem DeclaratorBinds.construct_eq (h : t.DeclaratorBinds n i) : t.construct? i = some n := by
  obtain ⟨d, hd, p, hp, hi⟩ := h
  have hkind := kind_of_named_child_of_kind hd
  have hframe := hi.frame_of_parent (parent_of_field hp) (by simp [hkind, partKinds])
  rw [construct?, hframe, Option.bind_some, if_pos (by simp [hkind]),
    parent_of_named_child_of_kind hd]

/-- What an import introduces leads to the import. -/
theorem construct_of_imported_name (h : i ∈ t.importedNames n) : t.construct? i = some n := by
  simp only [importedNames, List.mem_flatMap] at h
  obtain ⟨clause, hclause, h⟩ := h
  have hstatement := (mem_named_children.mp hclause).1
  rw [clauseNames] at h
  split at h
  case isTrue hrequire =>
    have hchild := List.mem_of_mem_head? (Option.mem_toList.mp h)
    have hframe := frame_of_parent (parent_of_named_child_of_kind hchild)
      (by simp [hrequire, partKinds])
    rw [construct?, hframe, Option.bind_some, if_pos (by simp [hrequire]), hstatement]
  case isFalse =>
    split at h
    case isFalse => exact absurd h List.not_mem_nil
    case isTrue himport =>
      obtain ⟨part, hpart, h⟩ := List.mem_flatMap.mp h
      have hclauseparent := (mem_named_children.mp hpart).1
      rw [clausePartNames] at h
      split at h
      case isTrue =>
        obtain rfl := List.mem_singleton.mp h
        have hframe := frame_of_parent hclauseparent (by simp [himport, partKinds])
        rw [construct?, hframe, Option.bind_some, if_pos (by simp [himport]), hstatement]
      case isFalse =>
        split at h
        case isTrue hnamespace =>
          have hframe := frame_of_parent (parent_of_named_child_of_kind h)
            (by simp [hnamespace, partKinds])
          simp [construct?, hframe, hnamespace, hclauseparent, hstatement]
        case isFalse =>
          split at h
          case isFalse => exact absurd h List.not_mem_nil
          case isTrue =>
            obtain ⟨specifier, hspecifier, h⟩ := List.mem_filterMap.mp h
            have hkind := kind_of_named_child_of_kind hspecifier
            have hparent : t.parent? i = some specifier := by
              rcases Option.or_eq_some_iff.mp (Option.filter_eq_some_iff.mp h).1 with
                halias | ⟨-, hname⟩
              · exact parent_of_field halias
              · exact parent_of_field hname
            have hframe := frame_of_parent hparent (by simp [hkind, partKinds])
            simp [construct?, hframe, hkind, parent_of_named_child_of_kind hspecifier,
              hclauseparent, hstatement]

/-- A placed identifier leads to the construct that declares it. -/
theorem Places.construct_eq (h : t.Places n i s) : t.construct? i = some n := by
  have hdirect : ∀ {p : Node}, t.Binds p i → t.parent? p = some n → t.kind n ∈ directKinds →
      t.construct? i = some n := fun hbinds hp hkind =>
    construct_of_direct (hbinds.frame_of_parent hp (not_part_of_direct hkind)) hkind
  have hname : ∀ {field : String}, t.childByField? n field = some i → t.kind n ∈ directKinds →
      t.construct? i = some n := fun hfield hkind =>
    construct_of_direct (frame_of_parent (parent_of_field hfield) (not_part_of_direct hkind)) hkind
  cases h with
  | hoisted _ _ hbinds _ => exact hbinds.construct_eq
  | lexical _ _ hbinds _ => exact hbinds.construct_eq
  | hoistedLoop _ hkind _ _ hleft hi _ =>
      exact hdirect hi (parent_of_field hleft) (by simp [hkind, directKinds])
  | loop _ hkind _ _ hleft hi =>
      exact hdirect hi (parent_of_field hleft) (by simp [hkind, directKinds])
  | parameter _ hkind hp hi _ =>
      exact hdirect hi (mem_named_children.mp hp).1 (by simp [hkind, directKinds])
  | caught _ hkind hp hi =>
      exact hdirect hi (parent_of_field hp) (by simp [hkind, directKinds])
  | functionName _ hkind hfield _ _ => exact hname hfield (by simp [hkind, directKinds])
  | functionExpression _ hkind hfield _ => exact hname hfield (by simp [hkind, directKinds])
  | className _ hkind hfield _ _ => exact hname hfield (by simp [hkind, directKinds])
  | classExpression _ hkind hfield _ => exact hname hfield (by simp [hkind, directKinds])
  | arrowParameter _ hkind hfield _ => exact hname hfield (by simp [hkind, directKinds])
  | imported _ _ hi => exact construct_of_imported_name hi

/-- No construct places an identifier whose pattern stands in a call or an assignment. -/
theorem not_places_of_frame {f : Node} (h : t.frame? i = some f)
    (hkind : t.kind f = "call_expression" ∨ t.kind f = "assignment_expression") :
    ¬ t.Places n i s := by
  intro hplaces
  have hconstruct : t.construct? i = some f := by
    rcases hkind with hkind | hkind <;> simp [construct?, h, hkind]
  obtain rfl := Option.some.inj (hplaces.construct_eq.symm.trans hconstruct)
  obtain ⟨d, hd, -⟩ := hplaces.declared
  rcases hkind with hkind | hkind <;>
    · rw [declarations_at_other hplaces.construct_mem (by simp [hkind, functionKinds])] at hd
      simp [hkind, declaredClassKinds] at hd

/-- No identifier is declared twice. -/
theorem declaration_unique (h : d ∈ t.declarations) (h' : d' ∈ t.declarations)
    (heq : d.identifier = d'.identifier) : d = d' := by
  obtain ⟨n, hn, hd⟩ := construct_of_declaration h
  obtain ⟨n', hn', hd'⟩ := construct_of_declaration h'
  have hconstruct := (places_of_declared hn hd).construct_eq
  rw [heq, (places_of_declared hn' hd').construct_eq] at hconstruct
  obtain rfl := Option.some.inj hconstruct
  obtain ⟨identifiers, scope, kind, -, htogether⟩ := declarations_at_together t n'
  rw [htogether] at hd hd'
  obtain ⟨-, -, hscope, hkind⟩ := mem_declare.mp hd
  obtain ⟨-, -, hscope', hkind'⟩ := mem_declare.mp hd'
  cases d
  cases d'
  simp_all

/-- No identifier is placed in two scopes. -/
theorem Places.unique {n' s' : Node} (h : t.Places n i s) (h' : t.Places n' i s') : s = s' := by
  obtain ⟨d, hd, hi, rfl⟩ := places_iff_declared.mp ⟨n, h⟩
  obtain ⟨d', hd', hi', rfl⟩ := places_iff_declared.mp ⟨n', h'⟩
  rw [declaration_unique hd hd' (hi.trans hi'.symm)]

/-- A construct declares no identifier twice. -/
theorem declared_at_once (t : Tree) (n : Node) :
    ((t.declarationsAt n).map Declaration.identifier).Nodup := by
  obtain ⟨identifiers, scope, kind, horder, htogether⟩ := declarations_at_together t n
  rw [htogether, declare, List.map_map]
  exact ((horder.filter _).imp Nat.ne_of_lt).map _ fun _ _ h => h

/-- No identifier comes twice among the declarations of a tree. -/
theorem declared_once (t : Tree) : (t.declarations.map Declaration.identifier).Nodup := by
  rw [declarations, List.map_flatMap]
  refine List.nodup_flatMap.mpr ⟨fun n _ => t.declared_at_once n, ?_⟩
  refine List.nodup_range.imp_of_mem fun {n m} hn hm hne => List.disjoint_left.mpr ?_
  intro i hi hi'
  -- An identifier leads to the construct that declares it.
  obtain ⟨d, hd, rfl⟩ := List.mem_map.mp hi
  obtain ⟨d', hd', heq⟩ := List.mem_map.mp hi'
  have hconstruct := (places_of_declared (inside_root_of_declared hn hd) hd).construct_eq
  rw [← heq, (places_of_declared (inside_root_of_declared hm hd') hd').construct_eq] at hconstruct
  exact hne (Option.some.inj hconstruct).symm

end Excise.Tree
