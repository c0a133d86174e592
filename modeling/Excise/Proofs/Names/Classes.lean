import Excise.Flow.Analysis
import Excise.Proofs.Names.Scoping

/-!
# Names of classes

A declaration names its class in the innermost scope around it, and a class expression in a scope of
its own (`Tree.NamesClass`). The name is placed there if it is an identifier that names a variable;
a name of another kind of node, such as that of a type, is not (`NamesClass.places_iff`). Where no
scope in between has the name, uses of it belong to the scope of the class exactly if an identifier
of the name is placed there (`class_name_resolves_iff`); if none is, they belong to a scope further
out, or to none.
-/

namespace Excise.Tree

variable {t : Tree} {c i n s : Nat} {b : Binding} {name : String}

/-- `NamesClass t c i s`: the construct `c` gives its class the name `i`, which belongs to the scope
`s`. A construct is a node inside the root. -/
inductive NamesClass (t : Tree) : Node → Node → Node → Prop where
  | declaration {c i s : Node} (inside : c ∈ t.descendants 0)
      (kind : t.kind c ∈ declaredClassKinds) (name : t.childByField? c "name" = some i)
      (scope : t.Closest t.OpensScope c s) : NamesClass t c i s
  | expression {c i : Node} (inside : c ∈ t.descendants 0) (kind : t.kind c = "class")
      (name : t.childByField? c "name" = some i) : NamesClass t c i c

/-- The name of a class belongs to a scope. -/
theorem NamesClass.opens (h : t.NamesClass c i s) : t.OpensScope s := by
  cases h with
  | declaration _ _ _ scope => exact scope.holds
  | expression _ kind name => exact .inr (.inr ⟨kind, by simp [name]⟩)

/-- The name of a class is placed in its scope exactly if it is an identifier that names a
variable. -/
theorem NamesClass.places_iff (h : t.NamesClass c i s) :
    t.Places c i s ↔ t.IsBindingIdentifier i := by
  refine ⟨Places.is_identifier, fun hidentifier => ?_⟩
  cases h with
  | declaration inside kind name scope => exact .className inside kind name hidentifier scope
  | expression inside kind name => exact .classExpression inside kind name hidentifier

/-- The scope of a class has its name exactly if the name is an identifier that names a variable, or
another identifier of the name is placed there. -/
theorem NamesClass.has_name_iff (h : t.NamesClass c i s) :
    t.HasName s (t.text i) ↔
      t.IsBindingIdentifier i ∨ ∃ c' i', i' ≠ i ∧ t.Places c' i' s ∧ t.text i' = t.text i := by
  constructor
  · rintro ⟨c', i', hplaces, htext⟩
    by_cases heq : i' = i
    · subst heq
      exact .inl hplaces.is_identifier
    · exact .inr ⟨c', i', heq, hplaces, htext⟩
  · rintro (hidentifier | ⟨c', i', -, hplaces, htext⟩)
    · exact ⟨c, i, h.places_iff.mpr hidentifier, rfl⟩
    · exact ⟨c', i', hplaces, htext⟩

/-- No scope between a node and a scope around it has the name. -/
def NothingBetween (t : Tree) (n s : Node) (name : String) : Prop :=
  ∀ s' ∈ t.ancestors n, s ∈ t.ancestors s' → ¬ t.HasName s' name

/-- With nothing in between, a scope around a node that has the name is a scope around `s`, or `s`
itself. -/
theorem NothingBetween.within {s' : Node} (h : t.NothingBetween n s name)
    (hs : s ∈ t.ancestors n) (hs' : s' ∈ t.ancestors n) (hhas : t.HasName s' name) :
    t.Within s s' := by
  rcases within_total (within_of_mem_ancestors hs) (within_of_mem_ancestors hs') with hle | hge
  · exact hle
  · rcases within_iff.mp hge with rfl | hbetween
    · exact within_refl
    · exact absurd hhas (h s' hs' hbetween)

/-- With nothing in between, the first scope with the name is `s` exactly if `s` is seen and has
it. -/
theorem NothingBetween.first_iff (h : t.NothingBetween n s name) (hs : s ∈ t.ancestors n) :
    t.FirstWithName n name s ↔ t.Sees n s ∧ t.HasName s name :=
  ⟨fun hfirst => ⟨hfirst.sees, hfirst.has⟩, fun ⟨hsees, hhas⟩ =>
    ⟨hsees, hhas, fun _ hsees' hhas' => h.within hs hsees'.around hhas'⟩⟩

/-- A use in the table of uses is resolved to the binding that its name means there. -/
theorem lookup_of_mem_uses (h : n ∈ t.resolution.usesOf b) :
    t.lookup? t.bindings n (t.text n) = some b := by
  have hmem : (n, b) ∈ t.usesWith t.bindings t.resolution.declared := Resolution.mem_uses_of.mp h
  rw [usesWith, List.mem_filterMap] at hmem
  obtain ⟨m, -, hm⟩ := hmem
  split at hm
  case isTrue =>
    simp only [Option.map_eq_some_iff, Prod.mk.injEq] at hm
    obtain ⟨a, hlookup, rfl, rfl⟩ := hm
    exact hlookup
  case isFalse => simp at hm

/-- The node uses the name of a class inside the scope that the name belongs to, with no scope in
between that has the name. -/
structure UsesClassName (t : Tree) (c i s n : Node) : Prop where
  names : t.NamesClass c i s
  inside : s ∈ t.ancestors n
  between : t.NothingBetween n s (t.text i)
  text_eq : t.text n = t.text i
  kind : t.kind n ∈ referenceKinds
  position : t.InUsePosition n
  free : ∀ c s, ¬ t.Places c n s

/-- Such a use means what the name of the class means there. -/
theorem UsesClassName.binding_eq (h : t.UsesClassName c i s n) :
    t.resolution.bindingOf? n = t.lookup? t.bindings n (t.text i) := by
  have hn : n ∈ t.nodes := List.mem_range.mpr (lt_size_of_mem_ancestors h.inside)
  rw [← h.text_eq]
  exact binding_of_use hn h.kind h.free h.position

/-- A use of the name of a class, inside its scope, belongs to this scope exactly if the scope is
seen from there and an identifier of the name is placed in it, which the name of the class itself
may be or not. Any variable that it means otherwise belongs to a scope around that of the class, and
it is a use of no other variable than the one that it means. -/
theorem class_name_resolves_iff (t : Tree) (c i s n : Node) (h : t.UsesClassName c i s n) :
    ((∃ b, t.resolution.bindingOf? n = some b ∧ b.scope = s) ↔
        t.Sees n s ∧ (t.IsBindingIdentifier i ∨
          ∃ c' i', i' ≠ i ∧ t.Places c' i' s ∧ t.text i' = t.text i)) ∧
      (∀ b, t.resolution.bindingOf? n = some b →
        b.name = t.text i ∧ (b.scope = s ∨ b.scope ∈ t.ancestors s)) ∧
      ∀ b, n ∈ t.resolution.usesOf b → t.resolution.bindingOf? n = some b := by
  rw [h.binding_eq, ← h.names.has_name_iff, ← h.between.first_iff h.inside]
  refine ⟨⟨?_, fun hfirst => ?_⟩, fun b hb => ?_, fun b hb => ?_⟩
  · rintro ⟨b, hb, rfl⟩
    exact (first_of_lookup hb).2.2
  · obtain ⟨b, hb⟩ := Option.isSome_iff_exists.mp (binding_at_is_some_iff.mpr hfirst.has)
    obtain ⟨rfl, hname⟩ := binding_at_fits hb
    exact ⟨b, lookup_eq_some_iff.mpr ⟨binding_at_mem hb, hname, hfirst⟩, rfl⟩
  · obtain ⟨-, hname, hfirst⟩ := first_of_lookup hb
    refine ⟨hname, ?_⟩
    rcases within_iff.mp (h.between.within h.inside hfirst.sees.around hfirst.has) with
      heq | hmem
    · exact .inl heq.symm
    · exact .inr hmem
  · exact h.text_eq ▸ lookup_of_mem_uses hb

/-- The program `import C from"debug";{class C{}new C();}`, with the kind of node that the name of
the class is. -/
def shadowingClass (nameKind : String) : Tree :=
  (Tree.ofRows? (Bytes.ofText "import C from\"debug\";\x7bclass C\x7b\x7dnew C();\x7d")
    #[⟨0, true, "program", 0, 40, none⟩,
      ⟨1, true, "import_statement", 0, 21, none⟩,
      ⟨2, true, "import_clause", 7, 8, none⟩,
      ⟨3, true, "identifier", 7, 8, none⟩,
      ⟨2, true, "string", 13, 20, some "source"⟩,
      ⟨3, true, "string_fragment", 14, 19, none⟩,
      ⟨1, true, "statement_block", 21, 40, none⟩,
      ⟨2, true, "class_declaration", 22, 31, none⟩,
      ⟨3, true, nameKind, 28, 29, some "name"⟩,
      ⟨3, true, "class_body", 29, 31, some "body"⟩,
      ⟨2, true, "expression_statement", 31, 39, none⟩,
      ⟨3, true, "new_expression", 31, 38, none⟩,
      ⟨4, true, "identifier", 35, 36, some "constructor"⟩,
      ⟨4, true, "arguments", 36, 38, some "arguments"⟩]).get rfl

/-- Its last `C` uses the name of the class inside the block, whether that is the name of a variable
or of a type. -/
theorem uses_shadowing_class :
    ∀ kind ∈ ["identifier", "type_identifier"], (shadowingClass kind).UsesClassName 7 8 6 12 := by
  intro kind hkind
  have hscope : (shadowingClass kind).scopeAround 7 = 6 := by
    revert kind
    decide +kernel
  have hdeclared : ∀ d ∈ (shadowingClass kind).declarations,
      d.identifier ≠ 12 ∧ (d.scope = 6 ∨ d.scope = 0) := by
    revert kind
    decide +kernel
  have hinside : 7 ∈ (shadowingClass kind).descendants 0 := by
    revert kind
    decide +kernel
  have hblock : 6 ∉ (shadowingClass kind).ancestors 6 ∧ 6 ∉ (shadowingClass kind).ancestors 0 := by
    revert kind
    decide +kernel
  refine ⟨.declaration hinside ?_ ?_ (hscope ▸ scope_around_closest hinside), ?_, ?_, ?_, ?_, ?_,
    ?_⟩
  case refine_4 =>
    rintro s' - habove ⟨c, i, hplaces, -⟩
    obtain ⟨d, hd, -, rfl⟩ := places_iff_declared.mp ⟨c, hplaces⟩
    rcases (hdeclared d hd).2 with heq | heq
    · exact hblock.1 (heq ▸ habove)
    · exact hblock.2 (heq ▸ habove)
  case refine_8 =>
    intro c s hplaces
    obtain ⟨d, hd, hi, -⟩ := places_iff_declared.mp ⟨c, hplaces⟩
    exact (hdeclared d hd).1 hi
  all_goals
    clear hscope hdeclared hinside hblock
    revert kind
    decide +kernel

/-- Where its name is that of a variable, the class is what the last `C` means, not the import. -/
theorem shadowing_class_resolves :
    (shadowingClass "identifier").UsesClassName 7 8 6 12 ∧
      ∃ b, (shadowingClass "identifier").resolution.bindingOf? 12 = some b ∧ b.scope = 6 := by
  have huse := uses_shadowing_class "identifier" (by decide)
  have hseen : (shadowingClass "identifier").Sees 12 6 :=
    mem_scope_chain.mp (by decide +kernel)
  refine ⟨huse, ?_⟩
  exact (class_name_resolves_iff _ 7 8 6 12 huse).1.mpr ⟨hseen, .inl (by decide +kernel)⟩

/-- Where its name is that of a type, the last `C` means the import, although the class is closer
and no program stands in between; so the statement of that use is deleted with the import. -/
theorem type_named_class_is_passed :
    (shadowingClass "type_identifier").UsesClassName 7 8 6 12 ∧
      (shadowingClass "type_identifier").Sees 12 6 ∧
      (shadowingClass "type_identifier").resolution.bindingOf? 12 =
        some ⟨"C", .imported, 3, 0⟩ ∧
      ⟨"C", .imported, 3, 0⟩ ∈
        (Analysis.run (shadowingClass "type_identifier") "debug").tainted ∧
      (Analysis.run (shadowingClass "type_identifier") "debug").plan = ⟨[1, 10], [], []⟩ := by
  refine ⟨uses_shadowing_class "type_identifier" (by decide), mem_scope_chain.mp ?_, ?_, ?_, ?_⟩ <;>
    decide +kernel

end Excise.Tree
