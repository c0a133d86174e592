import Excise.Proofs.Plan.Targets

/-!
# The statement around an expression

Removing an expression for its effect climbs to the statement that it runs in. Two things can go
wrong on the way. The climb can leave a function through its head, where no statement stands, and
take a statement outside with the whole function in it: `crosses_no_function_iff` says when a
deletion stays inside. And it can come to the root without anything to remove:
`climb_covers_use_iff` says when what the climb asks for covers the use, and that it does in
programs made of statements and of the declarations that are known as such.
-/

namespace Excise.Tree

variable {t : Tree} {target : String} {c d e f m n s start : Nat} {u : Usage}

/-! ## Functions around the expression -/

/-- The placeholder deletes nothing. -/
theorem placeholder_entry_ne_delete : t.placeholderEntry n ≠ .delete d := by
  rw [placeholderEntry]
  split <;> simp

/-- Where a climb asks for a deletion, it comes to a statement that goes with the `export` around
it. -/
theorem deletion_of_climb (h : t.enclosingEntry? e = some (.delete d)) :
    ∃ m s, t.Climbs e m ∧ t.parent? m = some s ∧ t.IsFreeExpressionStatement s ∧
      t.wholeStatement s = d := by
  cases enclosing_entry_cases t e with
  | value _ _ _ hentry =>
      exact absurd (Option.some.inj (hentry.symm.trans h)) placeholder_entry_ne_delete
  | @removed m s climbs parent free hentry =>
      exact ⟨m, s, climbs, parent, free,
        Entry.delete.inj (Option.some.inj (hentry.symm.trans h))⟩
  | replaced _ _ _ _ hentry =>
      exact absurd (Option.some.inj (hentry.symm.trans h)) placeholder_entry_ne_delete
  | root _ _ hentry => simp [hentry] at h

/-- Nothing stands between a statement and the `export` that goes with it. -/
theorem not_between_whole_statement (hf : f ∈ t.ancestors s)
    (hd : t.wholeStatement s ∈ t.ancestors f) : False := by
  have hlt := lt_of_mem_ancestors hd
  rcases t.whole_statement_cases s with ⟨heq, -⟩ | ⟨hparent, -⟩
  · rw [heq] at hlt
    exact Nat.lt_asymm hlt (lt_of_mem_ancestors hf)
  · exact Nat.not_le_of_lt hlt (le_of_within (parent_within hparent hf))

/-- What is inside the node that a statement goes with, around an expression that the statement is
around, and not the statement, is below it. -/
theorem inside_of_whole_statement (hf : f ∈ t.ancestors e) (hs : s ∈ t.ancestors e)
    (hne : f ≠ s) (hd : t.wholeStatement s ∈ t.ancestors f) : s ∈ t.ancestors f := by
  rcases within_total (within_of_mem_ancestors hf) (within_of_mem_ancestors hs) with hfs | hsf
  · exact (within_iff.mp hfs).resolve_left hne
  · exact (not_between_whole_statement ((within_iff.mp hsf).resolve_left (Ne.symm hne)) hd).elim

/-- A function is no expression statement. -/
theorem IsFreeExpressionStatement.ne_function (h : t.IsFreeExpressionStatement s)
    (hkind : t.kind f ∈ functionKinds) : f ≠ s := by
  rintro rfl
  rw [h.1] at hkind
  simp [functionKinds] at hkind

/-- A deletion takes no function around the expression with it exactly if each such function, or
something inside it, ends the climb: the function is a statement, it has a statement around the
expression in it, or the expression is in the body of an arrow function or the value of a field. -/
theorem crosses_no_function_iff (h : t.enclosingEntry? e = some (.delete d)) :
    (∀ f ∈ t.ancestors e, d ∈ t.ancestors f → t.kind f ∉ functionKinds) ↔
      ∀ f ∈ t.ancestors e, t.kind f ∈ functionKinds → ∃ p, t.EndsClimb e p ∧ t.Within p f := by
  obtain ⟨m, s, hclimbs, hparent, hfree, rfl⟩ := deletion_of_climb h
  have hends : t.EndsClimb e s := ⟨m, hclimbs.within, hparent, .inr hfree.is_statement⟩
  have hstatement := hends.mem_ancestors
  constructor
  · intro hnone f hf hkind
    refine ⟨s, hends, ?_⟩
    rcases within_total (within_of_mem_ancestors hstatement) (within_of_mem_ancestors hf) with
      hsf | hfs
    · exact hsf
    · -- A function below the statement is inside what goes, which is ruled out.
      have hbelow := (within_iff.mp hfs).resolve_left (hfree.ne_function hkind)
      refine absurd hkind (hnone f hf ?_)
      rcases within_iff.mp (within_whole_statement (t := t) (n := s)) with heq | habove
      · rwa [← heq]
      · exact ancestors_trans habove hbelow
  · intro hall f hf hd hkind
    obtain ⟨p, hp, hpf⟩ := hall f hf hkind
    have hbelow := inside_of_whole_statement hf hstatement (hfree.ne_function hkind) hd
    -- The climb came to the statement from `m`, so it passed everything up to the function.
    have hfm : t.Within f m := by
      rcases within_total (within_of_mem_ancestors hf) hclimbs.within with hfm | hmf
      · exact hfm
      · rcases within_iff.mp hmf with rfl | habove
        · exact within_refl
        · have := le_of_within (parent_within hparent habove)
          have := lt_of_mem_ancestors hbelow
          omega
    exact hclimbs.not_ended hp (within_trans hpf hfm)

/-- The program `g(()=>{f(h())});`. -/
def callbackBody : Tree :=
  (Tree.ofRows? (Bytes.ofText "g(()=>\x7bf(h())\x7d);")
    #[⟨0, true, "program", 0, 16, none⟩,
      ⟨1, true, "expression_statement", 0, 16, none⟩,
      ⟨2, true, "call_expression", 0, 15, none⟩,
      ⟨3, true, "identifier", 0, 1, some "function"⟩,
      ⟨3, true, "arguments", 1, 15, some "arguments"⟩,
      ⟨4, true, "arrow_function", 2, 14, none⟩,
      ⟨5, true, "formal_parameters", 2, 4, some "parameters"⟩,
      ⟨5, true, "statement_block", 6, 14, some "body"⟩,
      ⟨6, true, "expression_statement", 7, 13, none⟩,
      ⟨7, true, "call_expression", 7, 13, none⟩,
      ⟨8, true, "identifier", 7, 8, some "function"⟩,
      ⟨8, true, "arguments", 8, 13, some "arguments"⟩,
      ⟨9, true, "call_expression", 9, 12, none⟩,
      ⟨10, true, "identifier", 9, 10, some "function"⟩,
      ⟨10, true, "arguments", 10, 12, some "arguments"⟩]).get (by decide +kernel)

/-- Removing its inner call takes the statement inside the function, which ends the climb. -/
theorem callback_body_stays :
    callbackBody.enclosingEntry? 12 = some (.delete 8) ∧ 5 ∈ callbackBody.ancestors 12 ∧
      ∀ f ∈ callbackBody.ancestors 12, 8 ∈ callbackBody.ancestors f →
        callbackBody.kind f ∉ functionKinds := by
  have hentry : callbackBody.enclosingEntry? 12 = some (.delete 8) := by decide +kernel
  have hinside : ∀ f ∈ callbackBody.ancestors 12, callbackBody.kind f ∈ functionKinds →
      callbackBody.Within 8 f := by
    decide +kernel
  have hends : callbackBody.EndsClimb 12 8 :=
    ends_climb_of_statement (by decide +kernel) (by decide +kernel)
  exact ⟨hentry, by decide +kernel,
    (crosses_no_function_iff hentry).mpr fun f hf hkind => ⟨8, hends, hinside f hf hkind⟩⟩

/-- The program `f((x=require("debug")())=>x);`. -/
def loadedDefault : Tree :=
  (Tree.ofRows? (Bytes.ofText "f((x=require(\"debug\")())=>x);")
    #[⟨0, true, "program", 0, 29, none⟩,
      ⟨1, true, "expression_statement", 0, 29, none⟩,
      ⟨2, true, "call_expression", 0, 28, none⟩,
      ⟨3, true, "identifier", 0, 1, some "function"⟩,
      ⟨3, true, "arguments", 1, 28, some "arguments"⟩,
      ⟨4, true, "arrow_function", 2, 27, none⟩,
      ⟨5, true, "formal_parameters", 2, 24, some "parameters"⟩,
      ⟨6, true, "assignment_pattern", 3, 23, none⟩,
      ⟨7, true, "identifier", 3, 4, some "left"⟩,
      ⟨7, true, "call_expression", 5, 23, some "right"⟩,
      ⟨8, true, "call_expression", 5, 21, some "function"⟩,
      ⟨9, true, "identifier", 5, 12, some "function"⟩,
      ⟨9, true, "arguments", 12, 21, some "arguments"⟩,
      ⟨10, true, "string", 13, 20, none⟩,
      ⟨11, true, "string_fragment", 14, 19, none⟩,
      ⟨8, true, "arguments", 21, 23, some "arguments"⟩,
      ⟨5, true, "identifier", 26, 27, some "body"⟩]).get (by decide +kernel)

/-- The default value of the parameter takes the statement around the whole function with it. -/
theorem loaded_default_crosses :
    loadedDefault.enclosingEntry? 9 = some (.delete 1) ∧
      loadedDefault.kind 1 = "expression_statement" ∧
      (5 ∈ loadedDefault.ancestors 9 ∧ 1 ∈ loadedDefault.ancestors 5 ∧
        loadedDefault.kind 5 ∈ functionKinds) ∧
      (Analysis.run loadedDefault "debug").plan = ⟨[1], [], []⟩ := by
  decide +kernel

/-! ## Uses whose climb is ended by nothing -/

/-- The root is a program, and what it lists besides comments is called a statement or a
declaration. -/
structure ListsStatements (t : Tree) : Prop where
  root : t.kind 0 = "program"
  listed : ∀ c ∈ t.namedChildren 0, t.kind c ≠ "comment" →
    "_statement".toList <:+ (t.kind c).toList ∨ "_declaration".toList <:+ (t.kind c).toList

/-- The node is called a declaration and is none of those that are statements. -/
def IsOtherDeclaration (t : Tree) (c : Node) : Prop :=
  "_declaration".toList <:+ (t.kind c).toList ∧ t.kind c ∉ declaringStatementKinds

/-- The plan holds what the usage asks for, and that is about a node around the use. -/
def CoversUsage (t : Tree) (target : String) (n : Node) (u : Usage) : Prop :=
  ∃ entry, t.usageEntry? u = some entry ∧ (Analysis.run t target).plan.Records entry.node ∧
    t.Within n entry.node

/-- A usage starts from no statement. -/
theorem not_statement_of_used (h : t.kind n ∈ usedKinds) : ¬ t.IsStatement n := by
  have hkinds : ∀ k ∈ usedKinds,
      ¬ ("_statement".toList <:+ k.toList ∨ k ∈ declaringStatementKinds) := by decide +kernel
  exact hkinds _ h

/-- A statement that a use is within ends the climb for it. -/
theorem IsUsageAt.ends_climb (h : t.IsUsageAt target n u) (hstart : t.climbStart? u = some start)
    (hwithin : t.Within n s) (hstatement : t.IsStatement s) : t.EndsClimb start s := by
  refine ends_climb_of_statement ?_ hstatement
  refine (h.fits.climb_start hstart).statements s ((within_iff.mp hwithin).resolve_left ?_)
    hstatement
  rintro rfl
  exact not_statement_of_used h.kind_mem hstatement

/-- A usage whose statement is looked for is covered by what it asks for exactly if something ends
the climb and, where that is a value, the use is inside the parentheses of the value. Of what a
program lists, only a declaration that is no statement can be around a use whose climb nothing
ends. -/
theorem climb_covers_use_iff (hprogram : t.ListsStatements) (h : t.IsUsageAt target n u)
    (hstart : t.climbStart? u = some start) :
    (t.CoversUsage target n u ↔ (∃ p, t.EndsClimb start p) ∧
        ∀ v, t.StopsAtValue u v → t.Within n (t.withoutParentheses t.size v)) ∧
      ∀ c ∈ t.namedChildren 0, t.kind c ≠ "comment" → t.Within n c →
        (∃ p, t.EndsClimb start p) ∨ t.IsOtherDeclaration c := by
  have hasked : (∃ entry, t.usageEntry? u = some entry) ↔ ∃ p, t.EndsClimb start p := by
    rw [usage_entry_of_climb hstart]
    exact exists_enclosing_entry_iff
  refine ⟨⟨?_, ?_⟩, ?_⟩
  · rintro ⟨entry, hentry, -, hwithin⟩
    refine ⟨hasked.mp ⟨entry, hentry⟩, fun v hv => ?_⟩
    obtain rfl := Option.some.inj (hv.usage_entry.symm.trans hentry)
    rwa [placeholder_entry_node] at hwithin
  · rintro ⟨hends, hvalues⟩
    obtain ⟨entry, hentry⟩ := hasked.mpr hends
    refine ⟨entry, hentry, h.records hentry, ?_⟩
    rcases usage_entry_node h.fits hentry with hwithin | ⟨v, hv, rfl⟩
    · exact hwithin
    · rw [placeholder_entry_node]
      exact hvalues v hv
  · intro c hc hcomment hwithin
    by_cases hstatement : t.IsStatement c
    · exact .inl ⟨c, h.ends_climb hstart hwithin hstatement⟩
    · have hsuffix := (hprogram.listed c hc hcomment).resolve_left fun hs => hstatement (.inl hs)
      exact .inr ⟨hsuffix, fun hkind => hstatement (.inr hkind)⟩

/-- The program `import d from"debug";class C{m(x=d()){}}`. -/
def classDefault : Tree :=
  (Tree.ofRows? (Bytes.ofText "import d from\"debug\";class C\x7bm(x=d())\x7b\x7d\x7d")
    #[⟨0, true, "program", 0, 40, none⟩,
      ⟨1, true, "import_statement", 0, 21, none⟩,
      ⟨2, true, "import_clause", 7, 8, none⟩,
      ⟨3, true, "identifier", 7, 8, none⟩,
      ⟨2, true, "string", 13, 20, some "source"⟩,
      ⟨3, true, "string_fragment", 14, 19, none⟩,
      ⟨1, true, "class_declaration", 21, 40, none⟩,
      ⟨2, true, "identifier", 27, 28, some "name"⟩,
      ⟨2, true, "class_body", 28, 40, some "body"⟩,
      ⟨3, true, "method_definition", 29, 39, none⟩,
      ⟨4, true, "property_identifier", 29, 30, some "name"⟩,
      ⟨4, true, "formal_parameters", 30, 37, some "parameters"⟩,
      ⟨5, true, "assignment_pattern", 31, 36, none⟩,
      ⟨6, true, "identifier", 31, 32, some "left"⟩,
      ⟨6, true, "call_expression", 33, 36, some "right"⟩,
      ⟨7, true, "identifier", 33, 34, some "function"⟩,
      ⟨7, true, "arguments", 34, 36, some "arguments"⟩,
      ⟨4, true, "statement_block", 37, 39, some "body"⟩]).get (by decide +kernel)

/-- The call in its class is covered: the climb ends at the class. -/
theorem class_default_covered :
    classDefault.ListsStatements ∧ classDefault.IsTaintedUse "debug" 15 ∧
      ∃ u, classDefault.referenceUsage? classDefault.resolution 15 = some u ∧
        classDefault.climbStart? u = some 14 ∧ classDefault.CoversUsage "debug" 15 u := by
  have hprogram : classDefault.ListsStatements := ⟨by decide +kernel, by decide +kernel⟩
  have huse : ∃ b ∈ (Analysis.run classDefault "debug").tainted,
      15 ∈ classDefault.resolution.usesOf b := by
    decide +kernel
  have husage : classDefault.referenceUsage? classDefault.resolution 15 =
      some ⟨15, 14, .called .direct⟩ := by
    decide +kernel
  have hentry : classDefault.usageEntry? ⟨15, 14, .called .direct⟩ =
      some (.replace 14 "undefined") := by
    decide +kernel
  obtain ⟨hcovers, hlisted⟩ := climb_covers_use_iff hprogram (.used huse husage) rfl
  refine ⟨hprogram, huse, _, husage, rfl, hcovers.mpr ⟨?_, fun v hv => ?_⟩⟩
  · exact (hlisted 6 (by decide +kernel) (by decide +kernel) (by decide +kernel)).resolve_right
      fun hother => hother.2 (by decide +kernel)
  · have hnode := congrArg Entry.node (Option.some.inj (hv.usage_entry.symm.trans hentry))
    rw [placeholder_entry_node] at hnode
    rw [hnode]
    decide +kernel

/-- The program `import d from"debug";abstract class C{m(x=d()){}}`. -/
def abstractDefault : Tree :=
  (Tree.ofRows? (Bytes.ofText "import d from\"debug\";abstract class C\x7bm(x=d())\x7b\x7d\x7d")
    #[⟨0, true, "program", 0, 49, none⟩,
      ⟨1, true, "import_statement", 0, 21, none⟩,
      ⟨2, true, "import_clause", 7, 8, none⟩,
      ⟨3, true, "identifier", 7, 8, none⟩,
      ⟨2, true, "string", 13, 20, some "source"⟩,
      ⟨3, true, "string_fragment", 14, 19, none⟩,
      ⟨1, true, "abstract_class_declaration", 21, 49, none⟩,
      ⟨2, true, "type_identifier", 36, 37, some "name"⟩,
      ⟨2, true, "class_body", 37, 49, some "body"⟩,
      ⟨3, true, "method_definition", 38, 48, none⟩,
      ⟨4, true, "property_identifier", 38, 39, some "name"⟩,
      ⟨4, true, "formal_parameters", 39, 46, some "parameters"⟩,
      ⟨5, true, "required_parameter", 40, 45, none⟩,
      ⟨6, true, "identifier", 40, 41, some "pattern"⟩,
      ⟨6, true, "call_expression", 42, 45, some "value"⟩,
      ⟨7, true, "identifier", 42, 43, some "function"⟩,
      ⟨7, true, "arguments", 43, 45, some "arguments"⟩,
      ⟨4, true, "statement_block", 46, 48, some "body"⟩]).get (by decide +kernel)

/-- The same call in an abstract class is in no node of the plan, which deletes the import only. -/
theorem abstract_default_uncovered :
    abstractDefault.ListsStatements ∧
      abstractDefault.IsUsageAt "debug" 15 ⟨15, 14, .called .direct⟩ ∧
      abstractDefault.usageEntry? ⟨15, 14, .called .direct⟩ = none ∧
      (Analysis.run abstractDefault "debug").plan = ⟨[1], [], []⟩ ∧
      ¬ abstractDefault.Within 15 1 := by
  have huse : ∃ b ∈ (Analysis.run abstractDefault "debug").tainted,
      15 ∈ abstractDefault.resolution.usesOf b := by
    decide +kernel
  have husage : abstractDefault.referenceUsage? abstractDefault.resolution 15 =
      some ⟨15, 14, .called .direct⟩ := by
    decide +kernel
  exact ⟨⟨by decide +kernel, by decide +kernel⟩, .used huse husage, by decide +kernel,
    by decide +kernel, by decide +kernel⟩

end Excise.Tree
