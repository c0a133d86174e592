import Excise.Proofs.Plan.Coverage
import Excise.Proofs.Syntax.Form
import Excise.Proofs.Usage.Written

/-!
# Chained assignments

In `a = b = value` the inner assignment is the value of the outer one. A value of the target module
at the end of such a chain has one usage, which looks at the innermost assignment alone: the names
that this one writes are tainted, and the climb for the usage passes all the outer links, so that
they lose their value as well. `chained_names_tainted` says so, and that a name of an outer link is
tainted exactly if it is one of the innermost link too, or gets the module in another way.
-/

namespace Excise.Tree

variable {t : Tree} {target : String} {e m n p v w : Nat} {u : Usage} {b : Binding}
  {links : List Node}

/-! ## Where taint comes from -/

/-- The variable gets the target module from an import or from a usage elsewhere than at `n`. -/
def IsGivenElsewhere (t : Tree) (target : String) (n : Node) (b : Binding) : Prop :=
  t.IsImported target b ∨
    ∃ m u, m ≠ n ∧ t.IsUsageAt target m u ∧ b ∈ t.carriedBindings t.resolution u

/-- A variable is tainted exactly if a usage carries the value to it or it gets the module
elsewhere. -/
theorem IsUsageAt.mem_tainted_iff (h : t.IsUsageAt target n u) :
    b ∈ (Analysis.run t target).tainted ↔
      b ∈ t.carriedBindings t.resolution u ∨ t.IsGivenElsewhere target n b := by
  rw [Tree.mem_tainted_iff]
  constructor
  · rintro (himported | ⟨m, u', husage, hb⟩)
    · exact .inr (.inl himported)
    · by_cases hm : m = n
      · subst hm
        exact .inl (husage.unique h ▸ hb)
      · exact .inr (.inr ⟨m, u', hm, husage, hb⟩)
  · rintro (hb | himported | ⟨m, u', -, husage, hb⟩)
    · exact .inr ⟨n, u, h, hb⟩
    · exact .inl himported
    · exact .inr ⟨m, u', husage, hb⟩

/-! ## The usage of an assigned value -/

/-- `v` is a value of the target module: the top of the chain that starts at a call that loads it or
at a use of a tainted variable. A shorthand property of a pattern is no value. -/
structure IsModuleValue (t : Tree) (target : String) (n v : Node) : Prop where
  origin : t.IsTargetRequire target n ∨
    t.IsTaintedUse target n ∧ t.kind n ≠ "shorthand_property_identifier_pattern"
  top : (t.usageChain n).top = v

/-- Where a chain of uses starts there is a link around it, or the chain ends. -/
theorem through_or_top (hp : t.parent? n = some p) :
    t.kind p ∈ throughKinds ∨ (t.usageChain n).top = n := by
  rw [usageChain, ancestors_of_parent hp, chainThrough]
  cases hlink : t.link? n p with
  | none => exact .inr rfl
  | some l => exact .inl (through_of_link hlink)

/-- The use that a value starts from stands where values stand, if the value is assigned. -/
theorem IsModuleValue.holds_value (h : t.IsModuleValue target n v) (huse : t.IsTaintedUse target n)
    (hp : t.parent? v = some w) (hkind : t.kind w = "assignment_expression") :
    ¬ t.HoldsNoValue t.resolution n := by
  obtain ⟨c, -, hn⟩ := huse
  have hparent : ∀ q ∈ t.parent? n, t.kind q ∈ throughKinds := by
    intro q hq
    rcases through_or_top hq with hthrough | htop
    · exact hthrough
    · obtain rfl := htop.symm.trans h.top
      obtain rfl := Option.some.inj (hq.symm.trans hp)
      simp [hkind, throughKinds, writeKinds]
  have hkinds : ∀ k ∈ throughKinds, k ∉ typePositionKinds ∧ k ≠ "variable_declarator" := by
    decide +kernel
  rintro (hdeclares | ⟨q, hq, htype⟩ | ⟨q, hq, hdeclarator, -⟩)
  · exact Resolution.not_declares_of_use hn hdeclares
  · exact (hkinds _ (hparent q hq)).1 htype
  · exact (hkinds _ (hparent q hq)).2 hdeclarator

/-- A value that is assigned has the usage that the assignment decides. -/
theorem IsModuleValue.usage (h : t.IsModuleValue target n v) (hp : t.parent? v = some w)
    (hkind : t.kind w = "assignment_expression") :
    t.IsUsageAt target n (t.usageUnder n (t.usageChain n) w) := by
  have husage : t.expressionUsage? n = some (t.usageUnder n (t.usageChain n) w) := by
    rw [expressionUsage?, h.top, hp, Option.map_some]
  rcases h.origin with hrequire | ⟨huse, hvalue⟩
  · exact .required hrequire husage
  · refine .used huse ?_
    rw [referenceUsage?, if_neg (h.holds_value huse hp hkind), if_neg hvalue, husage]

/-- The left side of an assignment or the pattern of a declarator, if it receives values. -/
def written? (t : Tree) (w : Node) : Option Node :=
  if t.kind w = "variable_declarator" then t.childByField? w "name"
  else (t.childByField? w "left").filter fun left => t.kind left ∈ receivingKinds

/-- The names that an assignment or a declarator writes: the name on its left side, or those of the
pattern there. -/
def writtenNames (t : Tree) (w : Node) : List Node := t.boundIdentifiersIn (t.written? w)

/-- What the right side of an assignment is assigned to is what the assignment writes. -/
theorem receiver_of_right (hkind : t.kind w = "assignment_expression")
    (hright : t.FieldIs v w "right") : t.receiver? v w = t.written? w := by
  rw [receiver?, if_pos hkind, written?, if_neg (by simp [hkind])]
  cases hleft : t.childByField? w "left" with
  | none => rfl
  | some left =>
      have hne : left ≠ v := by
        rintro rfl
        have hfields := (field_of_child_by_field hleft).symm.trans (field_of_child_by_field hright)
        simp at hfields
      simp [Option.filter_some, hne]

/-- How the usage of the right side of an assignment can look: it is written to what the assignment
writes, or called or written to something else. -/
theorem assigned_usage_cases {c : Chain} (hkind : t.kind w = "assignment_expression")
    (hright : t.FieldIs c.top w "right") :
    t.usageUnder n c w = ⟨n, c.top, .written (t.written? w)⟩ ∨
      t.written? w = none ∧ t.usageUnder n c w = ⟨n, c.top, .called c.style⟩ := by
  have hdelete : ¬ t.IsDelete w := by simp [IsDelete, hkind]
  rw [usageUnder, if_neg (by simp [hkind]), receiver_of_right hkind hright]
  cases t.written? w with
  | some left => exact .inl rfl
  | none =>
      by_cases hcalls : c.Calls
      · exact .inr ⟨rfl, by simp [hcalls]⟩
      · exact .inl (by simp [hcalls, hdelete, hkind, assignmentKinds])

/-- The usage of an assigned value carries it to the names that the assignment writes. -/
theorem mem_carried_of_assigned {c : Chain} (hkind : t.kind w = "assignment_expression")
    (hright : t.FieldIs c.top w "right") :
    b ∈ t.carriedBindings t.resolution (t.usageUnder n c w) ↔
      ∃ i ∈ t.writtenNames w, t.resolution.bindingOf? i = some b := by
  rcases assigned_usage_cases (n := n) hkind hright with husage | ⟨hnone, husage⟩
  · rw [husage, ← List.mem_filterMap]
    rfl
  · simp [husage, carriedBindings, writtenNames, hnone, boundIdentifiersIn]

/-! ## The links of a chain -/

/-- An assignment with the node on its right side, or a declarator that it initializes. -/
def TakesValue (t : Tree) (v w : Node) : Prop :=
  t.kind w = "assignment_expression" ∧ t.FieldIs v w "right" ∨
    t.kind w = "variable_declarator" ∧ t.FieldIs v w "value"

/-- Each of the links takes the value of the one before it, and the first that of the node. -/
inductive TakeInTurn (t : Tree) : Node → List Node → Prop where
  | nil {v : Node} : TakeInTurn t v []
  | cons {v w : Node} {links : List Node} :
      t.TakesValue v w → TakeInTurn t w links → TakeInTurn t v (w :: links)

/-- A climb that passes a value passes what takes it. -/
theorem TakesValue.climbs (h : t.TakesValue v w) (hclimbs : t.Climbs e v) : t.Climbs e w := by
  have hparent : t.parent? v = some w := by
    rcases h with ⟨-, hright⟩ | ⟨-, hvalue⟩
    · exact parent_of_field hright
    · exact parent_of_field hvalue
  have hkind : t.kind w ∈ ["assignment_expression", "variable_declarator"] := by
    rcases h with ⟨hassignment, -⟩ | ⟨hdeclarator, -⟩
    · simp [hassignment]
    · simp [hdeclarator]
  have hkinds : ∀ k ∈ ["assignment_expression", "variable_declarator"], valueField? k = none ∧
      ¬ ("_statement".toList <:+ k.toList ∨ k ∈ declaringStatementKinds) := by
    decide +kernel
  obtain ⟨hfield, hstatement⟩ := hkinds _ hkind
  refine hclimbs.up hparent ?_ hstatement
  rintro ⟨name, hname, -⟩
  simp [hfield] at hname

/-- A climb that passes a value passes all links that take it in turn. -/
theorem TakeInTurn.climbs (h : t.TakeInTurn v links) (hclimbs : t.Climbs e v) :
    ∀ w ∈ links, t.Climbs e w := by
  induction h with
  | nil => exact fun w hw => absurd hw List.not_mem_nil
  | cons htakes _ ih =>
      intro w hw
      have hfirst := htakes.climbs hclimbs
      rcases List.mem_cons.mp hw with rfl | hrest
      · exact hfirst
      · exact ih hfirst w hrest

/-- The climb for a value that is assigned starts at the value or at the assignment. -/
theorem climb_start_of_assigned {c : Chain} (hkind : t.kind w = "assignment_expression")
    (hright : t.FieldIs c.top w "right") :
    ∃ start, t.climbStart? (t.usageUnder n c w) = some start ∧ t.Climbs start w := by
  rcases assigned_usage_cases (n := n) hkind hright with husage | ⟨-, husage⟩
  · have hwrite := write_around_of_outside
      (outside_patterns_of_assignment (parent_of_field hright) hkind) hkind
    exact ⟨w, by rw [husage, climbStart?, hwrite], .start⟩
  · exact ⟨c.top, by rw [husage, climbStart?], TakesValue.climbs (.inl ⟨hkind, hright⟩) .start⟩

/-- A value of the target module that is assigned taints the names that the innermost assignment
writes. The climb for it passes all the links that take the value of this assignment in turn, but
a name that such a link writes is tainted exactly if the innermost assignment writes it, too, or if
it gets the module elsewhere. -/
theorem chained_names_tainted (hvalue : t.IsModuleValue target n v)
    (hinner : t.kind w = "assignment_expression") (hright : t.FieldIs v w "right")
    (hlinks : t.TakeInTurn w links) :
    (∀ i ∈ t.writtenNames w, ∀ b ∈ t.resolution.bindingOf? i,
        b ∈ (Analysis.run t target).tainted) ∧
      ∃ u start, t.IsUsageAt target n u ∧ t.climbStart? u = some start ∧
        ∀ link ∈ links, t.Climbs start link ∧
          ∀ i ∈ t.writtenNames link, ∀ b ∈ t.resolution.bindingOf? i,
            (b ∈ (Analysis.run t target).tainted ↔
              (∃ j ∈ t.writtenNames w, t.resolution.bindingOf? j = some b) ∨
                t.IsGivenElsewhere target n b) := by
  have husage := hvalue.usage (parent_of_field hright) hinner
  obtain rfl := hvalue.top
  obtain ⟨start, hstart, hclimbs⟩ := climb_start_of_assigned (n := n) hinner hright
  have htainted : ∀ b, b ∈ (Analysis.run t target).tainted ↔
      (∃ j ∈ t.writtenNames w, t.resolution.bindingOf? j = some b) ∨
        t.IsGivenElsewhere target n b := by
    intro b
    rw [husage.mem_tainted_iff, mem_carried_of_assigned hinner hright]
  refine ⟨fun i hi b hb => (htainted b).mpr (.inl ⟨i, hi, hb⟩), _, start, husage, hstart, ?_⟩
  exact fun link hlink => ⟨hlinks.climbs hclimbs link hlink, fun _ _ b _ => htainted b⟩

/-- The program `let a,b;a=b=require("debug");a();`. -/
def chainedLoad : Tree :=
  (Tree.ofRows? (Bytes.ofText "let a,b;a=b=require(\"debug\");a();")
    #[⟨0, true, "program", 0, 33, none⟩,
      ⟨1, true, "lexical_declaration", 0, 8, none⟩,
      ⟨2, false, "let", 0, 3, some "kind"⟩,
      ⟨2, true, "variable_declarator", 4, 5, none⟩,
      ⟨3, true, "identifier", 4, 5, some "name"⟩,
      ⟨2, true, "variable_declarator", 6, 7, none⟩,
      ⟨3, true, "identifier", 6, 7, some "name"⟩,
      ⟨1, true, "expression_statement", 8, 29, none⟩,
      ⟨2, true, "assignment_expression", 8, 28, none⟩,
      ⟨3, true, "identifier", 8, 9, some "left"⟩,
      ⟨3, true, "assignment_expression", 10, 28, some "right"⟩,
      ⟨4, true, "identifier", 10, 11, some "left"⟩,
      ⟨4, true, "call_expression", 12, 28, some "right"⟩,
      ⟨5, true, "identifier", 12, 19, some "function"⟩,
      ⟨5, true, "arguments", 19, 28, some "arguments"⟩,
      ⟨6, true, "string", 20, 27, none⟩,
      ⟨7, true, "string_fragment", 21, 26, none⟩,
      ⟨1, true, "expression_statement", 29, 33, none⟩,
      ⟨2, true, "call_expression", 29, 32, none⟩,
      ⟨3, true, "identifier", 29, 30, some "function"⟩,
      ⟨3, true, "arguments", 30, 32, some "arguments"⟩]).get (by decide +kernel)

/-- The inner name of the chain is tainted. -/
theorem inner_name_tainted :
    chainedLoad.IsModuleValue "debug" 12 12 ∧
      chainedLoad.kind 10 = "assignment_expression" ∧ chainedLoad.FieldIs 12 10 "right" ∧
      chainedLoad.TakeInTurn 10 [8] ∧ chainedLoad.writtenNames 10 = [11] ∧
      ∃ b, chainedLoad.resolution.bindingOf? 11 = some b ∧
        b ∈ (Analysis.run chainedLoad "debug").tainted := by
  have hvalue : chainedLoad.IsModuleValue "debug" 12 12 :=
    ⟨.inl ⟨by decide +kernel, by decide +kernel, by decide +kernel⟩, by decide +kernel⟩
  have hinner : chainedLoad.kind 10 = "assignment_expression" := by decide +kernel
  have hright : chainedLoad.FieldIs 12 10 "right" := by decide +kernel
  have hlinks : chainedLoad.TakeInTurn 10 [8] :=
    .cons (.inl ⟨by decide +kernel, by decide +kernel⟩) .nil
  have hwritten : chainedLoad.writtenNames 10 = [11] := by decide +kernel
  have hbinding : (chainedLoad.resolution.bindingOf? 11).isSome := by decide +kernel
  obtain ⟨b, hb⟩ := Option.isSome_iff_exists.mp hbinding
  exact ⟨hvalue, hinner, hright, hlinks, hwritten, b, hb,
    (chained_names_tainted hvalue hinner hright hlinks).1 11 (by simp [hwritten]) b hb⟩

/-- The outer name is not, so the call of it stays while the statement that assigns it goes. -/
theorem outer_name_untainted :
    (chainedLoad.IsTargetRequire "debug" 12 ∧ chainedLoad.FieldIs 12 10 "right" ∧
        chainedLoad.FieldIs 10 8 "right" ∧ chainedLoad.childByField? 8 "left" = some 9) ∧
      (∃ b, chainedLoad.resolution.bindingOf? 9 = some b ∧
        b ∉ (Analysis.run chainedLoad "debug").tainted) ∧
      (Analysis.run chainedLoad "debug").plan = ⟨[7], [], []⟩ := by
  refine ⟨⟨⟨by decide +kernel, by decide +kernel, by decide +kernel⟩, by decide +kernel⟩, ?_,
    by decide +kernel⟩
  have huntainted : ∀ b ∈ (Analysis.run chainedLoad "debug").tainted,
      chainedLoad.resolution.bindingOf? 9 ≠ some b := by
    decide +kernel
  have hbinding : (chainedLoad.resolution.bindingOf? 9).isSome := by decide +kernel
  obtain ⟨b, hb⟩ := Option.isSome_iff_exists.mp hbinding
  exact ⟨b, hb, fun hmem => huntainted b hmem hb⟩

end Excise.Tree
