import Excise.Flow.Analysis
import Excise.Proofs.Names.Tables
import Excise.Proofs.Usage.Reach

/-!
# Names that an assignment writes

The left side of an assignment is a name, or a pattern with the names that it binds. A use of such a
name holds no value, so what should go with it is the whole assignment (`Tree.WritesWhole`).
`writes_whole_iff` says which names have it so: a left side that is a name itself, and a shorthand
property below patterns of assignments. Every other name in a pattern is taken for one that is read,
and the placeholder is put where it is written.
-/

namespace Excise.Tree

variable {t : Tree} {a l m n p r : Nat}

/-! ## The way from a name up to the assignment -/

/-- A name that a pattern binds is the pattern, or stands directly in a part of it. -/
theorem Binds.parent_cases (h : t.Binds l r) :
    r = l ∨ ∃ p, t.parent? r = some p ∧ t.kind p ∈ partKinds := by
  induction h with
  | identifier => exact .inl rfl
  | part _ hpart _ ih =>
      rcases ih with rfl | hparent
      · exact .inr ⟨_, bound_part hpart⟩
      · exact .inr hparent

/-- All that stands between a name and the pattern that binds it, and the pattern unless it is the
name, is a pattern of assignments. A parameter is none. -/
def OnlyPatterns (t : Tree) (r l : Node) : Prop :=
  ∀ m ∈ t.ancestors r, t.Within m l → t.kind m ∈ patternKinds

/-- The nodes between are looked at. -/
instance (t : Tree) (r l : Node) : Decidable (t.OnlyPatterns r l) :=
  inferInstanceAs (Decidable (∀ m ∈ t.ancestors r, t.Within m l → t.kind m ∈ patternKinds))

/-- Nothing stands between a name and itself. -/
theorem only_patterns_refl : t.OnlyPatterns l l := by
  intro m hm hwithin
  exact absurd (le_of_within hwithin) (Nat.not_le_of_lt (lt_of_mem_ancestors hm))

/-- One more pattern around. -/
theorem OnlyPatterns.up (h : t.OnlyPatterns r n) (hwithin : t.Within r n)
    (hp : t.parent? n = some p) (hkind : t.kind p ∈ patternKinds) : t.OnlyPatterns r p := by
  intro m hm hmp
  rcases within_total (within_of_mem_ancestors hm) hwithin with hmn | hnm
  · exact h m hm hmn
  · rcases within_iff.mp hnm with rfl | habove
    · exact h n hm within_refl
    · rcases (mem_ancestors_of_parent hp).mp habove with rfl | hbeyond
      · exact hkind
      · exact absurd (le_of_within hmp) (Nat.not_le_of_lt (lt_of_mem_ancestors hbeyond))

/-- Going out of the patterns around a name leads to where going out of those around its pattern
does. -/
theorem Binds.outside_patterns (h : t.Binds l r) (hall : t.OnlyPatterns r l) :
    t.outsidePatterns (t.ancestors r) = t.outsidePatterns (t.ancestors l) := by
  induction h with
  | identifier => rfl
  | @part l q r _ hpart hbinds ih =>
      have hparent := (bound_part hpart).1
      have hinner : t.OnlyPatterns r q := fun m hm hmq =>
        hall m hm (within_trans hmq (within_parent hparent))
      have hkind : t.kind l ∈ patternKinds := by
        refine hall l ?_ within_refl
        rcases within_iff.mp hbinds.within with rfl | habove
        · exact parent_mem_ancestors hparent
        · exact ancestors_trans (parent_mem_ancestors hparent) habove
      rw [ih hinner, ancestors_of_parent hparent, outsidePatterns,
        List.dropWhile_cons_of_pos (by simpa using hkind), outsidePatterns]

/-- Directly below an assignment there are no patterns to go out of. -/
theorem outside_patterns_of_assignment (hp : t.parent? n = some a)
    (hkind : t.kind a = "assignment_expression") :
    t.outsidePatterns (t.ancestors n) = a :: t.ancestors a := by
  rw [ancestors_of_parent hp, outsidePatterns,
    List.dropWhile_cons_of_neg (by simp [hkind, patternKinds])]

/-- An assignment outside all patterns around a node is the write around it. -/
theorem write_around_of_outside (h : t.outsidePatterns (t.ancestors n) = a :: t.ancestors a)
    (hkind : t.kind a = "assignment_expression") : t.writeAround n = a := by
  rw [writeAround, h]
  exact if_pos (by simp [hkind, writeKinds])

/-- A part of a pattern is no write. -/
theorem not_write_of_part (h : t.kind p ∈ partKinds) : t.kind p ∉ writeKinds := by
  have hkinds : ∀ k ∈ partKinds, k ∉ writeKinds := by decide +kernel
  exact hkinds _ h

/-- A name below something else than patterns of assignments has no write around it. -/
theorem Binds.write_around_self (h : t.Binds l r) (hnot : ¬ t.OnlyPatterns r l) :
    t.writeAround r = r := by
  induction h with
  | identifier => exact absurd only_patterns_refl hnot
  | @part l q r _ hpart hbinds ih =>
      obtain ⟨hparent, hkind⟩ := bound_part hpart
      by_cases hinner : t.OnlyPatterns r q
      · -- The first node that is no pattern of assignments is `l`, where the search ends.
        have hother : t.kind l ∉ patternKinds := fun hpattern =>
          hnot (hinner.up hbinds.within hparent hpattern)
        have houtside : t.outsidePatterns (t.ancestors r) = l :: t.ancestors l := by
          rw [hbinds.outside_patterns hinner, ancestors_of_parent hparent, outsidePatterns,
            List.dropWhile_cons_of_neg (by simpa using hother)]
        rw [writeAround, houtside]
        exact if_neg (not_write_of_part hkind)
      · exact ih hinner

/-! ## The usage of a name that is written -/

/-- A part of a pattern passes no value on. -/
theorem link_of_part (h : t.kind p ∈ partKinds) : t.link? n p = none := by
  have hkinds : ∀ k ∈ partKinds, k ≠ "call_expression" ∧ k ≠ "new_expression" ∧
      k ∉ ["member_expression", "subscript_expression"] ∧ k ∉ wrapperKinds := by
    decide +kernel
  obtain ⟨hcall, hnew, haccess, hwrapper⟩ := hkinds _ h
  rw [link?, if_neg (fun hl => hcall hl.1), if_neg (fun hl => hnew hl.1),
    if_neg (fun hl => haccess hl.1), if_neg (fun hl => hwrapper hl.1)]

/-- An assignment passes no value on. -/
theorem link_of_assignment (h : t.kind p = "assignment_expression") : t.link? n p = none := by
  simp [link?, h, wrapperKinds]

/-- Where the parent passes no value on, it decides the usage. -/
theorem usage_of_no_link (hp : t.parent? n = some p) (hlink : t.link? n p = none) :
    t.expressionUsage? n = some (t.usageUnder n ⟨n, []⟩ p) := by
  have hchain : t.usageChain n = ⟨n, []⟩ := by
    rw [usageChain, ancestors_of_parent hp, chainThrough, hlink]
  rw [expressionUsage?, hchain, hp, Option.map_some]

/-- What stands in a part of a pattern is taken for a value that is read. -/
theorem usage_under_part (h : t.kind p ∈ partKinds) :
    t.usageUnder n ⟨n, []⟩ p = ⟨n, n, .read⟩ := by
  have hkinds : ∀ k ∈ partKinds, k ≠ "variable_declarator" ∧ k ≠ "assignment_expression" ∧
      k ≠ "unary_expression" ∧ k ≠ "expression_statement" ∧ k ∉ assignmentKinds ∧
      k ≠ "update_expression" ∧ k ≠ "export_specifier" := by
    decide +kernel
  obtain ⟨hdeclarator, hassignment, hdelete, hstatement, hwrite, hupdate, hexport⟩ := hkinds _ h
  have hreceiver : t.receiver? n p = none := by rw [receiver?, if_neg hassignment]
  have hcalls : ¬ (⟨n, []⟩ : Chain).Calls := List.not_mem_nil
  rw [usageUnder, if_neg (fun hd => hdeclarator hd.1), hreceiver]
  simp only [hcalls, hstatement, hwrite, hupdate, hexport, if_false]
  exact if_neg fun hd => hdelete hd.1

/-- The left side of an assignment is a write as it stands. -/
theorem usage_under_left (hkind : t.kind a = "assignment_expression")
    (hleft : t.childByField? a "left" = some l) :
    t.usageUnder l ⟨l, []⟩ a = ⟨l, l, .written none⟩ := by
  have hreceiver : t.receiver? l a = none := by simp [receiver?, hkind, hleft]
  have hcalls : ¬ (⟨l, []⟩ : Chain).Calls := List.not_mem_nil
  have hdelete : ¬ t.IsDelete a := by simp [IsDelete, hkind]
  rw [usageUnder, if_neg (by simp [hkind]), hreceiver]
  simp [hcalls, hdelete, hkind, assignmentKinds]

/-- A name that an assignment writes is declared nowhere and stands for no type. -/
theorem not_holds_no_value (hp : t.parent? r = some p)
    (hkind : t.kind p ∈ partKinds ∨ t.kind p = "assignment_expression")
    (hframe : t.frame? r = some a) (ha : t.kind a = "assignment_expression") :
    ¬ t.HoldsNoValue t.resolution r := by
  have hkinds : ∀ k ∈ partKinds, k ∉ typePositionKinds ∧ k ≠ "variable_declarator" := by
    decide +kernel
  have hother : t.kind p ∉ typePositionKinds ∧ t.kind p ≠ "variable_declarator" := by
    rcases hkind with hpart | hassignment
    · exact hkinds _ hpart
    · rw [hassignment]
      decide
  have hfree : t.resolution.declared.lookup r = none :=
    lookup_declared_of_free fun c s => not_places_of_frame hframe (.inr ha)
  simp [HoldsNoValue, Resolution.Declares, hfree, hp, hother]

/-- The use of a name is a write, and the whole assignment is what goes with it. -/
def WritesWhole (t : Tree) (r a : Node) : Prop :=
  ∃ u target, t.referenceUsage? t.resolution r = some u ∧ u.role = .written target ∧
    t.writeAround u.expression = a

section Left

variable (hassignment : t.kind a = "assignment_expression")
  (hleft : t.childByField? a "left" = some l)

include hassignment hleft

/-- A name on the left side has the assignment around its pattern, and holds no value. -/
theorem Binds.not_holds_no_value (h : t.Binds l r) : ¬ t.HoldsNoValue t.resolution r := by
  have hparent := parent_of_field hleft
  have hframe := h.frame_of_parent hparent (by simp [hassignment, partKinds])
  rcases h.parent_cases with rfl | ⟨p, hp, hkind⟩
  · exact Tree.not_holds_no_value hparent (.inr hassignment) hframe hassignment
  · exact Tree.not_holds_no_value hp (.inl hkind) hframe hassignment

/-- A left side that is a name writes the whole assignment. -/
theorem writes_whole_left (h : t.Binds l l) (hkind : t.kind l = "identifier") :
    t.WritesWhole l a := by
  have hparent := parent_of_field hleft
  have husage := usage_of_no_link hparent (link_of_assignment hassignment)
  refine ⟨⟨l, l, .written none⟩, none, ?_, rfl, ?_⟩
  · rw [referenceUsage?, if_neg (h.not_holds_no_value hassignment hleft),
      if_neg (by simp [hkind]), husage, usage_under_left hassignment hleft]
  · exact write_around_of_outside (outside_patterns_of_assignment hparent hassignment) hassignment

/-- A shorthand property writes the whole assignment exactly below patterns of assignments. -/
theorem writes_whole_shorthand_iff (h : t.Binds l r)
    (hkind : t.kind r = "shorthand_property_identifier_pattern") :
    t.WritesWhole r a ↔ t.OnlyPatterns r l := by
  have hparent := parent_of_field hleft
  have husage : t.referenceUsage? t.resolution r = some ⟨r, r, .written none⟩ := by
    rw [referenceUsage?, if_neg (h.not_holds_no_value hassignment hleft), if_pos hkind]
  constructor
  · rintro ⟨u, target, hu, -, hwrite⟩
    obtain rfl := Option.some.inj (husage.symm.trans hu)
    by_cases hall : t.OnlyPatterns r l
    · exact hall
    · -- Then the search for the write ends at the name itself, which is below the assignment.
      have hself : r = a := (h.write_around_self hall).symm.trans hwrite
      have hlt := Nat.lt_of_lt_of_le (parent_lt hparent) (le_of_within h.within)
      exact absurd hself (Nat.ne_of_gt hlt)
  · intro hall
    have houtside := outside_patterns_of_assignment hparent hassignment
    rw [← h.outside_patterns hall] at houtside
    exact ⟨_, none, husage, rfl, write_around_of_outside houtside hassignment⟩

/-- A plain name inside a pattern is taken for one that is read. -/
theorem read_of_inner_name (h : t.Binds l r) (hne : r ≠ l) (hkind : t.kind r = "identifier") :
    t.referenceUsage? t.resolution r = some ⟨r, r, .read⟩ := by
  obtain ⟨p, hp, hpart⟩ := h.parent_cases.resolve_left hne
  rw [referenceUsage?, if_neg (h.not_holds_no_value hassignment hleft), if_neg (by simp [hkind]),
    usage_of_no_link hp (link_of_part hpart), usage_under_part hpart]

end Left

/-- Of the names that the left side of an assignment binds, those have the whole assignment go with
them that are the left side, or are shorthand properties below patterns of assignments. A plain name
inside a pattern is taken for one that is read. -/
theorem writes_whole_iff (hassignment : t.kind a = "assignment_expression")
    (hleft : t.childByField? a "left" = some l) (hkind : t.kind l ∈ receivingKinds)
    (h : r ∈ t.boundIdentifiers l) :
    (t.WritesWhole r a ↔
        r = l ∨ t.kind r = "shorthand_property_identifier_pattern" ∧ t.OnlyPatterns r l) ∧
      (r ≠ l → t.kind r = "identifier" →
        t.referenceUsage? t.resolution r = some ⟨r, r, .read⟩) := by
  have hbinds := mem_bound_identifiers.mp h
  refine ⟨?_, read_of_inner_name hassignment hleft hbinds⟩
  by_cases hself : r = l
  · subst hself
    have hplain : t.kind r = "identifier" := by
      have hidentifier := hbinds.is_identifier
      have hkinds : ∀ k ∈ receivingKinds, k ∈ bindingKinds → k = "identifier" := by decide
      exact hkinds _ hkind hidentifier
    exact iff_of_true (writes_whole_left hassignment hleft hbinds hplain) (.inl rfl)
  · rcases List.mem_cons.mp hbinds.is_identifier with hplain | hshorthand
    · have hread := read_of_inner_name hassignment hleft hbinds hself hplain
      refine iff_of_false ?_ (by simp [hself, hplain])
      rintro ⟨u, target, hu, hrole, -⟩
      obtain rfl := Option.some.inj (hread.symm.trans hu)
      simp at hrole
    · have hshort := List.mem_singleton.mp hshorthand
      rw [writes_whole_shorthand_iff hassignment hleft hbinds hshort]
      simp [hself, hshort]

/-- The program `let a;({x:{a}}=f());`. -/
def nestedShorthand : Tree :=
  (Tree.ofRows? (Bytes.ofText "let a;(\x7bx:\x7ba\x7d\x7d=f());")
    #[⟨0, true, "program", 0, 20, none⟩,
      ⟨1, true, "lexical_declaration", 0, 6, none⟩,
      ⟨2, false, "let", 0, 3, some "kind"⟩,
      ⟨2, true, "variable_declarator", 4, 5, none⟩,
      ⟨3, true, "identifier", 4, 5, some "name"⟩,
      ⟨1, true, "expression_statement", 6, 20, none⟩,
      ⟨2, true, "parenthesized_expression", 6, 19, none⟩,
      ⟨3, true, "assignment_expression", 7, 18, none⟩,
      ⟨4, true, "object_pattern", 7, 14, some "left"⟩,
      ⟨5, true, "pair_pattern", 8, 13, none⟩,
      ⟨6, true, "property_identifier", 8, 9, some "key"⟩,
      ⟨6, true, "object_pattern", 10, 13, some "value"⟩,
      ⟨7, true, "shorthand_property_identifier_pattern", 11, 12, none⟩,
      ⟨4, true, "call_expression", 15, 18, some "right"⟩,
      ⟨5, true, "identifier", 15, 16, some "function"⟩,
      ⟨5, true, "arguments", 16, 18, some "arguments"⟩]).get (by decide +kernel)

/-- The shorthand property in its pattern has the whole assignment go with it. -/
theorem nested_shorthand_whole :
    nestedShorthand.kind 7 = "assignment_expression" ∧
      nestedShorthand.childByField? 7 "left" = some 8 ∧
      12 ∈ nestedShorthand.boundIdentifiers 8 ∧
      (nestedShorthand.resolution.bindingOf? 12).isSome ∧ nestedShorthand.WritesWhole 12 7 := by
  have hassignment : nestedShorthand.kind 7 = "assignment_expression" := by decide +kernel
  have hleft : nestedShorthand.childByField? 7 "left" = some 8 := by decide +kernel
  have hbound : 12 ∈ nestedShorthand.boundIdentifiers 8 := by decide +kernel
  have hpatterns : nestedShorthand.OnlyPatterns 12 8 := by decide +kernel
  exact ⟨hassignment, hleft, hbound, by decide +kernel,
    (writes_whole_iff hassignment hleft (by decide +kernel) hbound).1.mpr
      (.inr ⟨by decide +kernel, hpatterns⟩)⟩

/-- The program `let a=require("debug");[a]=f();`. -/
def arrayWrite : Tree :=
  (Tree.ofRows? (Bytes.ofText "let a=require(\"debug\");[a]=f();")
    #[⟨0, true, "program", 0, 31, none⟩,
      ⟨1, true, "lexical_declaration", 0, 23, none⟩,
      ⟨2, false, "let", 0, 3, some "kind"⟩,
      ⟨2, true, "variable_declarator", 4, 22, none⟩,
      ⟨3, true, "identifier", 4, 5, some "name"⟩,
      ⟨3, true, "call_expression", 6, 22, some "value"⟩,
      ⟨4, true, "identifier", 6, 13, some "function"⟩,
      ⟨4, true, "arguments", 13, 22, some "arguments"⟩,
      ⟨5, true, "string", 14, 21, none⟩,
      ⟨6, true, "string_fragment", 15, 20, none⟩,
      ⟨1, true, "expression_statement", 23, 31, none⟩,
      ⟨2, true, "assignment_expression", 23, 30, none⟩,
      ⟨3, true, "array_pattern", 23, 26, some "left"⟩,
      ⟨4, true, "identifier", 24, 25, none⟩,
      ⟨3, true, "call_expression", 27, 30, some "right"⟩,
      ⟨4, true, "identifier", 27, 28, some "function"⟩,
      ⟨4, true, "arguments", 28, 30, some "arguments"⟩]).get (by decide +kernel)

/-- The name in its array pattern is taken for one that is read, and the plan has the pattern write
to the placeholder. -/
theorem array_write_read :
    (arrayWrite.kind 11 = "assignment_expression" ∧
        arrayWrite.childByField? 11 "left" = some 12 ∧ arrayWrite.kind 12 = "array_pattern" ∧
        13 ∈ arrayWrite.boundIdentifiers 12 ∧ (arrayWrite.resolution.bindingOf? 13).isSome) ∧
      ¬ arrayWrite.WritesWhole 13 11 ∧
      (Analysis.run arrayWrite "debug").plan = ⟨[1], [], [(13, "undefined")]⟩ := by
  have hread : arrayWrite.referenceUsage? arrayWrite.resolution 13 = some ⟨13, 13, .read⟩ := by
    decide +kernel
  refine ⟨by decide +kernel, ?_, by decide +kernel⟩
  rintro ⟨u, target, hu, hrole, -⟩
  obtain rfl := Option.some.inj (hread.symm.trans hu)
  simp at hrole

end Excise.Tree
