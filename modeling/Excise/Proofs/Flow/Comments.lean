import Excise.Proofs.Flow.Saturation
import Excise.Proofs.Syntax.Insertion
import Excise.Proofs.Usage.Comments
import Mathlib.Data.List.Nodup

/-!
# Following a module through a tree with comments

Comments add no site of the target module and taint nothing more. A call that loads the module is
overlooked where an added comment is the first of its arguments (`Commented.sites_eq`), and the
value is lost where a chain of uses breaks at one. What is left is `Analysis.ReachedPast`: the
variables that the value reaches without these (`Analysis.reached_iff`). So the sites and the
tainted variables correspond exactly if no call is overlooked and every tainted variable is reached
past the comments (`Analysis.comments_keep_taint_iff`).
-/

namespace Excise

/-- A site in the place of its node. -/
def Site.placed (place : Node → Node) : Site → Site
  | .imported n => .imported (place n)
  | .required n => .required (place n)

namespace Tree

variable {t t' : Tree} {place : Nat → Nat} {target : String} {n : Nat}

/-- The first named child of the arguments of a call is an added comment. -/
def HasFrontedArguments (t t' : Tree) (place : Node → Node) (call : Node) : Prop :=
  ∃ arguments ∈ t.childByField? call "arguments", t.IsFronted t' place arguments

/-- The arguments, if there are any, are looked at. -/
instance (t t' : Tree) (place : Node → Node) (call : Node) :
    Decidable (t.HasFrontedArguments t' place call) :=
  inferInstanceAs (Decidable (∃ arguments ∈ t.childByField? call "arguments", _))

/-- The site is a call that is overlooked. -/
def IsOverlooked (t t' : Tree) (place : Node → Node) : Site → Prop
  | .imported _ => False
  | .required call => t.HasFrontedArguments t' place call

/-- Only a call is looked at. -/
instance (t t' : Tree) (place : Node → Node) (s : Site) :
    Decidable (t.IsOverlooked t' place s) :=
  match s with
  | .imported _ => inferInstanceAs (Decidable False)
  | .required call => inferInstanceAs (Decidable (t.HasFrontedArguments t' place call))

namespace Commented

variable (h : t.Commented t' place)

include h

/-! ## Sites -/

theorem is_module_loader_iff (callee : Node) :
    t'.IsModuleLoader t'.resolution (place callee) ↔ t.IsModuleLoader t.resolution callee := by
  rw [IsModuleLoader, IsModuleLoader, h.kind_eq, h.binding_of_eq, Option.isNone_map]
  refine and_congr_right fun hkind => ?_
  rw [h.text_eq callee (.inl (by simp [hkind, referenceKinds]))]

/-- The first argument of a call is found in its place, unless a comment is in front. -/
theorem first_literal_eq (call : Node) :
    (t'.firstArgument? (place call)).bind t'.literalText? =
      if t.HasFrontedArguments t' place call then none
      else (t.firstArgument? call).bind t.literalText? := by
  rw [firstArgument?, firstArgument?, h.child_by_field_eq]
  cases harguments : t.childByField? call "arguments" with
  | none => simp [HasFrontedArguments, harguments]
  | some arguments =>
      simp only [HasFrontedArguments, harguments, Option.mem_def, Option.some.injEq,
        exists_eq_left', Option.map_some, Option.bind_some]
      split
      case isTrue hfronted =>
        obtain ⟨i, hi, hadded⟩ := h.added_of_fronted hfronted
        rw [hi, Option.bind_some, literalText?, if_neg (by simp [hadded.kind_eq])]
      case isFalse hfronted =>
        rw [not_not.mp hfronted, Option.bind_map]
        exact congrArg₂ _ rfl (funext h.literal_text_eq)

/-- A call loads the module in its place, unless a comment is in front of its arguments. -/
theorem requires_module_iff (call : Node) :
    t'.RequiresModule t'.resolution target (place call) ↔
      t.RequiresModule t.resolution target call ∧ ¬ t.HasFrontedArguments t' place call := by
  have hcallee : (∃ callee ∈ t'.childByField? (place call) "function",
      t'.IsModuleLoader t'.resolution callee) ↔
      ∃ callee ∈ t.childByField? call "function", t.IsModuleLoader t.resolution callee := by
    rw [h.child_by_field_eq]
    cases t.childByField? call "function" <;> simp [h.is_module_loader_iff]
  rw [RequiresModule, RequiresModule, hcallee, h.first_literal_eq]
  split <;> simp_all

/-- The sites of the target module, in their places, without the calls that are overlooked. -/
theorem sites_eq (target : String) :
    t'.sites t'.resolution target =
      ((t.sites t.resolution target).filter fun s => ¬ t.IsOverlooked t' place s).map
        (Site.placed place) := by
  rw [sites, sites, List.filter_filterMap]
  refine h.nodes.filter_map_eq (fun n _ => ?_) fun i hi => ?_
  · simp only [site?, h.kind_eq, h.imports_module_iff, h.requires_module_iff]
    split
    case isTrue => simp [IsOverlooked, Site.placed]
    case isFalse himport =>
      by_cases hcall : t.kind n = "call_expression" ∧ t.RequiresModule t.resolution target n
      · by_cases hfronted : t.HasFrontedArguments t' place n <;>
          simp [hcall, hfronted, IsOverlooked, Site.placed]
      · rw [if_neg hcall, if_neg fun hcall' => hcall ⟨hcall'.1, hcall'.2.1⟩]
        rfl
  · simp [site?, hi.kind_eq]

/-- The sites are the places of those that are not overlooked. -/
theorem mem_sites {site' : Site} :
    site' ∈ t'.sites t'.resolution target ↔
      ∃ site ∈ t.sites t.resolution target, ¬ t.IsOverlooked t' place site ∧
        site.placed place = site' := by
  simp only [h.sites_eq, List.mem_map, List.mem_filter, decide_eq_true_eq, and_assoc]

/-- An import statement introduces the same variables. -/
theorem imported_effect_eq (n : Node) :
    (t'.siteEffect t'.resolution (.imported (place n))).bindings =
      (t.siteEffect t.resolution (.imported n)).bindings.map (Binding.placed place) := by
  rw [siteEffect, siteEffect, h.imported_names_eq, List.filterMap_map, List.map_filterMap]
  exact congrArg₂ _ (funext h.binding_of_eq) rfl

end Commented

/-! ## Comments that are not in front -/

/-- No added comment is the first named child of a wrapper or of arguments. -/
def Unfronted (t t' : Tree) (place : Node → Node) : Prop :=
  ∀ p < t.size, t.IsFronted t' place p → t.kind p ∉ wrapperKinds ∧ t.field p ≠ some "arguments"

/-- Every node is looked at. -/
instance (t t' : Tree) (place : Node → Node) : Decidable (t.Unfronted t' place) :=
  inferInstanceAs (Decidable (∀ p < t.size, _))

/-- Without comments in front, no chain of uses breaks. -/
theorem Unfronted.whole (h : t.Unfronted t' place) (n : Node) : ¬ t.ChainBreaks t' place n := by
  intro hbreaks
  induction hbreaks with
  | @here n p parent link fronted =>
      have hn := lt_size_of_mem_ancestors (parent_mem_ancestors parent)
      exact (h p ((parent_lt parent).trans hn) fronted).1 (wrapper_of_link link)
  | further _ _ _ ih => exact ih

/-- Without comments in front, no call is overlooked. -/
theorem Unfronted.found (h : t.Unfronted t' place) (n : Node) :
    ¬ t.HasFrontedArguments t' place n := by
  rintro ⟨arguments, harguments, hfronted⟩
  have hlt := lt_size_of_mem_ancestors (parent_mem_ancestors (parent_of_field harguments))
  exact (h arguments hlt hfronted).2 (field_of_child_by_field harguments)

end Tree

namespace Analysis

variable {t t' : Tree} {place : Nat → Nat} {target : String} {b : Binding}

/-! ## Taint -/

/-- The value of the target module reaches a variable past the comments of the tree `t'`: no call on
the way is overlooked, and no chain of uses breaks. -/
inductive ReachedPast (t t' : Tree) (place : Node → Node) (target : String) : Binding → Prop where
  | imported {n : Node} {b : Binding} (site : t.IsTargetImport target n)
      (carried : b ∈ (t.siteEffect t.resolution (.imported n)).bindings) :
      ReachedPast t t' place target b
  | required {n : Node} {b : Binding} (site : t.IsTargetRequire target n)
      (found : ¬ t.HasFrontedArguments t' place n) (whole : ¬ t.ChainBreaks t' place n)
      (carried : b ∈ (t.siteEffect t.resolution (.required n)).bindings) :
      ReachedPast t t' place target b
  | use {n : Node} {b c : Binding} (before : ReachedPast t t' place target c)
      (mem : n ∈ t.resolution.usesOf c) (whole : ¬ t.ChainBreaks t' place n)
      (carried : b ∈ (t.referenceEffect t.resolution n).bindings) :
      ReachedPast t t' place target b

/-- What is reached past the comments is reached without them. -/
theorem ReachedPast.reached (h : ReachedPast t t' place target b) :
    Reached t t.resolution target b := by
  induction h with
  | imported site carried => exact .site (Tree.imported_mem_sites.mpr site) carried
  | required site _ _ carried => exact .site (Tree.required_mem_sites.mpr site) carried
  | use _ mem _ carried ih => exact .use ih mem carried

/-- In the tree with comments, the value reaches exactly the variables that it reaches past them. -/
theorem reached_iff (h : t.Commented t' place) {b' : Binding} :
    Reached t' t'.resolution target b' ↔
      ∃ b, ReachedPast t t' place target b ∧ b.placed place = b' := by
  constructor
  · intro hreached
    induction hreached with
    | @site site' b' hsite' hb' =>
        obtain ⟨site, hsite, hfound, rfl⟩ := h.mem_sites.mp hsite'
        cases site with
        | imported n =>
            rw [Site.placed, h.imported_effect_eq, List.mem_map] at hb'
            obtain ⟨b, hb, rfl⟩ := hb'
            exact ⟨b, .imported (Tree.imported_mem_sites.mp hsite) hb, rfl⟩
        | required n =>
            obtain ⟨hwhole, b, hb, rfl⟩ := h.mem_expression_effect.mp hb'
            exact ⟨b, .required (Tree.required_mem_sites.mp hsite) hfound hwhole hb, rfl⟩
    | @use c' n' b' _ hn hb' ih =>
        obtain ⟨c, hc, rfl⟩ := ih
        rw [h.uses_of_eq, List.mem_map] at hn
        obtain ⟨n, hn, rfl⟩ := hn
        obtain ⟨hwhole, b, hb, rfl⟩ := h.mem_reference_effect.mp hb'
        exact ⟨b, .use hc hn hwhole hb, rfl⟩
  · rintro ⟨b, hb, rfl⟩
    induction hb with
    | @imported n b site carried =>
        have hsite := h.mem_sites.mpr ⟨_, Tree.imported_mem_sites.mpr site, not_false, rfl⟩
        refine .site hsite ?_
        rw [Site.placed, h.imported_effect_eq]
        exact List.mem_map_of_mem carried
    | @required n b site found whole carried =>
        have hsite := h.mem_sites.mpr ⟨_, Tree.required_mem_sites.mpr site, found, rfl⟩
        exact .site hsite (h.mem_expression_effect.mpr ⟨whole, b, carried, rfl⟩)
    | @use n b c _ mem whole carried ih =>
        have hmem := List.mem_map_of_mem (f := place) mem
        rw [← h.uses_of_eq] at hmem
        exact .use ih hmem (h.mem_reference_effect.mpr ⟨whole, b, carried, rfl⟩)

/-- The tainted variables of the tree with comments are those that the value reaches past them. -/
theorem mem_tainted_past (h : t.Commented t' place) {b' : Binding} :
    b' ∈ (run t' target).tainted ↔ ∃ b, ReachedPast t t' place target b ∧ b.placed place = b' :=
  mem_tainted_run.trans (reached_iff h)

/-- Two analyses find the same sites and taint the same variables, in the places of their nodes. -/
def Corresponds (t t' : Tree) (place : Node → Node) (target : String) : Prop :=
  t'.sites t'.resolution target = (t.sites t.resolution target).map (Site.placed place) ∧
    (run t' target).tainted.Perm ((run t target).tainted.map (Binding.placed place))

/-- No site is lost exactly if no call is overlooked. -/
theorem sites_correspond_iff (h : t.Commented t' place) :
    t'.sites t'.resolution target = (t.sites t.resolution target).map (Site.placed place) ↔
      ∀ n, t.IsTargetRequire target n → ¬ t.HasFrontedArguments t' place n := by
  rw [h.sites_eq]
  constructor
  · intro heq n hn
    have hlength := congrArg List.length heq
    rw [List.length_map, List.length_map, List.length_filter_eq_length_iff] at hlength
    have hfound := hlength _ (Tree.required_mem_sites.mpr hn)
    exact of_decide_eq_true hfound
  · intro hfound
    refine congrArg _ (List.filter_eq_self.mpr fun site hsite => decide_eq_true ?_)
    cases site with
    | imported n => exact not_false
    | required n => exact hfound n (Tree.required_mem_sites.mp hsite)

/-- No taint is lost exactly if all of it is reached past the comments. -/
theorem taint_corresponds_iff (h : t.Commented t' place) :
    (run t' target).tainted.Perm ((run t target).tainted.map (Binding.placed place)) ↔
      ∀ b ∈ (run t target).tainted, ReachedPast t t' place target b := by
  have hinjective : Function.Injective (Binding.placed place) := fun _ _ => h.placed_inj.mp
  have hnodup : ((run t target).tainted.map (Binding.placed place)).Nodup :=
    tracks_run.reflects.nodup.map hinjective
  rw [List.perm_ext_iff_of_nodup tracks_run.reflects.nodup hnodup]
  simp only [mem_tainted_past h, List.mem_map]
  constructor
  · intro hsame b hb
    obtain ⟨c, hc, heq⟩ := (hsame (b.placed place)).mpr ⟨b, hb, rfl⟩
    exact hinjective heq ▸ hc
  · intro hpast b'
    constructor
    · rintro ⟨b, hb, heq⟩
      exact ⟨b, mem_tainted_run.mpr hb.reached, heq⟩
    · rintro ⟨b, hb, heq⟩
      exact ⟨b, hpast b hb, heq⟩

/-- Without comments in front, everything that the value reaches is reached past the comments. -/
theorem reached_past_of_unfronted (h : t.Unfronted t' place)
    (hb : Reached t t.resolution target b) : ReachedPast t t' place target b := by
  induction hb with
  | @site site b hsite hb =>
      cases site with
      | imported n => exact .imported (Tree.imported_mem_sites.mp hsite) hb
      | required n =>
          exact .required (Tree.required_mem_sites.mp hsite) (h.found n) (h.whole n) hb
  | @use c n b _ hn hb ih => exact .use ih hn (h.whole n) hb

/-- Comments add no site and no taint. They take nothing away exactly if none is the first argument
of a call that loads the module and all tainted variables are reached past them, so in particular if
none is the first named child of a wrapper or of arguments. -/
theorem comments_keep_taint_iff (h : t.InsertsComments t' place) (target : String) :
    (t'.sites t'.resolution target =
        ((t.sites t.resolution target).filter fun s => ¬ t.IsOverlooked t' place s).map
          (Site.placed place) ∧
      ∀ b', b' ∈ (run t' target).tainted ↔
        ∃ b, ReachedPast t t' place target b ∧ b.placed place = b') ∧
    (Corresponds t t' place target ↔
      (∀ n, t.IsTargetRequire target n → ¬ t.HasFrontedArguments t' place n) ∧
        ∀ b ∈ (run t target).tainted, ReachedPast t t' place target b) ∧
    (t.Unfronted t' place → Corresponds t t' place target) := by
  have hcommented := h.commented
  have hiff : Corresponds t t' place target ↔
      (∀ n, t.IsTargetRequire target n → ¬ t.HasFrontedArguments t' place n) ∧
        ∀ b ∈ (run t target).tainted, ReachedPast t t' place target b :=
    and_congr (sites_correspond_iff hcommented) (taint_corresponds_iff hcommented)
  refine ⟨⟨hcommented.sites_eq target, fun b' => mem_tainted_past hcommented⟩, hiff, ?_⟩
  intro hfront
  refine hiff.mpr ⟨fun n _ => hfront.found n, fun b hb => ?_⟩
  exact reached_past_of_unfronted hfront (mem_tainted_run.mp hb)

/-- The program `var d=(require("debug"));`. -/
def wrappedLoad : Tree :=
  (Tree.ofRows? (Bytes.ofText "var d=(require(\"debug\"));")
    #[⟨0, true, "program", 0, 25, none⟩,
      ⟨1, true, "variable_declaration", 0, 25, none⟩,
      ⟨2, true, "variable_declarator", 4, 24, none⟩,
      ⟨3, true, "identifier", 4, 5, some "name"⟩,
      ⟨3, true, "parenthesized_expression", 6, 24, some "value"⟩,
      ⟨4, true, "call_expression", 7, 23, none⟩,
      ⟨5, true, "identifier", 7, 14, some "function"⟩,
      ⟨5, true, "arguments", 14, 23, some "arguments"⟩,
      ⟨6, true, "string", 15, 22, none⟩,
      ⟨7, true, "string_fragment", 16, 21, none⟩]).get (by decide +kernel)

/-- The same program with a comment after the argument. -/
def commentLast : Tree :=
  (Tree.ofRows? (Bytes.ofText "var d=(require(\"debug\"/**/));")
    #[⟨0, true, "program", 0, 29, none⟩,
      ⟨1, true, "variable_declaration", 0, 29, none⟩,
      ⟨2, true, "variable_declarator", 4, 28, none⟩,
      ⟨3, true, "identifier", 4, 5, some "name"⟩,
      ⟨3, true, "parenthesized_expression", 6, 28, some "value"⟩,
      ⟨4, true, "call_expression", 7, 27, none⟩,
      ⟨5, true, "identifier", 7, 14, some "function"⟩,
      ⟨5, true, "arguments", 14, 27, some "arguments"⟩,
      ⟨6, true, "string", 15, 22, none⟩,
      ⟨7, true, "string_fragment", 16, 21, none⟩,
      ⟨6, true, "comment", 22, 26, none⟩]).get (by decide +kernel)

/-- Its variable is still tainted: the comment is in front of nothing. -/
theorem comment_last_keeps_taint :
    wrappedLoad.InsertsComments commentLast (fun n => Tree.pastRow 10 n) ∧
      wrappedLoad.Unfronted commentLast (fun n => Tree.pastRow 10 n) ∧
      Corresponds wrappedLoad commentLast (fun n => Tree.pastRow 10 n) "debug" ∧
      ⟨"d", .keyword "var", 3, 0⟩ ∈ (run commentLast "debug").tainted := by
  have hstep : wrappedLoad.InsertsComment commentLast 10 6 22 (Bytes.ofText "/**/") := by
    constructor <;> decide +kernel
  have hinserts : wrappedLoad.InsertsComments commentLast (fun n => Tree.pastRow 10 n) :=
    .another .nothing hstep
  have hfront : wrappedLoad.Unfronted commentLast (fun n => Tree.pastRow 10 n) := by
    decide +kernel
  exact ⟨hinserts, hfront, (comments_keep_taint_iff hinserts "debug").2.2 hfront,
    by decide +kernel⟩

/-- The same program with a comment in front of the argument. -/
def commentBeforeArgument : Tree :=
  (Tree.ofRows? (Bytes.ofText "var d=(require(/**/\"debug\"));")
    #[⟨0, true, "program", 0, 29, none⟩,
      ⟨1, true, "variable_declaration", 0, 29, none⟩,
      ⟨2, true, "variable_declarator", 4, 28, none⟩,
      ⟨3, true, "identifier", 4, 5, some "name"⟩,
      ⟨3, true, "parenthesized_expression", 6, 28, some "value"⟩,
      ⟨4, true, "call_expression", 7, 27, none⟩,
      ⟨5, true, "identifier", 7, 14, some "function"⟩,
      ⟨5, true, "arguments", 14, 27, some "arguments"⟩,
      ⟨6, true, "comment", 15, 19, none⟩,
      ⟨6, true, "string", 19, 26, none⟩,
      ⟨7, true, "string_fragment", 20, 25, none⟩]).get (by decide +kernel)

/-- The same program with a comment in front of the call. -/
def commentBeforeCall : Tree :=
  (Tree.ofRows? (Bytes.ofText "var d=(/**/require(\"debug\"));")
    #[⟨0, true, "program", 0, 29, none⟩,
      ⟨1, true, "variable_declaration", 0, 29, none⟩,
      ⟨2, true, "variable_declarator", 4, 28, none⟩,
      ⟨3, true, "identifier", 4, 5, some "name"⟩,
      ⟨3, true, "parenthesized_expression", 6, 28, some "value"⟩,
      ⟨4, true, "comment", 7, 11, none⟩,
      ⟨4, true, "call_expression", 11, 27, none⟩,
      ⟨5, true, "identifier", 11, 18, some "function"⟩,
      ⟨5, true, "arguments", 18, 27, some "arguments"⟩,
      ⟨6, true, "string", 19, 26, none⟩,
      ⟨7, true, "string_fragment", 20, 25, none⟩]).get (by decide +kernel)

/-- A comment in front of the argument hides the site, and one in front of the call loses the
variable. -/
theorem comment_in_front_loses_taint :
    (wrappedLoad.sites wrappedLoad.resolution "debug" = [.required 5] ∧
        (run wrappedLoad "debug").tainted = [⟨"d", .keyword "var", 3, 0⟩]) ∧
      (wrappedLoad.InsertsComments commentBeforeArgument (fun n => Tree.pastRow 8 n) ∧
        commentBeforeArgument.sites commentBeforeArgument.resolution "debug" = [] ∧
        (run commentBeforeArgument "debug").tainted = []) ∧
      (wrappedLoad.InsertsComments commentBeforeCall (fun n => Tree.pastRow 5 n) ∧
        commentBeforeCall.sites commentBeforeCall.resolution "debug" = [.required 6] ∧
        (run commentBeforeCall "debug").tainted = []) := by
  have hargument : wrappedLoad.InsertsComment commentBeforeArgument 8 6 15
      (Bytes.ofText "/**/") := by
    constructor <;> decide +kernel
  have hcall : wrappedLoad.InsertsComment commentBeforeCall 5 4 7 (Bytes.ofText "/**/") := by
    constructor <;> decide +kernel
  refine ⟨⟨?_, ?_⟩, ⟨.another .nothing hargument, ?_, ?_⟩, ⟨.another .nothing hcall, ?_, ?_⟩⟩ <;>
    decide +kernel

end Analysis

end Excise
