import Excise.Plan.Demand
import Excise.Proofs.Syntax.Ancestry
import Mathlib.Tactic.SplitIfs

/-!
# From a use up to its expression

The way from a use up to the expression that is removed with it goes through calls, accesses,
wrappers, a `delete`, patterns and writes. `LeadsTo` collects what holds of every such way: the use
stays within, no statement is passed, and taking off the parentheses at the top does not lose the
use. It holds along a chain of uses (`OnChain.leads_to`), and each further step keeps it
(`LeadsTo.parent`, `LeadsTo.write_around`). `expression_usage_fits` and `reference_usage_fits` say
where the use stands for each of its roles.
-/

namespace Excise.Tree

variable {t : Tree} {n m e p : Node} {levels : Nat}

/-- The kinds of node that a use is followed through. -/
def throughKinds : List String :=
  ["call_expression", "new_expression", "member_expression", "subscript_expression",
    "unary_expression"] ++ wrapperKinds ++ patternKinds ++ writeKinds

/-- No statement is of such a kind. -/
theorem not_statement_of_through (h : t.kind n ∈ throughKinds) : ¬ t.IsStatement n := by
  have hkinds : ∀ k ∈ throughKinds,
      ¬ ("_statement".toList <:+ k.toList ∨ k ∈ declaringStatementKinds) := by decide +kernel
  exact hkinds _ h

/-- A link of a chain is a call, an access or a wrapper. -/
theorem through_of_link {l : Link} (h : t.link? m p = some l) : t.kind p ∈ throughKinds := by
  have haccess : ∀ k ∈ ["member_expression", "subscript_expression"], k ∈ throughKinds := by
    decide +kernel
  simp only [link?] at h
  split_ifs at h with hcall hnew hmember hwrapper
  · simp [throughKinds, hcall.1]
  · simp [throughKinds, hnew.1]
  · exact haccess _ hmember.1
  · simp [throughKinds, hwrapper.1]

/-- Parentheses pass on their first named child. -/
theorem head_of_link {l : Link} (h : t.link? m p = some l)
    (hp : t.kind p = "parenthesized_expression") : (t.namedChildren p).head? = some m := by
  simp only [link?, hp] at h
  split_ifs at h with hcall hnew hmember hwrapper
  · simp at hcall
  · simp at hnew
  · simp at hmember
  · exact hwrapper.2

/-- A node that is no parentheses stays as it is when they are taken off. -/
theorem without_parentheses_of_kind (h : t.kind n ≠ "parenthesized_expression") :
    t.withoutParentheses levels n = n := by
  cases levels with
  | zero => rfl
  | succ levels => rw [withoutParentheses, if_neg h]

/-- The node is on the chain of uses that starts at `n`. -/
inductive OnChain (t : Tree) (n : Node) : Node → Prop where
  | start : OnChain t n n
  | link {m p : Node} {l : Link} :
      OnChain t n m → t.parent? m = some p → t.link? m p = some l → OnChain t n p

/-- A chain climbs from node to node until no parent is a link. -/
theorem chain_top_on_chain : t.OnChain n (t.usageChain n).top := by
  have hclimb : ∀ m, t.OnChain n m → t.OnChain n (t.chainThrough m (t.ancestors m)).top := by
    intro m
    induction m using parent_induction (t := t) with
    | root m hm =>
        rw [ancestors_of_no_parent hm]
        exact id
    | child m p hp ih =>
        intro h
        rw [ancestors_of_parent hp, chainThrough]
        split
        case h_1 => exact h
        case h_2 l hl => exact ih (h.link hp hl)
  exact hclimb n .start

/-- Going up from `n` leads to `e` past no statement, and taking off the parentheses around `e`
leads back towards `n`. -/
structure LeadsTo (t : Tree) (n e : Node) : Prop where
  within : t.Within n e
  statements : ∀ a ∈ t.ancestors n, t.IsStatement a → a ∈ t.ancestors e
  unwrapped : ∀ levels, t.Within n (t.withoutParentheses levels e)

/-- A node that is no parentheses leads to itself. -/
theorem leads_to_refl (h : t.kind n ≠ "parenthesized_expression") : t.LeadsTo n n where
  within := within_refl
  statements _ ha _ := ha
  unwrapped levels := by
    rw [without_parentheses_of_kind h]
    exact within_refl

/-- The parent is reached past no statement if it is none. -/
theorem LeadsTo.statements_parent (h : t.LeadsTo n e) (hp : t.parent? e = some p)
    (hstatement : ¬ t.IsStatement p) :
    ∀ a ∈ t.ancestors n, t.IsStatement a → a ∈ t.ancestors p := by
  intro a ha hs
  rcases (mem_ancestors_of_parent hp).mp (h.statements a ha hs) with rfl | hap
  · exact absurd hs hstatement
  · exact hap

/-- A use leads to every node of its chain. -/
theorem OnChain.leads_to (h : t.OnChain n m) (hn : t.kind n ≠ "parenthesized_expression") :
    t.LeadsTo n m := by
  induction h with
  | start => exact leads_to_refl hn
  | @link m p l hm hp hl ih =>
      refine ⟨within_trans ih.within (within_parent hp),
        ih.statements_parent hp (not_statement_of_through (through_of_link hl)), fun levels => ?_⟩
      -- Only parentheses can be taken off, and the chain enters them by their first named child.
      by_cases hkind : t.kind p = "parenthesized_expression"
      · cases levels with
        | zero => exact within_trans ih.within (within_parent hp)
        | succ levels =>
            obtain ⟨rest, hrest⟩ := List.head?_eq_some_iff.mp (head_of_link hl hkind)
            rw [withoutParentheses, if_pos hkind, hrest]
            exact ih.unwrapped levels
      · rw [without_parentheses_of_kind hkind]
        exact within_trans ih.within (within_parent hp)

/-- A use that leads to a node leads to its parent, unless that is a statement or parentheses. -/
theorem LeadsTo.parent (h : t.LeadsTo n e) (hp : t.parent? e = some p)
    (hstatement : ¬ t.IsStatement p) (hkind : t.kind p ≠ "parenthesized_expression") :
    t.LeadsTo n p where
  within := within_trans h.within (within_parent hp)
  statements := h.statements_parent hp hstatement
  unwrapped levels := by
    rw [without_parentheses_of_kind hkind]
    exact within_trans h.within (within_parent hp)

/-- A use that leads to a node leads to the write around it. -/
theorem LeadsTo.write_around (h : t.LeadsTo n e) : t.LeadsTo n (t.writeAround e) := by
  rw [writeAround]
  split
  case h_1 => exact h
  case h_2 p rest houtside =>
    split
    case isFalse => exact h
    case isTrue hwrite =>
      have hsplit : t.ancestors e =
          (t.ancestors e).takeWhile (fun a => t.kind a ∈ patternKinds) ++ p :: rest := by
        rw [← houtside, outsidePatterns, List.takeWhile_append_dropWhile]
      have hp : p ∈ t.ancestors e := by
        rw [hsplit]
        simp
      have hkind : t.kind p ≠ "parenthesized_expression" := by
        intro heq
        rw [heq] at hwrite
        simp [writeKinds] at hwrite
      have hwithin := within_trans h.within (within_of_mem_ancestors hp)
      refine ⟨hwithin, fun a ha hs => ?_, fun levels => ?_⟩
      · -- What is left behind are patterns and the write itself, none of them a statement.
        have hae := h.statements a ha hs
        rw [hsplit, List.mem_append, List.mem_cons] at hae
        rcases hae with hpattern | rfl | hrest
        · have hkinds : t.kind a ∈ patternKinds := by
            simpa using List.all_eq_true.mp List.all_takeWhile a hpattern
          exact absurd hs (not_statement_of_through (by simp [throughKinds, hkinds]))
        · exact absurd hs (not_statement_of_through (by simp [throughKinds, hwrite]))
        · rwa [ancestors_of_append hsplit] at hrest
      · rw [without_parentheses_of_kind hkind]
        exact hwithin

/-- Where a use stands: in the declarator or the list item that its role names, or below the
expression that it leads to. -/
def UsageFits (t : Tree) (n : Node) (u : Usage) : Prop :=
  match u.role with
  | .definition declarator _ => t.kind declarator = "variable_declarator" ∧ t.Within n declarator
  | .exported specifier => t.kind specifier = "export_specifier" ∧ t.Within n specifier
  | _ => t.LeadsTo n u.expression

/-- The usage at the top of a chain fits every node that leads there. -/
theorem usage_under_fits {c : Chain} (h : t.LeadsTo n c.top) (hp : t.parent? c.top = some p) :
    t.UsageFits n (t.usageUnder n c p) := by
  have hparent : t.Within n p := within_trans h.within (within_parent hp)
  rw [usageUnder]
  split
  case isTrue hdeclarator => exact ⟨hdeclarator.1, hparent⟩
  case isFalse =>
    split
    case h_1 => exact h
    case h_2 =>
      split_ifs with hcalls hdelete hstatement hassignment hupdate hexport
      · exact h
      · refine h.parent hp (not_statement_of_through ?_) ?_ <;> simp [throughKinds, hdelete.1]
      · exact h
      · exact h
      · exact h
      · exact ⟨hexport, hparent⟩
      · exact h

/-- The usage of an expression fits it. -/
theorem expression_usage_fits {u : Usage} (hn : t.kind n ≠ "parenthesized_expression")
    (h : t.expressionUsage? n = some u) : t.UsageFits n u := by
  obtain ⟨p, hp, rfl⟩ := Option.map_eq_some_iff.mp h
  exact usage_under_fits (chain_top_on_chain.leads_to hn) hp

/-- The usage of a variable at one of its uses fits the use. -/
theorem reference_usage_fits {r : Resolution} {u : Usage} (hn : t.kind n ∈ referenceKinds)
    (h : t.referenceUsage? r n = some u) : t.UsageFits n u := by
  have hkind : t.kind n ≠ "parenthesized_expression" := by
    intro heq
    rw [heq] at hn
    simp [referenceKinds] at hn
  rw [referenceUsage?] at h
  split at h
  case isTrue => simp at h
  case isFalse =>
    split at h
    case isTrue =>
      obtain rfl := Option.some.inj h
      exact leads_to_refl hkind
    case isFalse => exact expression_usage_fits hkind h

end Excise.Tree
