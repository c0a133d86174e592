import Excise.Proofs.Plan.Climb

/-!
# What the entry of a use is about

The entry that a use asks for is about a node around the use, except where the climb to its
statement ends at a value in parentheses whose first named part is something else
(`usage_entry_node`). Where declarators stand in declarations and the use in a statement, a use
always asks for an entry (`usage_entry_exists`).
-/

namespace Excise.Tree

variable {t : Tree} {n m p v : Node} {u : Usage} {entry : Entry}

/-- The placeholder takes the place of what stands inside the parentheses. -/
@[simp]
theorem placeholder_entry_node : (t.placeholderEntry n).node = t.withoutParentheses t.size n := by
  rw [placeholderEntry]
  split <;> rfl

/-- A statement is within the node that is deleted for it. -/
theorem within_whole_statement : t.Within n (t.wholeStatement n) := by
  rw [wholeStatement]
  split
  case h_1 p hp =>
    split
    case isTrue => exact within_parent hp
    case isFalse => exact within_refl
  case h_2 => exact within_refl

/-- A list is within the statement that owns it. -/
theorem within_list_owner : t.Within n (t.listOwner n) := by
  rw [listOwner]
  split
  case isTrue => exact within_whole_statement
  case isFalse =>
    cases hp : t.parent? n with
    | none => exact within_refl
    | some p => exact within_parent hp

/-- An item of a list is within what is removed for it. -/
theorem within_list_item_entry (h : t.listItemEntry? n = some entry) : t.Within n entry.node := by
  obtain ⟨p, hp, rfl⟩ := Option.map_eq_some_iff.mp h
  split
  case isTrue => exact within_trans (within_parent hp) within_list_owner
  case isFalse => exact within_refl

/-- The expression at which the climb for a use begins, if its statement is looked for. -/
def climbStart? (t : Tree) (u : Usage) : Option Node :=
  match u.role with
  | .called _ => some u.expression
  | .statement => some u.expression
  | .written _ => some (t.writeAround u.expression)
  | _ => none

/-- A use whose statement is looked for asks for what the climb comes to. -/
theorem usage_entry_of_climb {start : Node} (h : t.climbStart? u = some start) :
    t.usageEntry? u = t.enclosingEntry? start := by
  rw [climbStart?] at h
  rw [ usageEntry?]
  split at h <;> simp_all

/-- The climb for a use begins at a node that the use leads to. -/
theorem UsageFits.climb_start {start : Node} (hfits : t.UsageFits n u)
    (h : t.climbStart? u = some start) : t.LeadsTo n start := by
  rw [climbStart?] at h
  rw [UsageFits] at hfits
  split at h
  case h_1 hrole =>
    rw [hrole] at hfits
    exact Option.some.inj h ▸ hfits
  case h_2 hrole =>
    rw [hrole] at hfits
    exact Option.some.inj h ▸ hfits
  case h_3 hrole =>
    rw [hrole] at hfits
    exact Option.some.inj h ▸ LeadsTo.write_around hfits
  case h_4 => simp at h

/-- The climb for a use ends at a value that its parent holds as its own. -/
def StopsAtValue (t : Tree) (u : Usage) (v : Node) : Prop :=
  ∃ start p, t.climbStart? u = some start ∧ t.Climbs start v ∧ t.parent? v = some p ∧
    t.HoldsAsValue v p

/-- A use whose climb ends at a value puts the placeholder there. -/
theorem StopsAtValue.usage_entry (h : t.StopsAtValue u v) :
    t.usageEntry? u = some (t.placeholderEntry v) := by
  obtain ⟨start, p, hstart, hclimbs, hp, hvalue⟩ := h
  rw [usage_entry_of_climb hstart]
  exact hclimbs.entry_of_value hp hvalue

/-- The value at which the climb for a use ends is around the use. -/
theorem StopsAtValue.within (h : t.StopsAtValue u v) (hfits : t.UsageFits n u) :
    t.Within n v := by
  obtain ⟨start, p, hstart, hclimbs, -, -⟩ := h
  exact within_trans (hfits.climb_start hstart).within hclimbs.within

/-- The entry of a use is about a node around it, or puts the placeholder in the place of a value
at which the climb ends. -/
theorem usage_entry_node (hfits : t.UsageFits n u) (h : t.usageEntry? u = some entry) :
    t.Within n entry.node ∨ ∃ v, t.StopsAtValue u v ∧ entry = t.placeholderEntry v := by
  cases hstart : t.climbStart? u with
  | some start =>
      have hleads := hfits.climb_start hstart
      rw [usage_entry_of_climb hstart] at h
      cases enclosing_entry_cases t start with
      | value hclimbs hp hvalue hentry =>
          obtain rfl := Option.some.inj (hentry.symm.trans h)
          exact .inr ⟨_, ⟨start, _, hstart, hclimbs, hp, hvalue⟩, rfl⟩
      | removed hclimbs hp _ hentry =>
          obtain rfl := Option.some.inj (hentry.symm.trans h)
          have hstatement := within_trans hclimbs.within (within_parent hp)
          exact .inl (within_trans hleads.within (within_trans hstatement within_whole_statement))
      | replaced _ _ _ _ hentry =>
          obtain rfl := Option.some.inj (hentry.symm.trans h)
          rw [placeholder_entry_node]
          exact .inl (hleads.unwrapped _)
      | root _ _ hentry => simp [hentry] at h
  | none =>
      left
      rw [climbStart?] at hstart
      rw [ usageEntry?] at h
      rw [UsageFits] at hfits
      split at h
      case h_1 declarator form hrole =>
        rw [hrole] at hfits
        rw [ declaratorEntry?] at h
        split at h
        case isTrue => exact within_trans hfits.2 (within_list_item_entry h)
        case isFalse => simp at h
      case h_5 specifier hrole =>
        rw [hrole] at hfits
        exact within_trans hfits.2 (within_list_item_entry h)
      case h_6 hrole =>
        rw [hrole] at hfits
        obtain rfl := Option.some.inj h
        rw [placeholder_entry_node]
        exact hfits.unwrapped _
      all_goals simp_all

/-- A use asks for an entry if declarators stand in declarations, its list item is inside a list,
and a statement is around it. -/
theorem usage_entry_exists (hfits : t.UsageFits n u)
    (hdeclarator : ∀ d, t.Within n d → t.kind d = "variable_declarator" →
      ∃ p ∈ t.parent? d, t.kind p ∈ declarationKinds)
    (hspecifier : ∀ s, t.Within n s → t.kind s = "export_specifier" → (t.parent? s).isSome)
    (hstatement : ∃ a ∈ t.ancestors n, t.IsStatement a) :
    ∃ entry, t.usageEntry? u = some entry := by
  cases hstart : t.climbStart? u with
  | some start =>
      rw [usage_entry_of_climb hstart]
      cases enclosing_entry_cases t start with
      | value _ _ _ hentry => exact ⟨_, hentry⟩
      | removed _ _ _ hentry => exact ⟨_, hentry⟩
      | replaced _ _ _ _ hentry => exact ⟨_, hentry⟩
      | root hclimbs hroot _ =>
          -- The climb passes no statement, so the one around the use would be around the root.
          obtain ⟨a, ha, hs⟩ := hstatement
          have hstart' := (hfits.climb_start hstart).statements a ha hs
          have habove := hclimbs.statements a hstart' hs
          simp [ancestors_of_no_parent hroot] at habove
  | none =>
      rw [climbStart?] at hstart
      rw [ usageEntry?]
      rw [UsageFits] at hfits
      split
      case h_1 declarator form hrole =>
        rw [hrole] at hfits
        have hdeclared := hdeclarator declarator hfits.2 hfits.1
        obtain ⟨p, hp, -⟩ := id hdeclared
        rw [ declaratorEntry?, if_pos hdeclared, listItemEntry?, hp]
        exact ⟨_, rfl⟩
      case h_5 specifier hrole =>
        rw [hrole] at hfits
        obtain ⟨p, hp⟩ := Option.isSome_iff_exists.mp (hspecifier specifier hfits.2 hfits.1)
        rw [ listItemEntry?, hp]
        exact ⟨_, rfl⟩
      case h_6 => exact ⟨_, rfl⟩
      all_goals simp_all

end Excise.Tree
