import Excise.Proofs.Plan.Strongest
import Excise.Proofs.Syntax.Form

/-!
# The same plan with other texts

In trees of the same form a use asks for the same entry, except that a shorthand property is
replaced with its own key: the entry in the one tree is that in the other with the text that belongs
to the node there (`SameForm.usage_entry_eq`). A plan with the strongest of such entries holds the
same nodes in the same tables (`Strongest.retext`).
-/

namespace Excise

/-- The entry with the text that belongs to its node, if it puts a text. -/
def Entry.retext (text : Node → String) : Entry → Entry
  | .delete n => .delete n
  | .removeItem n => .removeItem n
  | .replace n _ => .replace n (text n)

/-- The plan with the texts that belong to the replaced nodes. -/
def Plan.retext (p : Plan) (text : Node → String) : Plan :=
  { p with replacements := p.replacements.map fun r => (r.1, text r.1) }

variable {entries : List Entry} {p : Plan} {text : Node → String} {e : Entry} {n : Node}
  {x : String}

theorem Entry.retext_eq_delete : e.retext text = .delete n ↔ e = .delete n := by
  cases e <;> simp [Entry.retext]

theorem Entry.retext_eq_remove_item : e.retext text = .removeItem n ↔ e = .removeItem n := by
  cases e <;> simp [Entry.retext]

theorem Entry.retext_eq_replace :
    e.retext text = .replace n x ↔ x = text n ∧ ∃ old, e = .replace n old := by
  cases e with
  | delete m => simp [Entry.retext]
  | removeItem m => simp [Entry.retext]
  | replace m old =>
      simp only [Entry.retext, Entry.replace.injEq, exists_and_left, exists_eq', and_true]
      constructor
      · rintro ⟨rfl, rfl⟩
        exact ⟨rfl, rfl⟩
      · rintro ⟨rfl, rfl⟩
        exact ⟨rfl, rfl⟩

/-- A replaced node gets the text that belongs to it. -/
theorem Plan.get_replacements_retext :
    (p.retext text).replacements.get? n = (p.replacements.get? n).map fun _ => text n := by
  have htable : ∀ table : Table Node String,
      Table.get? (table.map fun r => (r.1, text r.1)) n = (table.get? n).map fun _ => text n := by
    intro table
    induction table with
    | nil => rfl
    | cons r rest ih =>
        rw [List.map_cons, Table.get?, Table.get?, ih]
        split
        case isTrue heq =>
          have hkey : r.1 = n := heq
          rw [hkey, Option.map_some]
        case isFalse => rfl
  exact htable p.replacements

/-- Entries with other texts make the plan with other texts. -/
theorem Plan.Strongest.retext (h : Plan.Strongest entries p) (text : Node → String) :
    Plan.Strongest (entries.map (Entry.retext text)) (p.retext text) where
  deletions n := by
    simp only [List.mem_map, Entry.retext_eq_delete, exists_eq_right]
    exact h.deletions n
  items n := by
    simp only [List.mem_map, Entry.retext_eq_delete, Entry.retext_eq_remove_item, exists_eq_right]
    exact h.items n
  replacements n x := by
    simp only [Plan.get_replacements_retext, List.mem_map, Entry.retext_eq_delete,
      Entry.retext_eq_remove_item, Entry.retext_eq_replace, exists_eq_right,
      Option.map_eq_some_iff, h.replacements]
    constructor
    · rintro ⟨old, ⟨hmem, hstrongest⟩, rfl⟩
      exact ⟨⟨_, hmem, rfl, old, rfl⟩, hstrongest⟩
    · rintro ⟨⟨-, hmem, rfl, old, rfl⟩, hstrongest⟩
      exact ⟨old, ⟨hmem, hstrongest⟩, rfl⟩

namespace Tree

/-- What the placeholder stands for is the node inside the parentheses, with its text. -/
theorem placeholder_entry_eq (t : Tree) (n : Node) :
    t.placeholderEntry n =
      .replace (t.withoutParentheses t.size n)
        (t.placeholderText (t.withoutParentheses t.size n)) := by
  rw [placeholderEntry, placeholderText]
  split <;> rfl

/-- Nothing is written in the place of a list item. -/
theorem retext_list_item_entry (t : Tree) (n : Node) :
    (t.listItemEntry? n).map (Entry.retext text) = t.listItemEntry? n := by
  rw [ listItemEntry?, Option.map_map]
  refine Option.map_congr fun container _ => ?_
  rw [Function.comp_apply]
  split <;> rfl

/-- Nothing is written in the place of a declarator. -/
theorem retext_declarator_entry (t : Tree) (n : Node) :
    (t.declaratorEntry? n).map (Entry.retext text) = t.declaratorEntry? n := by
  rw [ declaratorEntry?]
  split
  · exact t.retext_list_item_entry n
  · rfl

namespace SameForm

variable {t t' : Tree} (h : SameForm t t') (n m : Node)

include h

theorem placeholder_entry_eq :
    t'.placeholderEntry n = (t.placeholderEntry n).retext t'.placeholderText := by
  rw [t'.placeholder_entry_eq, t.placeholder_entry_eq, h.size_eq, h.without_parentheses_eq]
  rfl

theorem enclosing_entry_eq :
    t'.enclosingEntry? n = (t.enclosingEntry? n).map (Entry.retext t'.placeholderText) := by
  have hthrough : ∀ (ancestors : List Node) (current : Node),
      t'.enclosingEntryThrough? n current ancestors =
        (t.enclosingEntryThrough? n current ancestors).map
          (Entry.retext t'.placeholderText) := by
    intro ancestors
    induction ancestors with
    | nil => exact fun current => rfl
    | cons p rest ih =>
        intro current
        simp only [enclosingEntryThrough?, h.holds_as_value_iff, h.is_statement_iff,
          h.is_free_expression_statement_iff, statementEntry, h.whole_statement_eq,
          h.placeholder_entry_eq, ih]
        split
        · rfl
        · split
          · split <;> rfl
          · rfl
  rw [ enclosingEntry?, enclosingEntry?, h.ancestors_eq, hthrough]

/-- A use asks for the same, but for the text that belongs to the node. -/
theorem usage_entry_eq (u : Usage) :
    t'.usageEntry? u = (t.usageEntry? u).map (Entry.retext t'.placeholderText) := by
  rw [ usageEntry?, usageEntry?]
  split
  case h_1 => rw [h.declarator_entry_eq, retext_declarator_entry]
  case h_2 => exact h.enclosing_entry_eq _
  case h_3 => exact h.enclosing_entry_eq _
  case h_4 =>
    rw [h.write_around_eq]
    exact h.enclosing_entry_eq _
  case h_5 => rw [h.list_item_entry_eq, retext_list_item_entry]
  case h_6 =>
    rw [h.placeholder_entry_eq]
    rfl

end SameForm

end Tree

end Excise
