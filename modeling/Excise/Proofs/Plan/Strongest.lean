import Excise.Flow.Site
import Excise.Proofs.Plan.Climb
import Excise.Proofs.Plan.Tables

/-!
# A plan as a map

Recording entries one by one leaves, for each node, the strongest entry that was made for it, where
the text of a replacement depends on the node alone (`Plan.strongest_record_all`). What a plan maps
its nodes to is therefore the same for every order of the entries (`Plan.Strongest.same_map`). The
entries that uses ask for are of this kind (`usage_entry_writes`).
-/

namespace Excise

/-- If the entry is a replacement, its text is the one that belongs to the node. -/
def Entry.Writes (e : Entry) (text : Node → String) : Prop :=
  ∀ n x, e = .replace n x → x = text n

namespace Plan

variable {p q : Plan} {entries : List Entry} {text : Node → String}

/-- The plan holds the strongest of the entries for each node. -/
structure Strongest (entries : List Entry) (p : Plan) : Prop where
  deletions : ∀ n, n ∈ p.deletions ↔ .delete n ∈ entries
  items : ∀ n, n ∈ p.items ↔ .removeItem n ∈ entries ∧ .delete n ∉ entries
  replacements : ∀ n x, p.replacements.get? n = some x ↔
    .replace n x ∈ entries ∧ .removeItem n ∉ entries ∧ .delete n ∉ entries

/-- A plan that collects entries of which no two replace a node with different texts holds the
strongest of them. -/
theorem Collects.strongest (h : Collects entries p) (hone : OneText entries) :
    Strongest entries p where
  deletions := h.deletions
  items := h.items
  replacements n x := by rw [h.replacements, hone.last_text_iff]

/-- Recording entries from nothing leaves the strongest for each node. -/
theorem strongest_record_all (h : ∀ e ∈ entries, e.Writes text) :
    Strongest entries (Plan.empty.recordAll entries) := by
  have hone : OneText entries := by
    intro n x y hx hy
    rw [h _ hx n x rfl, h _ hy n y rfl]
  exact (collects_record_all entries).strongest hone

/-- Two plans map the same nodes to the same entries. -/
structure SameMap (p q : Plan) : Prop where
  deletions : ∀ n, n ∈ p.deletions ↔ n ∈ q.deletions
  items : ∀ n, n ∈ p.items ↔ n ∈ q.items
  replacements : ∀ n, p.replacements.get? n = q.replacements.get? n

/-- Plans with the strongest of the same entries are the same map, whatever the order. -/
theorem Strongest.same_map {others : List Entry} (h : Strongest entries p)
    (hothers : Strongest others q) (heq : ∀ e, e ∈ entries ↔ e ∈ others) : SameMap p q where
  deletions n := by rw [h.deletions, hothers.deletions, heq]
  items n := by rw [h.items, hothers.items, heq, heq]
  replacements n := by
    refine Option.ext fun x => ?_
    rw [h.replacements, hothers.replacements, heq, heq, heq]

end Plan

namespace Tree

variable {t : Tree} {m n v : Node} {u : Usage} {entry : Entry} {x : String}

/-- The text that takes the place of a node. -/
def placeholderText (t : Tree) (n : Node) : String :=
  if t.kind n = "shorthand_property_identifier" then t.text n ++ ": " ++ placeholder
  else placeholder

/-- A placeholder puts the text of its node. -/
theorem placeholder_entry_writes : (t.placeholderEntry v).Writes t.placeholderText := by
  intro n x h
  simp only [placeholderEntry] at h
  split at h
  case isTrue hkind =>
    obtain ⟨rfl, rfl⟩ := Entry.replace.inj h
    rw [placeholderText, if_pos hkind]
  case isFalse hkind =>
    obtain ⟨rfl, rfl⟩ := Entry.replace.inj h
    rw [placeholderText, if_neg hkind]

/-- Deletions and item removals put no text. -/
theorem list_item_entry_writes (h : t.listItemEntry? n = some entry) :
    entry.Writes t.placeholderText := by
  obtain ⟨p, -, rfl⟩ := Option.map_eq_some_iff.mp h
  intro m x heq
  split at heq <;> cases heq

/-- What a climb comes to puts the text of its node. -/
theorem enclosing_entry_writes (h : t.enclosingEntry? n = some entry) :
    entry.Writes t.placeholderText := by
  cases enclosing_entry_cases t n with
  | value _ _ _ hentry =>
      obtain rfl := Option.some.inj (hentry.symm.trans h)
      exact placeholder_entry_writes
  | removed _ _ _ hentry =>
      obtain rfl := Option.some.inj (hentry.symm.trans h)
      intro m x heq
      cases heq
  | replaced _ _ _ _ hentry =>
      obtain rfl := Option.some.inj (hentry.symm.trans h)
      exact placeholder_entry_writes
  | root _ _ hentry => simp [hentry] at h

/-- What a use asks for puts the text of its node. -/
theorem usage_entry_writes (h : t.usageEntry? u = some entry) :
    entry.Writes t.placeholderText := by
  rw [ usageEntry?] at h
  split at h
  case h_1 declarator form =>
    rw [ declaratorEntry?] at h
    split at h
    case isTrue => exact list_item_entry_writes h
    case isFalse => simp at h
  case h_2 => exact enclosing_entry_writes h
  case h_3 => exact enclosing_entry_writes h
  case h_4 => exact enclosing_entry_writes h
  case h_5 => exact list_item_entry_writes h
  case h_6 =>
    obtain rfl := Option.some.inj h
    exact placeholder_entry_writes

/-- What a site asks for puts the text of its node. -/
theorem site_entry_writes {r : Resolution} {site : Site}
    (h : (t.siteEffect r site).entry = some entry) : entry.Writes t.placeholderText := by
  cases site with
  | imported n =>
      obtain rfl := Option.some.inj h
      intro m x heq
      cases heq
  | required n =>
      obtain ⟨u, -, hu⟩ := Option.bind_eq_some_iff.mp h
      exact usage_entry_writes hu

/-- What a use of a variable asks for puts the text of its node. -/
theorem reference_entry_writes {r : Resolution} (h : (t.referenceEffect r n).entry = some entry) :
    entry.Writes t.placeholderText := by
  obtain ⟨u, -, hu⟩ := Option.bind_eq_some_iff.mp h
  exact usage_entry_writes hu

end Tree

end Excise
