import Excise.Proofs.Flow.Order
import Excise.Proofs.Plan.Coverage

/-!
# Where the entries of a plan come from

An analysis asks for entries of three kinds (`Origin`): a statement goes, an item goes from its list
or takes the list with it, or a placeholder takes the place of a value. A deletion of a plan is then
that of a whole statement or of the owner of a list whose only item is marked
(`deletion_origin`), and an item that the plan removes is marked and not the only one of its kind
(`item_origin`).
-/

namespace Excise.Tree

variable {t : Tree} {target : String} {c e i m n : Nat} {u : Usage} {entry : Entry}

/-- The value of the module makes an item of a list go: it initializes the declarator, or the list
of exported names has it. -/
inductive IsMarkedItem (t : Tree) (target : String) (i : Node) : Prop where
  | declarator {n : Node} {u : Usage} {form : Definition} (usage : t.IsUsageAt target n u)
      (role : u.role = .definition i form)
      (declared : ∃ p ∈ t.parent? i, t.kind p ∈ declarationKinds)
  | specifier {n : Node} {u : Usage} (usage : t.IsUsageAt target n u)
      (role : u.role = .exported i)

/-- The kind of a marked item. -/
theorem IsMarkedItem.kind_eq (h : t.IsMarkedItem target i) :
    t.kind i = "variable_declarator" ∨ t.kind i = "export_specifier" := by
  cases h with
  | declarator usage role _ =>
      have hfits := usage.fits
      rw [UsageFits, role] at hfits
      exact .inl hfits.1
  | specifier usage role =>
      have hfits := usage.fits
      rw [UsageFits, role] at hfits
      exact .inr hfits.1

/-- What an entry is asked for by. -/
inductive Origin (t : Tree) (target : String) : Entry → Prop where
  | statement {n : Node} (removed : t.IsTargetImport target n ∨ t.IsFreeExpressionStatement n) :
      Origin t target (t.statementEntry n)
  | item {i : Node} {entry : Entry} (marked : t.IsMarkedItem target i)
      (asked : t.listItemEntry? i = some entry) : Origin t target entry
  | value {n : Node} : Origin t target (t.placeholderEntry n)

/-- The entry that a climb comes to. -/
theorem enclosing_origin (h : t.enclosingEntry? n = some entry) : t.Origin target entry := by
  cases enclosing_entry_cases t n with
  | value _ _ _ hentry =>
      obtain rfl := Option.some.inj (hentry.symm.trans h)
      exact .value
  | removed _ _ hfree hentry =>
      obtain rfl := Option.some.inj (hentry.symm.trans h)
      exact .statement (.inr hfree)
  | replaced _ _ _ _ hentry =>
      obtain rfl := Option.some.inj (hentry.symm.trans h)
      exact .value
  | root _ _ hentry => simp [hentry] at h

/-- The entry of a usage. -/
theorem IsUsageAt.origin (husage : t.IsUsageAt target n u) (h : t.usageEntry? u = some entry) :
    t.Origin target entry := by
  rw [ usageEntry?] at h
  split at h
  case h_1 declarator form hrole =>
    rw [ declaratorEntry?] at h
    split at h
    case isTrue hdeclared => exact .item (.declarator husage hrole hdeclared) h
    case isFalse => simp at h
  case h_5 specifier hrole => exact .item (.specifier husage hrole) h
  case h_6 =>
    obtain rfl := Option.some.inj h
    exact .value
  all_goals exact enclosing_origin h

/-- The entries that a finished analysis asks for. -/
theorem asked_origin (h : Analysis.Asks t target (Analysis.run t target).visited entry) :
    t.Origin target entry := by
  rcases h with ⟨site, hsite, hentry⟩ | ⟨n, hn, hentry⟩
  · cases site with
    | imported n =>
        obtain rfl := Option.some.inj hentry
        exact .statement (.inl (imported_mem_sites.mp hsite))
    | required n =>
        obtain ⟨u, hu, hasked⟩ := Option.bind_eq_some_iff.mp hentry
        exact (IsUsageAt.required (required_mem_sites.mp hsite) hu).origin hasked
  · obtain ⟨u, hu, hasked⟩ := Option.bind_eq_some_iff.mp hentry
    have huse : t.IsTaintedUse target n := Analysis.tracks_run.visited_use n hn
    exact (IsUsageAt.used huse hu).origin hasked

/-- A plan deletes statements for an import or an effect, and the owners of lists that would lose
their only item. -/
theorem deletion_origin (h : m ∈ (Analysis.run t target).plan.deletions) :
    (∃ n, (t.IsTargetImport target n ∨ t.IsFreeExpressionStatement n) ∧ t.wholeStatement n = m) ∨
      ∃ i c, t.IsMarkedItem target i ∧ t.parent? i = some c ∧
        (t.namedChildrenOfKind c (t.kind i)).length = 1 ∧ t.listOwner c = m := by
  have hrun : Analysis.Finished t target (Analysis.run t target) := Analysis.finished_run
  obtain ⟨entries, hstrongest, hasked⟩ := hrun.accounts.strongest
  have horigin := asked_origin ((hasked _).mp ((hstrongest.deletions m).mp h))
  generalize hentry : Entry.delete m = entry at horigin
  cases horigin with
  | @statement n removed => exact .inl ⟨n, removed, (Entry.delete.inj hentry).symm⟩
  | @item i _ marked asked =>
      obtain ⟨c, hc, rfl⟩ := Option.map_eq_some_iff.mp asked
      split at hentry
      case isTrue hsole => exact .inr ⟨i, c, marked, hc, hsole, (Entry.delete.inj hentry).symm⟩
      case isFalse => cases hentry
  | @value n =>
      rw [placeholderEntry] at hentry
      split at hentry <;> cases hentry

/-- A plan removes marked items that are not the only ones of their kind. -/
theorem item_origin (h : i ∈ (Analysis.run t target).plan.items) :
    t.IsMarkedItem target i ∧ ∃ c, t.parent? i = some c ∧
      (t.namedChildrenOfKind c (t.kind i)).length ≠ 1 := by
  have hrun : Analysis.Finished t target (Analysis.run t target) := Analysis.finished_run
  obtain ⟨entries, hstrongest, hasked⟩ := hrun.accounts.strongest
  have horigin := asked_origin ((hasked _).mp ((hstrongest.items i).mp h).1)
  generalize hentry : Entry.removeItem i = entry at horigin
  cases horigin with
  | statement => cases hentry
  | item marked asked =>
      obtain ⟨c, hc, rfl⟩ := Option.map_eq_some_iff.mp asked
      split at hentry
      case isTrue => cases hentry
      case isFalse hmore =>
        obtain rfl := Entry.removeItem.inj hentry
        exact ⟨marked, c, hc, hmore⟩
  | value =>
      rw [placeholderEntry] at hentry
      split at hentry <;> cases hentry

end Excise.Tree
