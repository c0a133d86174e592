import Excise.Plan.Basic

/-!
# What a plan names

The tables of a plan displace each other's entries, but a node that one of them holds is never
forgotten: `Plan.Records` says that some table holds the node, and `records_record` and
`records_record_all` that this grows by exactly the nodes of the entries.
-/

namespace Excise.Plan

variable {p : Plan} {e : Entry} {entries : List Entry} {n m : Node}

/-- Some table of the plan holds the node. -/
def Records (p : Plan) (n : Node) : Prop :=
  n ∈ p.deletions ∨ n ∈ p.items ∨ n ∈ p.replacements.keys

theorem mem_insert_node {table : List Node} : m ∈ insertNode table n ↔ m = n ∨ m ∈ table := by
  rw [insertNode]
  split
  case isTrue h =>
    constructor
    · exact .inr
    · rintro (rfl | hm)
      · exact h
      · exact hm
  case isFalse h =>
    rw [List.mem_append, List.mem_singleton, or_comm]

/-- The empty plan names nothing. -/
theorem not_records_empty : ¬ Plan.empty.Records n := by
  rintro (h | h | h) <;> exact List.not_mem_nil h

/-- An entry adds its own node and displaces no other. -/
theorem records_record : (p.record e).Records n ↔ n = e.node ∨ p.Records n := by
  by_cases hn : n = e.node
  · subst hn
    cases e with
    | delete k => simp [Records, record, Entry.node, mem_insert_node]
    | removeItem k =>
        by_cases hk : k ∈ p.deletions <;>
          simp [Records, record, Entry.node, hk, mem_insert_node]
    | replace k text =>
        by_cases hk : k ∈ p.deletions ∨ k ∈ p.items
        · have hrecords : p.Records k := by
            rcases hk with hk | hk
            · exact .inl hk
            · exact .inr (.inl hk)
          simpa [record, Entry.node, hk] using hrecords
        · simp [Records, record, Entry.node, hk, Table.mem_keys_set]
  · cases e with
    | delete k =>
        have hk : n ≠ k := hn
        simp [Records, record, Entry.node, mem_insert_node, Table.mem_keys_erase, hk]
    | removeItem k =>
        have hk : n ≠ k := hn
        by_cases hmem : k ∈ p.deletions <;>
          simp [Records, record, Entry.node, hmem, mem_insert_node, Table.mem_keys_erase, hk]
    | replace k text =>
        have hk : n ≠ k := hn
        by_cases hmem : k ∈ p.deletions ∨ k ∈ p.items <;>
          simp [Records, record, Entry.node, hmem, Table.mem_keys_set, hk]

/-- Entries add their nodes and displace no others. -/
theorem records_record_all :
    (p.recordAll entries).Records n ↔ (∃ e ∈ entries, e.node = n) ∨ p.Records n := by
  induction entries generalizing p with
  | nil => simp [recordAll]
  | cons e rest ih =>
      have hstep : (p.recordAll (e :: rest)).Records n ↔ ((p.record e).recordAll rest).Records n :=
        Iff.rfl
      rw [hstep, ih, records_record]
      constructor
      · rintro (⟨other, hother, rfl⟩ | rfl | hp)
        · exact .inl ⟨other, List.mem_cons_of_mem e hother, rfl⟩
        · exact .inl ⟨e, List.mem_cons_self, rfl⟩
        · exact .inr hp
      · rintro (⟨other, hother, rfl⟩ | hp)
        · rcases List.mem_cons.mp hother with rfl | hother
          · exact .inr (.inl rfl)
          · exact .inl ⟨other, hother, rfl⟩
        · exact .inr (.inr hp)

end Excise.Plan
