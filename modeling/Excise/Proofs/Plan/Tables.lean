import Excise.Plan.Demand
import Excise.Proofs.Plan.Record
import Mathlib.Data.List.Induction
import Mathlib.Data.List.Nodup

/-!
# The tables of a plan

Each node stands in the table of the strongest entry that was made for it, and a replacement puts
the text of the last one (`Plan.Collects`). Recording one more entry keeps this (`Collects.record`),
so it holds after any sequence of entries (`collects_record_all`). `tables_settled` states it for
whatever is asked of a plan, be it an entry or what the planner makes of a node or a use, and says
that another order leads to the same tables where no node is replaced with two texts.
-/

namespace Excise

/-- The text that an entry puts in the place of a node. -/
def Entry.textFor? (n : Node) : Entry → Option String
  | .replace m text => if m = n then some text else none
  | _ => none

/-- An entry puts a text in the place of a node exactly if it replaces the node with it. -/
theorem Entry.text_for_eq_some {e : Entry} {n : Node} {x : String} :
    e.textFor? n = some x ↔ e = .replace n x := by
  cases e with
  | delete m => simp [textFor?]
  | removeItem m => simp [textFor?]
  | replace m text =>
      by_cases hm : m = n
      · subst hm
        simp [textFor?]
      · simp [textFor?, hm]

namespace Plan

variable {p q : Plan} {e : Entry} {entries others : List Entry} {n : Node} {x : String}

/-- The text of the last entry that replaces a node. -/
def lastText? (entries : List Entry) (n : Node) : Option String :=
  (entries.filterMap (Entry.textFor? n)).getLast?

/-- A replacement that comes last puts the text. -/
theorem last_text_of_replace (entries : List Entry) (n : Node) (x : String) :
    lastText? (entries ++ [.replace n x]) n = some x := by
  rw [lastText?, List.filterMap_append]
  simp [Entry.textFor?]

/-- An entry that does not replace the node leaves the text. -/
theorem last_text_of_other (h : e.textFor? n = none) :
    lastText? (entries ++ [e]) n = lastText? entries n := by
  rw [lastText?, List.filterMap_append]
  simp [h, lastText?]

/-- The last text is that of an entry. -/
theorem mem_of_last_text (h : lastText? entries n = some x) : .replace n x ∈ entries := by
  obtain ⟨e, he, hx⟩ := List.mem_filterMap.mp (List.mem_of_getLast? h)
  rwa [Entry.text_for_eq_some.mp hx] at he

/-- A node that is replaced has a last text. -/
theorem exists_last_text (h : .replace n x ∈ entries) : ∃ y, lastText? entries n = some y := by
  have hmem : x ∈ entries.filterMap (Entry.textFor? n) :=
    List.mem_filterMap.mpr ⟨_, h, Entry.text_for_eq_some.mpr rfl⟩
  exact ⟨_, List.getLast?_eq_some_getLast (List.ne_nil_of_mem hmem)⟩

/-- No node is replaced with two texts. -/
def OneText (entries : List Entry) : Prop :=
  ∀ n x y, .replace n x ∈ entries → .replace n y ∈ entries → x = y

/-- Where no node is replaced with two texts, the last text is that of every replacement. -/
theorem OneText.last_text_iff (h : OneText entries) :
    lastText? entries n = some x ↔ .replace n x ∈ entries := by
  constructor
  · exact mem_of_last_text
  · intro hx
    obtain ⟨y, hy⟩ := exists_last_text hx
    rw [hy, h n x y hx (mem_of_last_text hy)]

/-! ## What the tables hold -/

/-- The plan holds the strongest of the entries for each node: a deletion, else an item removal,
else the last replacement. -/
structure Collects (entries : List Entry) (p : Plan) : Prop where
  deletions : ∀ n, n ∈ p.deletions ↔ .delete n ∈ entries
  items : ∀ n, n ∈ p.items ↔ .removeItem n ∈ entries ∧ .delete n ∉ entries
  replacements : ∀ n x, p.replacements.get? n = some x ↔
    lastText? entries n = some x ∧ .removeItem n ∉ entries ∧ .delete n ∉ entries

/-- The empty plan holds no entry. -/
theorem collects_empty : Collects [] Plan.empty where
  deletions n := by simp [Plan.empty]
  items n := by simp [Plan.empty]
  replacements n x := by simp [Plan.empty, lastText?]

/-- Recording a deletion. -/
theorem Collects.delete (h : Collects entries p) (n : Node) :
    Collects (entries ++ [.delete n]) (p.record (.delete n)) where
  deletions m := by
    simp only [record, mem_insert_node, h.deletions, List.mem_append, List.mem_singleton,
      Entry.delete.injEq]
    exact or_comm
  items m := by
    simp only [record, List.mem_filter, h.items, decide_eq_true_eq, List.mem_append,
      List.mem_singleton, Entry.delete.injEq, reduceCtorEq, or_false, not_or, and_assoc]
  replacements m x := by
    rw [last_text_of_other rfl]
    by_cases hm : n = m
    · subst hm
      simp [record]
    · simp [record, hm, Ne.symm hm, h.replacements]

/-- Recording an item removal. -/
theorem Collects.removeItem (h : Collects entries p) (n : Node) :
    Collects (entries ++ [.removeItem n]) (p.record (.removeItem n)) := by
  by_cases hn : n ∈ p.deletions
  · have hdelete := (h.deletions n).mp hn
    rw [record, if_pos hn]
    refine ⟨fun m => by simp [h.deletions], fun m => ?_, fun m x => ?_⟩
    · by_cases hm : m = n
      · subst hm
        simp [h.items, hdelete]
      · simp [h.items, hm]
    · rw [last_text_of_other rfl]
      by_cases hm : m = n
      · subst hm
        simp [h.replacements, hdelete]
      · simp [h.replacements, hm]
  · have hdelete : .delete n ∉ entries := fun hmem => hn ((h.deletions n).mpr hmem)
    rw [record, if_neg hn]
    refine ⟨fun m => by simp [h.deletions], fun m => ?_, fun m x => ?_⟩
    · by_cases hm : m = n
      · subst hm
        simp [mem_insert_node, hdelete]
      · simp [mem_insert_node, h.items, hm]
    · rw [last_text_of_other rfl]
      by_cases hm : n = m
      · subst hm
        simp
      · simp [hm, Ne.symm hm, h.replacements]

/-- Recording a replacement. -/
theorem Collects.replace (h : Collects entries p) (n : Node) (x : String) :
    Collects (entries ++ [.replace n x]) (p.record (.replace n x)) := by
  by_cases hn : n ∈ p.deletions ∨ n ∈ p.items
  · have hstronger : .removeItem n ∈ entries ∨ .delete n ∈ entries := by
      rcases hn with hn | hn
      · exact .inr ((h.deletions n).mp hn)
      · exact .inl ((h.items n).mp hn).1
    rw [record, if_pos hn]
    refine ⟨fun m => by simp [h.deletions], fun m => by simp [h.items], fun m y => ?_⟩
    by_cases hm : n = m
    · -- The stronger entry is there before and after.
      subst hm
      rw [h.replacements]
      constructor
      · intro hy
        exact absurd hstronger (not_or.mpr hy.2)
      · intro hy
        simp only [List.mem_append, List.mem_singleton, reduceCtorEq, or_false] at hy
        exact absurd hstronger (not_or.mpr hy.2)
    · rw [last_text_of_other (by simp [Entry.textFor?, hm]), h.replacements]
      simp
  · obtain ⟨hdeletions, hitems⟩ := not_or.mp hn
    have hdelete : .delete n ∉ entries := fun hmem => hdeletions ((h.deletions n).mpr hmem)
    have hitem : .removeItem n ∉ entries := fun hmem => hitems ((h.items n).mpr ⟨hmem, hdelete⟩)
    rw [record, if_neg hn]
    refine ⟨fun m => by simp [h.deletions], fun m => by simp [h.items], fun m y => ?_⟩
    by_cases hm : n = m
    · subst hm
      rw [last_text_of_replace]
      simp [hitem, hdelete]
    · rw [last_text_of_other (by simp [Entry.textFor?, hm])]
      simp [hm, h.replacements]

/-- Recording an entry keeps the strongest entries. -/
theorem Collects.record (h : Collects entries p) (e : Entry) :
    Collects (entries ++ [e]) (p.record e) := by
  cases e with
  | delete n => exact h.delete n
  | removeItem n => exact h.removeItem n
  | replace n x => exact h.replace n x

/-- Recording entries from nothing leaves the strongest for each node. -/
theorem collects_record_all (entries : List Entry) :
    Collects entries (Plan.empty.recordAll entries) := by
  induction entries using List.reverseRecOn with
  | nil => exact collects_empty
  | append_singleton before e ih =>
      rw [recordAll, List.foldl_append, List.foldl_cons, List.foldl_nil]
      exact ih.record e

/-- No node stands in two tables. -/
structure IsExclusive (p : Plan) : Prop where
  deleted_not_item : ∀ n ∈ p.deletions, n ∉ p.items
  deleted_not_replaced : ∀ n ∈ p.deletions, n ∉ p.replacements.keys
  item_not_replaced : ∀ n ∈ p.items, n ∉ p.replacements.keys

/-- Strongest entries are exclusive. -/
theorem Collects.exclusive (h : Collects entries p) : p.IsExclusive := by
  have hreplaced : ∀ n ∈ p.replacements.keys, .removeItem n ∉ entries ∧ .delete n ∉ entries := by
    intro n hn
    cases hx : p.replacements.get? n with
    | none => exact absurd hn (Table.get?_eq_none_iff.mp hx)
    | some x => exact ((h.replacements n x).mp hx).2
  refine ⟨fun n hn hitem => ?_, fun n hn hkey => ?_, fun n hn hkey => ?_⟩
  · exact ((h.items n).mp hitem).2 ((h.deletions n).mp hn)
  · exact (hreplaced n hkey).2 ((h.deletions n).mp hn)
  · exact (hreplaced n hkey).1 ((h.items n).mp hn).1

/-! ## The tables as maps -/

/-- Each table lists a node at most once. -/
structure ListsOnce (p : Plan) : Prop where
  deletions : p.deletions.Nodup
  items : p.items.Nodup
  replacements : p.replacements.keys.Nodup

/-- Adding a node to a table lists no node twice. -/
theorem nodup_insert_node {table : List Node} (h : table.Nodup) : (insertNode table n).Nodup := by
  unfold insertNode
  split
  case isTrue => exact h
  case isFalse hn =>
    refine List.nodup_append.mpr ⟨h, List.nodup_singleton n, ?_⟩
    intro a ha b hb
    obtain rfl := List.mem_singleton.mp hb
    rintro rfl
    exact hn ha

/-- Recording an entry lists no node twice. -/
theorem ListsOnce.record (h : p.ListsOnce) (e : Entry) : (p.record e).ListsOnce := by
  have herase : ∀ n, (p.replacements.erase n).keys.Nodup := fun n =>
    h.replacements.sublist (List.filter_sublist.map _)
  cases e with
  | delete n => exact ⟨nodup_insert_node h.deletions, h.items.filter _, herase n⟩
  | removeItem n =>
      simp only [Plan.record]
      split
      · exact h
      · exact ⟨h.deletions, nodup_insert_node h.items, herase n⟩
  | replace n x =>
      simp only [Plan.record]
      split
      · exact h
      · exact ⟨h.deletions, h.items, Table.nodup_keys_set h.replacements⟩

/-- Recording entries lists no node twice. -/
theorem ListsOnce.record_all (h : p.ListsOnce) (entries : List Entry) :
    (p.recordAll entries).ListsOnce := by
  induction entries generalizing p with
  | nil => exact h
  | cons e rest ih => exact ih (h.record e)

/-- The empty plan lists nothing. -/
theorem lists_once_empty : Plan.empty.ListsOnce :=
  ⟨List.nodup_nil, List.nodup_nil, List.nodup_nil⟩

/-- The tables of two plans hold the same entries, in whatever order. -/
structure SameTables (p q : Plan) : Prop where
  deletions : p.deletions.Perm q.deletions
  items : p.items.Perm q.items
  replacements : p.replacements.Perm q.replacements

/-- Plans that collect the same entries have the same tables, if no node is replaced with two
texts. -/
theorem Collects.same_tables (hp : Collects entries p) (hq : Collects others q)
    (hponce : p.ListsOnce) (hqonce : q.ListsOnce) (hone : OneText entries)
    (hsame : ∀ e, e ∈ entries ↔ e ∈ others) : p.SameTables q where
  deletions := by
    refine (List.perm_ext_iff_of_nodup hponce.deletions hqonce.deletions).mpr fun n => ?_
    rw [hp.deletions, hq.deletions, hsame]
  items := by
    refine (List.perm_ext_iff_of_nodup hponce.items hqonce.items).mpr fun n => ?_
    rw [hp.items, hq.items, hsame, hsame]
  replacements := by
    have hother : OneText others := fun n x y hx hy =>
      hone n x y ((hsame _).mpr hx) ((hsame _).mpr hy)
    refine (List.perm_ext_iff_of_nodup hponce.replacements.of_map
      hqonce.replacements.of_map).mpr fun r => ?_
    rw [← Table.get?_eq_some_iff hponce.replacements, ← Table.get?_eq_some_iff hqonce.replacements,
      hp.replacements, hq.replacements, hone.last_text_iff, hother.last_text_iff, hsame, hsame,
      hsame]

end Plan

/-! ## What is asked of a plan -/

/-- What can be asked of a plan: an entry as it stands; that a statement, a declarator or an item of
a list goes; that an effect goes with its statement; that a value gets the placeholder; or what a
use asks for. -/
inductive Demand where
  | entry (e : Entry)
  | statement (n : Node)
  | declarator (n : Node)
  | listItem (n : Node)
  | effect (n : Node)
  | value (n : Node)
  | use (u : Usage)
deriving DecidableEq

namespace Tree

/-- The entry that a demand comes to, if it comes to any. -/
def demandEntry? (t : Tree) : Demand → Option Entry
  | .entry e => some e
  | .statement n => some (t.statementEntry n)
  | .declarator n => t.declaratorEntry? n
  | .listItem n => t.listItemEntry? n
  | .effect n => t.enclosingEntry? n
  | .value n => some (t.placeholderEntry n)
  | .use u => t.usageEntry? u

/-- The entries that demands come to. -/
def demandEntries (t : Tree) (demands : List Demand) : List Entry :=
  demands.filterMap t.demandEntry?

end Tree

namespace Plan

/-- The plan that meets the demands one after the other. -/
def ofDemands (t : Tree) (demands : List Demand) : Plan :=
  demands.foldl (fun p d => p.recordOptional (t.demandEntry? d)) .empty

/-- Meeting demands records the entries that they come to. -/
theorem of_demands_eq (t : Tree) (demands : List Demand) :
    ofDemands t demands = Plan.empty.recordAll (t.demandEntries demands) := by
  suffices h : ∀ p : Plan, demands.foldl (fun p d => p.recordOptional (t.demandEntry? d)) p =
      p.recordAll (t.demandEntries demands) from h .empty
  induction demands with
  | nil => exact fun p => rfl
  | cons d rest ih =>
      intro p
      rw [List.foldl_cons, ih, Tree.demandEntries, Tree.demandEntries]
      cases hd : t.demandEntry? d with
      | none => rw [List.filterMap_cons_none hd]; rfl
      | some e => rw [List.filterMap_cons_some hd]; rfl

/-- Whatever is asked of a plan and in which order: no table lists a node twice and no node stands
in two tables, and each holds exactly the strongest of the entries that were asked for, a
replacement with the last text. Where no node is replaced with two texts, the same demands in
another order lead to the same tables. -/
theorem tables_settled (t : Tree) (demands : List Demand) :
    (ofDemands t demands).ListsOnce ∧ (ofDemands t demands).IsExclusive ∧
      Collects (t.demandEntries demands) (ofDemands t demands) ∧
      ∀ others, others.Perm demands → OneText (t.demandEntries demands) →
        (ofDemands t others).SameTables (ofDemands t demands) := by
  have hcollects : ∀ asked, Collects (t.demandEntries asked) (ofDemands t asked) := by
    intro asked
    rw [of_demands_eq]
    exact collects_record_all _
  have honce : ∀ asked, (ofDemands t asked).ListsOnce := by
    intro asked
    rw [of_demands_eq]
    exact lists_once_empty.record_all _
  refine ⟨honce demands, (hcollects demands).exclusive, hcollects demands, ?_⟩
  intro others hperm hone
  have hsame : ∀ e, e ∈ t.demandEntries others ↔ e ∈ t.demandEntries demands := fun e =>
    (hperm.filterMap t.demandEntry?).mem_iff
  refine (hcollects others).same_tables (hcollects demands) (honce others) (honce demands) ?_ hsame
  intro n x y hx hy
  exact hone n x y ((hsame _).mp hx) ((hsame _).mp hy)

/-- The program `f(a);`. -/
def callStatement : Tree :=
  (Tree.ofRows? (Bytes.ofText "f(a);")
    #[⟨0, true, "program", 0, 5, none⟩,
      ⟨1, true, "expression_statement", 0, 5, none⟩,
      ⟨2, true, "call_expression", 0, 4, none⟩,
      ⟨3, true, "identifier", 0, 1, some "function"⟩,
      ⟨3, true, "arguments", 1, 4, some "arguments"⟩,
      ⟨4, true, "identifier", 2, 3, none⟩]).get (by decide +kernel)

/-- Demands on three nodes of which two displace each other's entries. -/
def rivalDemands : List Demand :=
  [.entry (.replace 1 "0"), .effect 2, .value 5, .entry (.removeItem 1), .entry (.removeItem 3),
    .entry (.replace 3 "g")]

/-- The statement goes as a whole, the callee as an item and the argument is replaced, in the order
given and in the reverse. -/
theorem rival_demands_settled :
    rivalDemands.reverse.Perm rivalDemands ∧
      OneText (callStatement.demandEntries rivalDemands) ∧
      ofDemands callStatement rivalDemands = ⟨[1], [3], [(5, "undefined")]⟩ ∧
      (ofDemands callStatement rivalDemands.reverse).SameTables
        (ofDemands callStatement rivalDemands) := by
  have hperm := List.reverse_perm rivalDemands
  have hentries : callStatement.demandEntries rivalDemands =
      [.replace 1 "0", .delete 1, .replace 5 "undefined", .removeItem 1, .removeItem 3,
        .replace 3 "g"] := by
    decide +kernel
  have hone : OneText (callStatement.demandEntries rivalDemands) := by
    rw [hentries]
    intro n x y hx hy
    simp only [List.mem_cons, Entry.replace.injEq, reduceCtorEq, List.not_mem_nil, or_false,
      false_or] at hx hy
    grind
  obtain ⟨-, -, -, hsame⟩ := tables_settled callStatement rivalDemands
  exact ⟨hperm, hone, by decide +kernel, hsame _ hperm hone⟩

end Plan

end Excise
