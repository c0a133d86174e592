/-!
# Tables

A table gives values to keys and keeps the order in which the keys came in. `Table.set` gives a
value to a key, in its place if it is there and else at the end; `Table.erase` takes a key out. Each
operation changes what is found under its own key and under no other.
-/

namespace Excise

/-- Keys with their values, in the order in which they came in. -/
abbrev Table (κ α : Type) := List (κ × α)

namespace Table

variable {κ α : Type} [DecidableEq κ]

/-- The value of a key. -/
def get? : Table κ α → κ → Option α
  | [], _ => none
  | e :: rest, k => if e.1 = k then some e.2 else get? rest k

/-- Give a value to a key, in its place if it is there and else at the end. -/
def set : Table κ α → κ → α → Table κ α
  | [], k, v => [(k, v)]
  | e :: rest, k, v => if e.1 = k then (k, v) :: rest else e :: set rest k v

/-- Take a key out. -/
def erase (t : Table κ α) (k : κ) : Table κ α := t.filter fun e => e.1 ≠ k

/-- The keys in order. -/
def keys (t : Table κ α) : List κ := t.map (·.1)

/-- The table of a list of entries, of which a later one counts and the first gives the place. -/
def ofList (entries : List (κ × α)) : Table κ α := entries.foldl (fun t e => set t e.1 e.2) []

@[simp]
theorem get?_nil (k : κ) : get? ([] : Table κ α) k = none := rfl

@[simp]
theorem get?_set_self (t : Table κ α) (k : κ) (v : α) : get? (set t k v) k = some v := by
  induction t with
  | nil => simp [set, get?]
  | cons e rest ih => by_cases h : e.1 = k <;> simp [set, get?, h, ih]

@[simp]
theorem get?_set_of_ne (t : Table κ α) {k k' : κ} (v : α) (h : k ≠ k') :
    get? (set t k v) k' = get? t k' := by
  induction t with
  | nil => simp [set, get?, h]
  | cons e rest ih =>
    by_cases he : e.1 = k
    · simp [set, get?, he, h]
    · simp [set, get?, he, ih]

@[simp]
theorem get?_erase_self (t : Table κ α) (k : κ) : get? (erase t k) k = none := by
  induction t with
  | nil => rfl
  | cons e rest ih => by_cases h : e.1 = k <;> simp_all [erase, get?]

@[simp]
theorem get?_erase_of_ne (t : Table κ α) {k k' : κ} (h : k ≠ k') :
    get? (erase t k) k' = get? t k' := by
  induction t with
  | nil => rfl
  | cons e rest ih =>
    by_cases he : e.1 = k
    · simp_all [erase, get?]
    · by_cases hk : e.1 = k' <;> simp_all [erase, get?]

theorem get?_eq_none_iff {t : Table κ α} {k : κ} : get? t k = none ↔ k ∉ keys t := by
  induction t with
  | nil => simp [keys]
  | cons e rest ih =>
    by_cases h : e.1 = k
    · simp [get?, keys, h]
    · simp only [get?, keys, List.map_cons, List.mem_cons, h, if_false, ih]
      simp [Ne.symm h]

/-- What is found under a key is an entry. -/
theorem mem_of_get? {t : Table κ α} {k : κ} {v : α} (h : get? t k = some v) : (k, v) ∈ t := by
  induction t with
  | nil => exact nomatch h
  | cons e rest ih =>
      by_cases he : e.1 = k
      · simp only [get?, he, if_true] at h
        obtain rfl := Option.some.inj h
        rw [← he]
        exact List.mem_cons_self
      · simp only [get?, he, if_false] at h
        exact List.mem_cons_of_mem _ (ih h)

/-- Where no key stands twice, the entries are what is found under their keys. -/
theorem get?_eq_some_iff {t : Table κ α} {e : κ × α} (h : (keys t).Nodup) :
    get? t e.1 = some e.2 ↔ e ∈ t := by
  constructor
  · exact mem_of_get?
  · intro hmem
    induction t with
    | nil => exact absurd hmem List.not_mem_nil
    | cons first rest ih =>
        obtain ⟨hfirst, hrest⟩ := List.nodup_cons.mp h
        rcases List.mem_cons.mp hmem with rfl | hmem
        · simp [get?]
        · have hne : first.1 ≠ e.1 := by
            intro heq
            refine hfirst ?_
            show first.1 ∈ keys rest
            rw [heq]
            exact List.mem_map_of_mem hmem
          simp only [get?, hne, if_false]
          exact ih hrest hmem

/-- Giving a value to a key adds that key and keeps the others. -/
theorem mem_keys_set {t : Table κ α} {k k' : κ} {v : α} :
    k' ∈ keys (set t k v) ↔ k' = k ∨ k' ∈ keys t := by
  induction t with
  | nil => simp [set, keys]
  | cons e rest ih =>
    by_cases he : e.1 = k
    · simp [set, keys, he]
    · have hset : keys (set (e :: rest) k v) = e.1 :: keys (set rest k v) := by simp [set, keys, he]
      have hkeys : keys (e :: rest) = e.1 :: keys rest := rfl
      rw [hset, hkeys, List.mem_cons, List.mem_cons, ih, or_left_comm]

/-- Taking a key out keeps the others. -/
theorem mem_keys_erase {t : Table κ α} {k k' : κ} :
    k' ∈ keys (erase t k) ↔ k' ≠ k ∧ k' ∈ keys t := by
  simp only [keys, erase, List.mem_map, List.mem_filter, decide_eq_true_eq]
  constructor
  · rintro ⟨e, ⟨he, hne⟩, rfl⟩
    exact ⟨hne, e, he, rfl⟩
  · rintro ⟨hne, e, he, rfl⟩
    exact ⟨e, ⟨he, hne⟩, rfl⟩

/-- Looking up in a table of which some keys were left out. -/
theorem get?_filter (t : Table κ α) (keep : κ → Prop) [DecidablePred keep] (k : κ) :
    get? (t.filter fun e => keep e.1) k = if keep k then get? t k else none := by
  induction t with
  | nil => simp
  | cons e rest ih =>
      by_cases hk : e.1 = k
      · subst hk
        by_cases hkeep : keep e.1
        · simp [hkeep, get?]
        · simp [hkeep, ih]
      · by_cases hkeep : keep e.1 <;> simp [hkeep, get?, hk, ih]

/-- A key that is new comes in at the end. -/
theorem set_of_new {t : Table κ α} {k : κ} (h : k ∉ keys t) (v : α) :
    set t k v = t ++ [(k, v)] := by
  induction t with
  | nil => rfl
  | cons e rest ih =>
      have hhead : e.1 ≠ k := fun heq => h (heq ▸ List.mem_cons_self)
      have hrest : k ∉ keys rest := fun hk => h (List.mem_cons_of_mem _ hk)
      simp [set, hhead, ih hrest]

/-- Giving a value to a key brings no key in twice. -/
theorem nodup_keys_set {t : Table κ α} {k : κ} {v : α} (h : (keys t).Nodup) :
    (keys (set t k v)).Nodup := by
  induction t with
  | nil => simp [set, keys]
  | cons e rest ih =>
      have hkeys : keys (e :: rest) = e.1 :: keys rest := rfl
      rw [hkeys, List.nodup_cons] at h
      by_cases he : e.1 = k
      · have hset : keys (set (e :: rest) k v) = k :: keys rest := by simp [set, keys, he]
        rw [hset, List.nodup_cons, ← he]
        exact h
      · have hset : keys (set (e :: rest) k v) = e.1 :: keys (set rest k v) := by
          simp [set, keys, he]
        rw [hset, List.nodup_cons]
        refine ⟨fun hmem => ?_, ih h.2⟩
        rcases mem_keys_set.mp hmem with heq | hmem
        · exact he heq
        · exact h.1 hmem

/-- An entry after a key was given a value is that one or an old one. -/
theorem mem_of_mem_set {t : Table κ α} {k : κ} {v : α} {e : κ × α} (h : e ∈ set t k v) :
    e = (k, v) ∨ e ∈ t := by
  induction t with
  | nil => exact .inl (List.mem_singleton.mp h)
  | cons e' rest ih =>
      by_cases he : e'.1 = k
      · simp only [set, he, if_true] at h
        rcases List.mem_cons.mp h with rfl | h
        · exact .inl rfl
        · exact .inr (List.mem_cons_of_mem _ h)
      · simp only [set, he, if_false] at h
        rcases List.mem_cons.mp h with rfl | h
        · exact .inr List.mem_cons_self
        · exact (ih h).imp_right (List.mem_cons_of_mem _)

/-- The table of a list has no key twice, and its entries are some of the list. -/
theorem of_list_entries (entries : List (κ × α)) :
    (keys (ofList entries)).Nodup ∧ ∀ e ∈ ofList entries, e ∈ entries := by
  have hfold : ∀ (rest : List (κ × α)) (t : Table κ α), (keys t).Nodup →
      (∀ e ∈ t, e ∈ entries) → (∀ e ∈ rest, e ∈ entries) →
      (keys (rest.foldl (fun t e => set t e.1 e.2) t)).Nodup ∧
        ∀ e ∈ rest.foldl (fun t e => set t e.1 e.2) t, e ∈ entries := by
    intro rest
    induction rest with
    | nil => exact fun t hnodup ht _ => ⟨hnodup, ht⟩
    | cons e rest ih =>
        intro t hnodup ht hrest
        refine ih _ (nodup_keys_set hnodup) (fun e' he' => ?_)
          fun e' he' => hrest e' (List.mem_cons_of_mem _ he')
        rcases mem_of_mem_set he' with rfl | he'
        · exact hrest e List.mem_cons_self
        · exact ht e' he'
  exact hfold entries [] List.nodup_nil (by simp) fun _ he => he

/-- The table of a list with no key twice is the list. -/
theorem of_list_of_nodup {entries : List (κ × α)} (h : (keys entries).Nodup) :
    ofList entries = entries := by
  have hfold : ∀ (rest : List (κ × α)) (t : Table κ α), (keys (t ++ rest)).Nodup →
      rest.foldl (fun t e => set t e.1 e.2) t = t ++ rest := by
    intro rest
    induction rest with
    | nil => simp
    | cons e rest ih =>
        intro t hnodup
        have hnew : e.1 ∉ keys t := by
          intro hmem
          rw [keys, List.map_append, List.map_cons, List.nodup_append] at hnodup
          exact hnodup.2.2 _ hmem _ List.mem_cons_self rfl
        have hassoc : t ++ e :: rest = t ++ [(e.1, e.2)] ++ rest := by simp
        rw [List.foldl_cons, set_of_new hnew, hassoc]
        exact ih _ (by rwa [← hassoc])
  exact hfold entries [] h

end Table

end Excise
