import Excise.Backup.Store
import Excise.Proofs.Files.Disk

/-!
# Running actions

An action that runs from a state ends with an outcome and a state. What the parts of an action do
is put together by `run_bind_cases` and `run_bind_of_ok`; the primitives of `BackupAction` say
themselves what they do.
-/

namespace Excise

section Sequencing

variable {ε σ α β : Type} {x : ExceptT ε (StateM σ) α} {f : α → ExceptT ε (StateM σ) β}
  {s s' s'' : σ} {a : α} {e : ε} {r : Except ε β} {r' : Except ε α}

/-- The second action runs from where the first one ended. -/
theorem run_bind_of_ok (h : x.run s = (.ok a, s')) : (x >>= f).run s = (f a).run s' := by
  show (ExceptT.run x >>= ExceptT.bindCont f) s = _
  show (match (ExceptT.run x) s with | (r, s') => ExceptT.bindCont f r s') = _
  rw [h]
  rfl

/-- A failure of the first action is that of both. -/
theorem run_bind_of_error (h : x.run s = (.error e, s')) :
    (x >>= f).run s = (.error e, s') := by
  show (match (ExceptT.run x) s with | (r, s') => ExceptT.bindCont f r s') = _
  rw [h]
  rfl

/-- Two actions in turn fail in the first, or go on to the second. -/
theorem run_bind_cases (h : (x >>= f).run s = (r, s'')) :
    (∃ e, x.run s = (.error e, s'') ∧ r = .error e) ∨
      ∃ a s', x.run s = (.ok a, s') ∧ (f a).run s' = (r, s'') := by
  rcases hx : x.run s with ⟨outcome, s'⟩
  cases outcome with
  | error e =>
      rw [run_bind_of_error hx] at h
      obtain ⟨rfl, rfl⟩ := Prod.mk.inj h
      exact .inl ⟨e, rfl, rfl⟩
  | ok a =>
      rw [run_bind_of_ok hx] at h
      exact .inr ⟨a, s', rfl, h⟩

/-- Where the first action changes nothing, its outcome decides what follows. -/
theorem run_bind_unchanged (hx : x.run s = (r', s)) (h : (x >>= f).run s = (r, s'')) :
    (∃ e, r' = .error e ∧ r = .error e ∧ s = s'') ∨
      ∃ a, r' = .ok a ∧ (f a).run s = (r, s'') := by
  obtain ⟨e, hfirst, hr⟩ | ⟨a, s', hfirst, hsecond⟩ := run_bind_cases h
  · obtain ⟨rfl, rfl⟩ := Prod.mk.inj (hx.symm.trans hfirst)
    exact .inl ⟨e, rfl, hr, rfl⟩
  · obtain ⟨rfl, rfl⟩ := Prod.mk.inj (hx.symm.trans hfirst)
    exact .inr ⟨a, rfl, hsecond⟩

@[simp]
theorem run_pure (a : α) (s : σ) : (pure a : ExceptT ε (StateM σ) α).run s = (.ok a, s) := rfl

@[simp]
theorem run_throw (e : ε) (s : σ) :
    (throw e : ExceptT ε (StateM σ) α).run s = (.error e, s) := rfl

@[simp]
theorem run_of_except (r : Except ε α) (s : σ) :
    (ofExcept r : ExceptT ε (StateM σ) α).run s = (r, s) := by
  cases r <;> rfl

/-- An action whose failure is caught by another. -/
theorem run_catch (x : ExceptT ε (StateM σ) α) (handle : ε → ExceptT ε (StateM σ) α) (s : σ) :
    (tryCatch x handle).run s =
      match x.run s with
      | (.ok a, s') => (.ok a, s')
      | (.error e, s') => (handle e).run s' := by
  show (match (ExceptT.run x) s with
    | (r, s') =>
        (match r with | .ok a => pure (Except.ok a) | .error e => handle e : StateM σ _) s') = _
  rcases x.run s with ⟨outcome, s'⟩
  cases outcome <;> rfl

/-- The action leaves a part of the state as it is. -/
def Keeps {τ : Type} (part : σ → τ) (x : ExceptT ε (StateM σ) α) : Prop :=
  ∀ s, part (x.run s).2 = part s

variable {τ : Type} {part : σ → τ}

theorem keeps_pure (a : α) : Keeps part (pure a : ExceptT ε (StateM σ) α) := fun _ => rfl

theorem keeps_throw (e : ε) : Keeps part (throw e : ExceptT ε (StateM σ) α) := fun _ => rfl

theorem keeps_of_except (r : Except ε α) : Keeps part (ofExcept r : ExceptT ε (StateM σ) α) :=
  fun s => by rw [run_of_except]

/-- What is kept is as before where an action ends. -/
theorem Keeps.eq (hx : Keeps part x) (h : x.run s = (r', s')) : part s' = part s := by
  rw [← hx s, h]

/-- Two actions in turn keep what each keeps. -/
theorem Keeps.bind (hx : Keeps part x) (hf : ∀ a, Keeps part (f a)) : Keeps part (x >>= f) := by
  intro s
  rcases hrun : (x >>= f).run s with ⟨r, s'⟩
  rcases run_bind_cases hrun with ⟨e, hfirst, -⟩ | ⟨a, middle, hfirst, hsecond⟩
  · exact hx.eq hfirst
  · exact ((hf a).eq hsecond).trans (hx.eq hfirst)

/-- An action for each item keeps what the action for one keeps. -/
theorem keeps_map_m {g : α → ExceptT ε (StateM σ) β} (hg : ∀ a, Keeps part (g a))
    (items : List α) : Keeps part (items.mapM g) := by
  induction items with
  | nil => exact keeps_pure []
  | cons a rest ih =>
      rw [List.mapM_cons]
      exact (hg a).bind fun b => ih.bind fun others => keeps_pure (b :: others)

/-- An action for each item gives what each gives, if none changes the state. -/
theorem run_map_m {g : α → ExceptT ε (StateM σ) β} {result : α → β}
    (hg : ∀ a, (g a).run s = (.ok (result a), s)) (items : List α) :
    (items.mapM g).run s = (.ok (items.map result), s) := by
  induction items with
  | nil => rfl
  | cons a rest ih =>
      rw [List.mapM_cons, run_bind_of_ok (hg a), run_bind_of_ok ih]
      rfl

end Sequencing

namespace BackupAction

variable {α β : Type} (host : Host)

@[simp]
theorem run_files : files.run host = (.ok host.files, host) := rfl

@[simp]
theorem run_make_id : makeId.run host =
    (.ok (host.newId host.idsMade), { host with idsMade := host.idsMade + 1 }) := rfl

@[simp]
theorem run_take_time : takeTime.run host =
    (.ok (host.newTime host.timesTaken), { host with timesTaken := host.timesTaken + 1 }) := rfl

variable {host} {host' : Host} {r : Except BackupError β}

/-- Looking at files changes nothing. -/
theorem reading_cases {operation : FileSystem → Except FileError α} {r : Except BackupError α}
    (h : (reading operation).run host = (r, host')) : host = host' ∧
      ((∃ e, operation host.files = .error e ∧ r = .error (.files e)) ∨
        ∃ a, operation host.files = .ok a ∧ r = .ok a) := by
  unfold reading at h
  rw [run_bind_of_ok (run_files host)] at h
  cases hoperation : operation host.files with
  | error e =>
      rw [hoperation] at h
      obtain ⟨rfl, rfl⟩ := Prod.mk.inj h
      exact ⟨rfl, .inl ⟨e, rfl, rfl⟩⟩
  | ok a =>
      rw [hoperation] at h
      obtain ⟨rfl, rfl⟩ := Prod.mk.inj h
      exact ⟨rfl, .inr ⟨a, rfl, rfl⟩⟩

/-- Looking at files ends an action, or it goes on from where it was. -/
theorem reading_bind_cases {operation : FileSystem → Except FileError α} {f : α → BackupAction β}
    (h : (reading operation >>= f).run host = (r, host')) :
    (∃ e, r = .error e ∧ host = host') ∨
      ∃ a, operation host.files = .ok a ∧ (f a).run host = (r, host') := by
  obtain ⟨e, hlook, rfl⟩ | ⟨a, middle, hlook, hrest⟩ := run_bind_cases h
  · exact .inl ⟨e, rfl, (reading_cases hlook).1⟩
  · obtain ⟨rfl, ⟨e, -, hr⟩ | ⟨a', hlooked, hr⟩⟩ := reading_cases hlook
    · exact nomatch hr
    · obtain rfl := Except.ok.inj hr
      exact .inr ⟨a, hlooked, hrest⟩

theorem keeps_reading {τ : Type} {part : Host → τ}
    (operation : FileSystem → Except FileError α) : Keeps part (reading operation) := by
  intro host
  rcases hrun : (reading operation).run host with ⟨r, host'⟩
  exact congrArg part (reading_cases hrun).1.symm

theorem run_reading_of_ok {operation : FileSystem → Except FileError α} {a : α}
    (h : operation host.files = .ok a) : (reading operation).run host = (.ok a, host) := by
  unfold reading
  rw [run_bind_of_ok (run_files host), h]
  rfl

theorem run_reading_of_error {operation : FileSystem → Except FileError α} {e : FileError}
    (h : operation host.files = .error e) :
    (reading operation).run host = (.error (.files e), host) := by
  unfold reading
  rw [run_bind_of_ok (run_files host), h]
  rfl

section

variable {change : Change} {disk : Disk}

/-- What is done to the files is done by the disk. -/
theorem run_changing (host : Host) : (changing change disk).run host =
    (match (disk.carryOut host.files change).1 with
      | .ok () => .ok ()
      | .error e => .error (.files e),
      { host with files := (disk.carryOut host.files change).2 }) := by
  unfold changing
  rw [run_bind_of_ok (run_files host)]
  rcases disk.carryOut host.files change with ⟨_ | _, files⟩ <;> rfl

/-- A change of the files is carried out, or fails and leaves what the disk leaves. Nothing else
changes. -/
theorem changing_cases {r : Except BackupError Unit}
    (h : (changing change disk).run host = (r, host')) :
    ∃ files, host' = { host with files } ∧
      ((∃ e, r = .error (.files e) ∧ disk.Leaves change host.files files) ∨
        r = .ok () ∧ change.whole host.files = .ok files) := by
  rw [run_changing] at h
  rcases hcarry : disk.carryOut host.files change with ⟨outcome, files⟩
  rw [hcarry] at h
  rcases Disk.carry_out_cases hcarry with ⟨e, rfl, hleaves⟩ | ⟨rfl, hwhole⟩
  · obtain ⟨rfl, rfl⟩ := Prod.mk.inj h
    exact ⟨files, rfl, .inl ⟨e, rfl, hleaves⟩⟩
  · obtain ⟨rfl, rfl⟩ := Prod.mk.inj h
    exact ⟨files, rfl, .inr ⟨rfl, hwhole⟩⟩

/-- A change of the files ends an action, or it goes on with what they are then. -/
theorem changing_bind_cases {f : Unit → BackupAction β}
    (h : (changing change disk >>= f).run host = (r, host')) :
    (∃ e files, r = .error e ∧ host' = { host with files } ∧
        disk.Leaves change host.files files) ∨
      ∃ files, change.whole host.files = .ok files ∧
        (f ()).run { host with files } = (r, host') := by
  obtain ⟨e, hchange, rfl⟩ | ⟨u, middle, hchange, hrest⟩ := run_bind_cases h
  · obtain ⟨files, rfl, ⟨_, -, hleaves⟩ | ⟨hr, -⟩⟩ := changing_cases hchange
    · exact .inl ⟨e, files, rfl, rfl, hleaves⟩
    · exact nomatch hr
  · obtain ⟨files, rfl, ⟨_, hr, -⟩ | ⟨-, hwhole⟩⟩ := changing_cases hchange
    · exact nomatch hr
    · exact .inr ⟨files, hwhole, hrest⟩

/-- A change of the files uses up no id. -/
theorem changing_keeps_ids (change : Change) (disk : Disk) :
    Keeps Host.idsMade (changing change disk) := fun host => by rw [run_changing]

/-- A reliable disk carries out a change that nothing is in the way of. -/
theorem run_changing_of_ok {files : FileSystem} (h : change.whole host.files = .ok files) :
    (changing change).run host = (.ok (), { host with files }) := by
  rw [run_changing, Disk.carry_out_reliable_of_ok h]

/-- Where something is in the way of a change, a reliable disk leaves all as it is. -/
theorem run_changing_of_error {e : FileError} (h : change.whole host.files = .error e) :
    (changing change).run host = (.error (.files e), host) := by
  rw [run_changing, Disk.carry_out_reliable_of_error h]

end

end BackupAction

namespace Store

/-! Some operations of a store only look. -/

variable {τ : Type} {part : Host → τ}

theorem keeps_read_ledger (store : Store) (disk : Disk) : Keeps part (store.readLedger disk) := by
  unfold readLedger
  refine Keeps.bind (fun _ => rfl) fun files => ?_
  split
  · exact keeps_pure _
  · split
    · exact fun _ => rfl
    · exact keeps_of_except _

theorem keeps_records (store : Store) (disk : Disk) : Keeps part (store.records disk) :=
  (store.keeps_read_ledger disk).bind fun _ => keeps_of_except _

theorem keeps_pending (store : Store) (disk : Disk) : Keeps part (store.pending disk) :=
  (store.keeps_records disk).bind fun _ => keeps_of_except _

theorem keeps_info (store : Store) (disk : Disk) : Keeps part (store.info disk) := by
  refine (store.keeps_records disk).bind fun _ => (store.keeps_pending disk).bind fun _ => ?_
  refine (keeps_map_m (fun record => ?_) _).bind fun _ => keeps_pure _
  exact (keeps_of_except _).bind fun _ => keeps_of_except _

theorem keeps_find (store : Store) (id : Json) (disk : Disk) : Keeps part (store.find? id disk) :=
  (store.keeps_records disk).bind fun _ => keeps_of_except _

/-- Writing the manifest uses up no id. -/
theorem write_ledger_keeps_ids (store : Store) (manifest : Fields) (disk : Disk) :
    Keeps Host.idsMade (store.writeLedger manifest disk) :=
  (BackupAction.changing_keeps_ids _ _).bind fun _ => BackupAction.changing_keeps_ids _ _

/-- Adding a record uses up no id. -/
theorem add_record_keeps_ids (store : Store) (id originalPath copyPath reason fileHash : String)
    (disk : Disk) :
    Keeps Host.idsMade (store.addRecord id originalPath copyPath reason fileHash disk) := by
  refine (store.keeps_read_ledger disk).bind fun _ => Keeps.bind (fun _ => rfl) fun _ => ?_
  exact (keeps_of_except _).bind fun _ => store.write_ledger_keeps_ids _ disk

/-- A backup uses up one id, or fails and changes nothing. -/
theorem backup_ids {store : Store} {host host' : Host} {path : Path} {reason : String}
    {disk : Disk} {r : Except BackupError String}
    (h : (store.backup path reason disk).run host = (r, host')) :
    (∃ e, r = .error e) ∧ host' = host ∨ host'.idsMade = host.idsMade + 1 := by
  unfold backup at h
  obtain ⟨e, rfl, rfl⟩ | ⟨found, -, hrest⟩ := BackupAction.reading_bind_cases h
  · exact .inl ⟨⟨e, rfl⟩, rfl⟩
  cases found with
  | false =>
      obtain ⟨rfl, rfl⟩ := Prod.mk.inj hrest
      exact .inl ⟨⟨_, rfl⟩, rfl⟩
  | true =>
      rw [if_neg (by simp), run_bind_of_ok (BackupAction.run_make_id _)] at hrest
      right
      refine Keeps.eq ?_ hrest
      refine (BackupAction.changing_keeps_ids _ _).bind fun _ => ?_
      refine Keeps.bind ((BackupAction.keeps_reading _).bind fun _ => keeps_pure _) fun _ => ?_
      refine (BackupAction.changing_keeps_ids _ _).bind fun _ => ?_
      refine Keeps.bind (fun _ => rfl) fun _ => ?_
      exact (store.add_record_keeps_ids _ _ _ _ _ _).bind fun _ => keeps_pure _

end Store

end Excise
