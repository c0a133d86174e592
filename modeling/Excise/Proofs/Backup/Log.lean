import Excise.Proofs.Backup.Turns

/-!
# The manifest as a log

What happened in a store is a list of events: a backup was taken, or one was released, which means
that it was restored or marked (`Ledger.Event`). The entries of a list of events have one for each
backup, in order, whose flag says whether the backup was released later on (`Ledger.entriesOf`). In
a run any number of stores are opened on one directory, operations go through any of them, and
others change whatever they like but the manifest (`Store.LogRun`). The manifest then always holds
the entries of the events (`manifest_is_log`).
-/

namespace Excise

namespace Ledger

/-- A backup was taken, or the one of an id was restored or marked. -/
inductive Event where
  | taken (b : Backup)
  | released (id : Json)

/-- The event releases the backup. -/
def Event.releases (b : Backup) : Event → Bool
  | .taken _ => false
  | .released id => Json.same (.text b.id) id

/-- The entries of a list of events: one for each backup, in order, which is restored if a later
event releases it. -/
def entriesOf : List Event → List BackupEntry
  | [] => []
  | .taken b :: later => ⟨b, later.any (Event.releases b)⟩ :: entriesOf later
  | .released _ :: later => entriesOf later

variable {events more : List Event} {entries : List BackupEntry} {b : Backup} {e : BackupEntry}
  {id : Json}

/-- The entry after some more events. -/
def BackupEntry.after (more : List Event) (e : BackupEntry) : BackupEntry :=
  ⟨e.backup, e.restored || more.any (Event.releases e.backup)⟩

/-- Later events add entries, and can set the flags of those that are there. -/
theorem entries_of_append (events more : List Event) :
    entriesOf (events ++ more) =
      (entriesOf events).map (BackupEntry.after more) ++ entriesOf more := by
  induction events with
  | nil => rfl
  | cons event later ih =>
      cases event with
      | taken b => simp [entriesOf, ih, BackupEntry.after, List.any_append]
      | released id => simpa [entriesOf] using ih

/-- A backup that is taken comes last, and is not restored. -/
theorem entries_of_taken (events : List Event) (b : Backup) :
    entriesOf (events ++ [.taken b]) = entriesOf events ++ [.ofBackup b] := by
  have hsame : BackupEntry.after [.taken b] = id := by
    funext e
    simp [BackupEntry.after, Event.releases]
  rw [entries_of_append, hsame, List.map_id]
  rfl

/-- Entries stay in their places with their backups, and those that are restored stay so. -/
theorem entries_of_grow (events more : List Event) :
    Grows (entriesOf events) (entriesOf (events ++ more)) := by
  intro i e he
  obtain ⟨hlt, -⟩ := List.getElem?_eq_some_iff.mp he
  refine ⟨e.after more, ?_, rfl, fun hrestored => by simp [BackupEntry.after, hrestored]⟩
  rw [entries_of_append, List.getElem?_append_left (by simpa using hlt), List.getElem?_map, he]
  rfl

/-- What is released adds no entry. -/
theorem entries_of_releases (ids : List Json) : entriesOf (ids.map .released) = [] := by
  induction ids with
  | nil => rfl
  | cons id rest ih => exact ih

/-- Where no id comes twice, marking the first entry of an id marks all that have it. -/
theorem mark_first_eq_map (hdistinct : (entries.map fun e => e.backup.id).Nodup) (id : Json) :
    markFirst id entries = entries.map (BackupEntry.after [.released id]) := by
  induction entries with
  | nil => rfl
  | cons e rest ih =>
      obtain ⟨hnot, hrest⟩ := List.nodup_cons.mp hdistinct
      rw [markFirst, List.map_cons]
      by_cases hid : e.HasId id
      · -- None of the others has the id.
        have hsame : ∀ e' ∈ rest, BackupEntry.after [.released id] e' = e' := by
          intro e' he'
          have hother : ¬ e'.HasId id := by
            intro hid'
            have hboth := ((Json.same_text _ _).mp hid').symm.trans ((Json.same_text _ _).mp hid)
            exact hnot (List.mem_map.mpr ⟨e', he', Json.text.inj hboth⟩)
          simp [BackupEntry.after, Event.releases, Bool.eq_false_iff.mpr hother]
        rw [if_pos hid, List.map_congr_left hsame, List.map_id']
        have hsame' : Json.same (.text e.backup.id) id = true := hid
        simp [BackupEntry.after, Event.releases, BackupEntry.marked, hsame']
      · rw [if_neg hid, ih hrest]
        simp [BackupEntry.after, Event.releases, Bool.eq_false_iff.mpr hid]

/-- An event that releases an id marks its first entry. -/
theorem entries_of_released (hdistinct : ((entriesOf events).map fun e => e.backup.id).Nodup)
    (id : Json) : entriesOf (events ++ [.released id]) = markFirst id (entriesOf events) := by
  rw [entries_of_append, mark_first_eq_map hdistinct]
  exact List.append_nil _

/-- Marking changes no id. -/
theorem ids_mark_first (id : Json) (entries : List BackupEntry) :
    ((markFirst id entries).map fun e => e.backup.id) = entries.map fun e => e.backup.id := by
  induction entries with
  | nil => rfl
  | cons e rest ih =>
      rw [markFirst]
      split
      · rfl
      · rw [List.map_cons, List.map_cons, ih]

/-- Each entry is pending or restored. -/
theorem count_entries (entries : List BackupEntry) :
    entries.length = (entries.filter fun e => !e.restored).length +
      (entries.filter BackupEntry.restored).length := by
  rw [← List.countP_eq_length_filter, ← List.countP_eq_length_filter, Nat.add_comm,
    List.length_eq_countP_add_countP BackupEntry.restored]
  simp

/-- Where no id comes twice, each entry is the first one of its id. -/
theorem find_of_distinct (hdistinct : (entries.map fun e => e.backup.id).Nodup) (he : e ∈ entries) :
    (entries.find? fun e' => e'.HasId (.text e.backup.id)) = some e := by
  obtain ⟨front, back, rfl⟩ := List.append_of_mem he
  refine find_append_iff.mpr ⟨(e.has_id_text _).mpr rfl, front, back, rfl, fun e' he' hid => ?_⟩
  rw [List.map_append, List.map_cons] at hdistinct
  have hother := (List.nodup_append.mp hdistinct).2.2 _ (List.mem_map_of_mem he') _
    List.mem_cons_self
  exact hother ((e'.has_id_text _).mp hid)

end Ledger

namespace Store

open Ledger (Backup BackupEntry Event entriesOf Grows)

variable {store : Store} {home location : Location} {fs fs' fs'' : FileSystem} {host host' : Host}
  {entries entries' : List BackupEntry} {b : Backup} {e : BackupEntry} {id : Json} {path : Path}

/-! ## What an operation leaves -/

/-- The store is sound, with some entries, and no directory went away. -/
structure Reaches (store : Store) (home : Location) (fs fs' : FileSystem)
    (entries : List BackupEntry) : Prop where
  sound : IsSound store home fs' entries
  kept : fs.KeepsDirectories fs'

theorem Reaches.refl (hsound : IsSound store home fs entries) :
    Reaches store home fs fs entries := ⟨hsound, .refl fs⟩

theorem Reaches.trans (h : Reaches store home fs fs' entries)
    (h' : Reaches store home fs' fs'' entries') : Reaches store home fs fs'' entries' :=
  ⟨h'.sound, h.kept.trans h'.kept⟩

/-- Releasing an id succeeds and marks its first entry, or it fails and leaves the entries. -/
def Releasing (store : Store) (home : Location) (fs fs' : FileSystem) (id : Json)
    (entries : List BackupEntry) (r : Except BackupError Unit) : Prop :=
  (r = .ok () ∧ Reaches store home fs fs' (Ledger.markFirst id entries)) ∨
    ∃ error : BackupError, r = .error error ∧ error.Separable ∧ Reaches store home fs fs' entries

/-- Where the manifest cannot be written, others can still be restored. -/
theorem write_ledger_separable {manifest : Fields} {error : BackupError}
    (h : (store.writeLedger manifest).run host = (.error error, host')) : error.Separable := by
  obtain ⟨_, hdraft, hr⟩ | ⟨-, middle, -, hrename⟩ := run_bind_cases h
  · obtain ⟨_, -, ⟨e, hr', -⟩ | ⟨hr', -⟩⟩ := BackupAction.changing_cases hdraft
    · obtain rfl := Except.error.inj (hr.trans hr')
      trivial
    · exact nomatch hr'
  · obtain ⟨_, -, ⟨e, hr, -⟩ | ⟨hr, -⟩⟩ := BackupAction.changing_cases hrename
    · obtain rfl := Except.error.inj hr
      trivial
    · exact nomatch hr

/-- Setting the flag of an id releases it. -/
theorem set_restored_releasing {r : Except BackupError Unit}
    (hsound : IsSound store home host.files entries)
    (h : (store.setRestored id).run host = (r, host')) :
    Releasing store home host.files host'.files id entries r := by
  cases r with
  | ok u =>
      obtain ⟨hsound', -, hchanges⟩ := set_restored_sound hsound h
      exact .inl ⟨rfl, hsound', hchanges.toKeepsDirectories⟩
  | error error =>
      have hwrite : (store.writeLedger
          (Ledger.manifestOf (Ledger.markFirst id entries))).run host = (.error error, host') := by
        unfold setRestored at h
        rwa [run_bind_of_ok
            (by rw [run_read_ledger hsound.isOpen (Disk.reads_reliable _), hsound.ledger]),
          run_bind_of_ok (by rw [run_of_except, Ledger.set_restored_manifest])] at h
      obtain ⟨files, rfl, hfiles, ⟨_, -, hdraft⟩ | ⟨hr, -⟩⟩ :=
        write_ledger_cases hsound.isOpen.toStands hwrite
      · obtain ⟨hsound', -⟩ :=
          sound_of_same hsound hfiles hdraft (fun _ _ hl => .inl hl) fun _ => False.elim
        exact .inr ⟨error, rfl, write_ledger_separable hwrite, hsound', hdraft.toKeepsDirectories⟩
      · exact nomatch hr

/-- Making the directory of a file outside the store leaves the entries. -/
theorem make_parent_reaches {made : FileSystem} (hsound : IsSound store home fs entries)
    (hplain : path.IsPlain) (houtside : Avoids home fs path)
    (h : fs.makeDirectories path.parent = .ok made) : Reaches store home fs made entries :=
  ⟨(make_parent_sound hsound hplain houtside h).1,
    (FileSystem.make_directories_changes hsound.isOpen.wellFormed
      hplain.parent h).2.1.toKeepsDirectories⟩

/-- Copying a file to a path outside the store leaves the entries. -/
theorem copy_back_reaches {copied : FileSystem} {source : Path}
    (hsound : IsSound store home fs entries) (hplain : path.IsPlain)
    (houtside : Avoids home fs path) (h : fs.copy source path = .ok copied) :
    Reaches store home fs copied entries := by
  obtain ⟨target, bytes, -, -, -, -, hchanges, -⟩ :=
    copied_back hsound.isOpen.wellFormed hsound.isOpen.directory hplain houtside.place h
  exact ⟨(copy_back_sound hsound hplain houtside h).1, hchanges.toKeepsDirectories⟩

/-- Restoring an id releases it. -/
theorem restore_releasing {r : Except BackupError Unit}
    (hsound : IsSound store home host.files entries)
    (h : (store.restore id).run host = (r, host')) :
    Releasing store home host.files host'.files id entries r := by
  rw [run_restore hsound] at h
  cases hfind : entries.find? fun e => e.HasId id with
  | none =>
      rw [hfind] at h
      obtain ⟨rfl, rfl⟩ := Prod.mk.inj h
      exact .inr ⟨_, rfl, trivial, .refl hsound⟩
  | some e =>
      rw [hfind] at h
      cases hrestored : e.restored with
      | true =>
          simp only [hrestored, if_true] at h
          obtain ⟨rfl, rfl⟩ := Prod.mk.inj h
          refine .inl ⟨rfl, ?_⟩
          rw [Ledger.mark_first_restored hfind hrestored]
          exact .refl hsound
      | false =>
          simp only [hrestored, Bool.false_eq_true, if_false] at h
          have hplain : (Path.ofText e.backup.originalPath).IsPlain := Path.is_plain_of_text _
          have houtside := hsound.outside e (List.mem_of_find?_eq_some hfind)
          rcases run_restore_record_cases store host id e with ⟨error, hseparable, hrun, -⟩ |
            ⟨made, error, -, hmakes, -, hrun⟩ | ⟨made, copied, -, hmakes, hcopies, hrun⟩
          · obtain ⟨rfl, rfl⟩ := Prod.mk.inj (hrun.symm.trans h)
            exact .inr ⟨error, rfl, hseparable, .refl hsound⟩
          · obtain ⟨rfl, rfl⟩ := Prod.mk.inj (hrun.symm.trans h)
            exact .inr ⟨_, rfl, trivial, make_parent_reaches hsound hplain houtside hmakes⟩
          · have hmade := make_parent_reaches hsound hplain houtside hmakes
            have hcopied : Reaches store home made { host with files := copied }.files entries :=
              copy_back_reaches hmade.sound hplain
                (houtside.of_same hmade.kept.workingDirectory) hcopies
            have hboth := hmade.trans hcopied
            exact (set_restored_releasing hcopied.sound (hrun.symm.trans h)).imp
              (fun h => ⟨h.1, hboth.trans h.2⟩)
              fun ⟨error, hr, hseparable, hreaches⟩ => ⟨error, hr, hseparable, hboth.trans hreaches⟩

/-- Restoring keeps a store sound, and its failures leave others to be restored. -/
theorem sound_restored (id : Json) (host host' : Host) (r : Except BackupError Unit)
    (h : ∃ entries, IsSound store home host.files entries)
    (hrun : (store.restore id).run host = (r, host')) :
    (∃ entries, IsSound store home host'.files entries) ∧
      ∀ error, r = .error error → error.Separable := by
  obtain ⟨entries, hsound⟩ := h
  obtain ⟨rfl, hreaches⟩ | ⟨error, rfl, hseparable, hreaches⟩ := restore_releasing hsound hrun
  · exact ⟨⟨_, hreaches.sound⟩, nofun⟩
  · exact ⟨⟨_, hreaches.sound⟩, fun other hother => Except.error.inj hother ▸ hseparable⟩

/-- Restoring ids in turn releases those that it restores. The induction is on the ids. -/
theorem turns_release {events : List Event} (ids : List Json)
    (hsound : IsSound store home host.files (entriesOf events))
    (hdistinct : ((entriesOf events).map fun e => e.backup.id).Nodup) :
    Reaches store home host.files (store.turns host ids).last.files
      (entriesOf (events ++ (store.turns host ids).restored.map .released)) := by
  induction ids generalizing host events with
  | nil =>
      rw [turns, List.map_nil, List.append_nil]
      exact .refl hsound
  | cons id rest ih =>
      by_cases hnull : id = .null
      · subst hnull
        exact ih hsound hdistinct
      rcases hrun : (store.restore id).run host with ⟨r, next⟩
      obtain ⟨rfl, hreaches⟩ | ⟨error, rfl, -, hreaches⟩ := restore_releasing hsound hrun
      · rw [turns_of_ok _ hnull hrun]
        rw [← Ledger.entries_of_released hdistinct] at hreaches
        have hdistinct' :
            ((entriesOf (events ++ [.released id])).map fun e => e.backup.id).Nodup := by
          rwa [Ledger.entries_of_released hdistinct, Ledger.ids_mark_first]
        have hlater := ih hreaches.sound hdistinct'
        rw [List.append_assoc] at hlater
        exact hreaches.trans hlater
      · rw [turns_of_error _ hnull hrun]
        exact hreaches.trans (ih hreaches.sound hdistinct)

/-! ## Runs -/

/-- What the record of a backup says: its id, where the file is and where its copy, the time, the
reason, and the digest of the content. -/
def backupOf (store : Store) (host : Host) (id : String) (path : Path) (reason : String) :
    Backup :=
  ⟨id, (host.files.absolute path).text, (store.copyPath id path).text,
    host.newTime host.timesTaken, reason,
    Digest.sha256Hex ((host.files.read path).toOption.getD [])⟩

/-- The events of an operation: none if it fails, or only looks. Of several ids those are released
that are restored. -/
def Operation.events (store : Store) (host : Host) : Operation → List Event
  | .backup path reason =>
      match ((store.backup path reason).run host).1 with
      | .ok id => [.taken (store.backupOf host id path reason)]
      | .error _ => []
  | .restore id =>
      match ((store.restore id).run host).1 with
      | .ok () => [.released id]
      | .error _ => []
  | .restoreMany ids => (store.turns host ids).restored.map .released
  | .setRestored id =>
      match ((store.setRestored id).run host).1 with
      | .ok () => [.released id]
      | .error _ => []
  | _ => []

/-- Stores that were opened on one directory, and what happened in it. -/
structure LogState where
  stores : List Store
  host : Host
  events : List Event

/-- What others change: the manifest stays, and the stores still stand in the directory. -/
structure LeavesLedger (home : Location) (stores : List Store) (fs fs' : FileSystem) : Prop where
  wellFormed : fs'.WellFormed
  ledger : fs'.get? (ledgerSpot home) = fs.get? (ledgerSpot home)
  stands : ∀ store ∈ stores, store.Stands home fs'

/-- A store is opened on the directory, or an operation goes through one of those that are open, or
others change files. -/
inductive LogStep (home : Location) : LogState → LogState → Prop
  | opening {state : LogState} {text : String} {r : Except BackupError Store} {host : Host}
      (hplace : state.host.files.place (Path.ofText text) = home)
      (h : (openAt (Path.ofText text)).run state.host = (r, host)) :
      LogStep home state { state with stores := state.stores ++ r.toOption.toList, host }
  | operation {state : LogState} {store : Store} {op : Operation} (hstore : store ∈ state.stores)
      (h : op.IsAdmissible home state.host)
      (hno : ∀ id original copy reason hash, op ≠ .addRecord id original copy reason hash) :
      LogStep home state { state with
        host := op.after store state.host, events := state.events ++ op.events store state.host }
  | others {state : LogState} {files : FileSystem}
      (h : LeavesLedger home state.stores state.host.files files) :
      LogStep home state { state with host := { state.host with files } }

/-- Any number of steps. -/
def LogRun (home : Location) : LogState → LogState → Prop :=
  Relation.ReflTransGen (LogStep home)

/-- The path of the original is absolute, and leads out of the store. -/
def IsOfOutside (home : Location) (b : Backup) : Prop :=
  ∃ location, Path.ofText b.originalPath = ⟨.absolute, location⟩ ∧
    (∀ name ∈ location, name ≠ "..") ∧ ¬ home <+: location

/-- The manifest holds the entries of the events, which are of files outside the store and have ids
of their own, and the stores are open. -/
structure IsLogged (home : Location) (state : LogState) : Prop where
  wellFormed : state.host.files.WellFormed
  ledger : ledgerAt state.host.files home = .ok (Ledger.manifestOf (entriesOf state.events))
  outside : ∀ e ∈ entriesOf state.events, IsOfOutside home e.backup
  distinct : ((entriesOf state.events).map fun e => e.backup.id).Nodup
  isOpen : ∀ store ∈ state.stores, store.IsOpen home state.host.files

variable {state state' : LogState} {op : Operation}

/-- Each of the stores is sound. -/
theorem IsLogged.sound (h : IsLogged home state) (hstore : store ∈ state.stores) :
    IsSound store home state.host.files (entriesOf state.events) := by
  refine ⟨h.isOpen store hstore, h.ledger, fun e he => ?_⟩
  obtain ⟨location, hpath, hnames, houtside⟩ := h.outside e he
  exact hpath ▸ avoids_absolute hnames houtside _

/-- What goes through one of the stores leaves all open. -/
theorem IsLogged.of_reaches {events : List Event} (h : IsLogged home state)
    (hreaches : Reaches store home state.host.files host.files (entriesOf events))
    (houtside : ∀ e ∈ entriesOf events, IsOfOutside home e.backup)
    (hdistinct : ((entriesOf events).map fun e => e.backup.id).Nodup) :
    IsLogged home { state with host, events } :=
  ⟨hreaches.sound.isOpen.wellFormed, hreaches.sound.ledger, houtside, hdistinct,
    fun store hstore =>
      (h.isOpen store hstore).of_kept hreaches.sound.isOpen.wellFormed hreaches.kept⟩

/-- Where only flags change, the entries are of the same backups. -/
theorem IsLogged.of_releases (h : IsLogged home state) (ids : List Json)
    (hreaches : Reaches store home state.host.files host.files
      (entriesOf (state.events ++ ids.map .released))) :
    IsLogged home { state with host, events := state.events ++ ids.map .released } := by
  have hentries := Ledger.entries_of_append state.events (ids.map .released)
  rw [Ledger.entries_of_releases, List.append_nil] at hentries
  refine h.of_reaches hreaches (fun e he => ?_) ?_
  · rw [hentries] at he
    obtain ⟨before, hbefore, rfl⟩ := List.mem_map.mp he
    exact h.outside before hbefore
  · rw [hentries, List.map_map]
    exact h.distinct

/-- Opening a store on the directory leaves the manifest as it is. -/
theorem IsLogged.opening {directory : Path} {r : Except BackupError Store}
    (h : IsLogged home state) (hplain : directory.IsPlain)
    (hplace : state.host.files.place directory = home)
    (hopen : (openAt directory).run state.host = (r, host)) :
    IsLogged home { state with host } ∧
      ∀ opened, r = .ok opened → opened.IsOpen home host.files := by
  obtain ⟨files, rfl, hfiles, hchanges, hledger, hok⟩ :=
    open_cases h.wellFormed hplain hopen hplace
  refine ⟨⟨hfiles, hledger.trans h.ledger, h.outside, h.distinct, fun store hstore =>
    (h.isOpen store hstore).of_kept hfiles hchanges.toKeepsDirectories⟩, fun opened hopened => ?_⟩
  obtain ⟨rfl, hisOpen⟩ := hok opened hopened
  exact hisOpen

/-- What others change leaves the manifest as it is. -/
theorem IsLogged.others (h : IsLogged home state)
    (hothers : LeavesLedger home state.stores state.host.files fs) :
    IsLogged home { state with host := { state.host with files := fs } } :=
  ⟨hothers.wellFormed, (ledger_at_eq hothers.ledger).trans h.ledger, h.outside, h.distinct,
    fun store hstore => ⟨hothers.stands store hstore, (h.isOpen store hstore).usable⟩⟩

/-- Backing up a file adds an entry for it, or none if it fails. -/
theorem IsLogged.backup {reason : String} (h : IsLogged home state)
    (hstore : store ∈ state.stores) (hcan : CanBackUp home state.host path) :
    IsLogged home { state with
      host := (Operation.backup path reason).after store state.host
      events := state.events ++ (Operation.backup path reason).events store state.host } := by
  have hsound := h.sound hstore
  rcases hrun : (store.backup path reason).run state.host with ⟨r, host⟩
  have hafter : (Operation.backup path reason).after store state.host = host :=
    congrArg Prod.snd hrun
  rw [hafter]
  obtain ⟨-, hfiles, ⟨error, rfl, -, hchanges⟩ | ⟨b, bytes, rfl, hid, htime, -, htaken⟩⟩ :=
    backup_cases hsound.isOpen hcan.fresh (Disk.reads_reliable _) hrun
  · have hevents : (Operation.backup path reason).events store state.host = [] := by
      rw [Operation.events, hrun]
    rw [hevents, List.append_nil]
    exact h.of_reaches ⟨(not_taken_sound hsound hcan.fresh hfiles hchanges).1,
      hchanges.toKeepsDirectories⟩ h.outside h.distinct
  · have hb : store.backupOf state.host b.id path reason = b := by
      rw [backupOf, htaken.read, ← htaken.original, ← htaken.copied, ← htime, ← htaken.reason]
      exact congrArg (Backup.mk _ _ _ _ _) htaken.hash.symm
    have hevents : (Operation.backup path reason).events store state.host = [.taken b] := by
      rw [Operation.events, hrun]
      exact congrArg (fun b => [Event.taken b]) hb
    have hnew := not_has_unused hsound (hid ▸ hcan.unused)
    obtain ⟨htakenSound, -⟩ :=
      taken_sound hsound hcan.outside (hid ▸ hcan.fresh) hfiles htaken
    rw [← Ledger.entries_of_taken] at htakenSound
    rw [hevents]
    refine h.of_reaches ⟨htakenSound, htaken.changes.toKeepsDirectories⟩ ?_ ?_
    · intro e he
      rw [Ledger.entries_of_taken] at he
      rcases List.mem_append.mp he with he | he
      · exact h.outside e he
      · obtain rfl := List.mem_singleton.mp he
        have hnames := hsound.isOpen.wellFormed.names _ _ (FileSystem.get?_of_read htaken.read)
        exact ⟨_, (outside_of_taken hsound.isOpen.wellFormed hcan.outside htaken).1,
          fun name hname => (hnames name hname).2.1, hcan.outside⟩
    · rw [Ledger.entries_of_taken, List.map_append]
      refine List.nodup_append.mpr ⟨h.distinct, by simp, ?_⟩
      rintro _ hold _ hlast rfl
      obtain ⟨e, he, hsame⟩ := List.mem_map.mp hold
      exact hnew e he ((e.has_id_text _).mpr (hsame.trans (List.mem_singleton.mp hlast)))

/-- An operation leaves in the manifest what its events say. -/
theorem IsLogged.operation (h : IsLogged home state) (hstore : store ∈ state.stores)
    (hop : op.IsAdmissible home state.host)
    (hno : ∀ id original copy reason hash, op ≠ .addRecord id original copy reason hash) :
    IsLogged home { state with
      host := op.after store state.host
      events := state.events ++ op.events store state.host } := by
  have hsound := h.sound hstore
  have hlooks : ∀ {α : Type} {action : BackupAction α}, Keeps id action →
      IsLogged home { state with
        host := (action.run state.host).2, events := state.events ++ [] } := by
    intro α action hkeeps
    rw [List.append_nil, show (action.run state.host).2 = state.host from hkeeps state.host]
    exact h
  have hreleases : ∀ {id : Json} {r : Except BackupError Unit} {host : Host},
      Releasing store home state.host.files host.files id (entriesOf state.events) r →
      IsLogged home { state with host, events := state.events ++
        match r with
        | .ok () => [.released id]
        | .error _ => [] } := by
    rintro id r host (⟨rfl, hreaches⟩ | ⟨error, rfl, -, hreaches⟩)
    · rw [← Ledger.entries_of_released h.distinct] at hreaches
      exact h.of_releases [id] hreaches
    · exact h.of_releases [] (by simpa using hreaches)
  cases op with
  | reopen =>
      have hplace := (FileSystem.locate_eq_place hsound.isOpen.located).symm
      have hevents : Operation.reopen.events store state.host = [] := rfl
      rw [hevents, List.append_nil]
      exact (h.opening hsound.isOpen.plain hplace rfl).1
  | backup path reason => exact h.backup hstore hop
  | addRecord id original copy reason hash => exact absurd rfl (hno id original copy reason hash)
  | restore id => exact hreleases (restore_releasing hsound rfl)
  | restoreMany ids =>
      have hrun := run_restore_many
        (P := fun host => ∃ entries, IsSound store home host.files entries)
        sound_restored ⟨_, hsound⟩ ids
      have hafter : (Operation.restoreMany ids).after store state.host =
          (store.turns state.host ids).last := congrArg Prod.snd hrun
      rw [hafter]
      exact h.of_releases _ (turns_release ids hsound h.distinct)
  | setRestored id => exact hreleases (set_restored_releasing hsound rfl)
  | all => exact hlooks ((store.keeps_read_ledger _).bind fun _ => keeps_pure _)
  | records => exact hlooks (store.keeps_records _)
  | pending => exact hlooks (store.keeps_pending _)
  | find id => exact hlooks (store.keeps_find id _)
  | info => exact hlooks (store.keeps_info _)
  | hash text =>
      exact hlooks ((BackupAction.keeps_reading _).bind fun _ => keeps_pure _)

/-- Each step leaves in the manifest what the events say. -/
theorem IsLogged.step (h : IsLogged home state) (hstep : LogStep home state state') :
    IsLogged home state' := by
  cases hstep with
  | @opening text r host hplace hopen =>
      obtain ⟨hlogged, hopened⟩ := h.opening (Path.is_plain_of_text text) hplace hopen
      refine { hlogged with isOpen := fun store hstore => ?_ }
      rcases List.mem_append.mp hstore with hstore | hstore
      · exact hlogged.isOpen store hstore
      · cases r with
        | error error => exact absurd hstore List.not_mem_nil
        | ok opened => exact List.mem_singleton.mp hstore ▸ hopened opened rfl
  | operation hstore hop hno => exact h.operation hstore hop hno
  | others hothers => exact h.others hothers

/-- A run leaves in the manifest what the events say, and adds to the events. The induction is on
the steps. -/
theorem IsLogged.run (h : IsLogged home state) (hrun : LogRun home state state') :
    IsLogged home state' ∧ state.events <+: state'.events := by
  induction hrun with
  | refl => exact ⟨h, List.prefix_rfl⟩
  | tail _ hstep ih =>
      refine ⟨ih.1.step hstep, ih.2.trans ?_⟩
      cases hstep with
      | opening => exact List.prefix_rfl
      | operation => exact List.prefix_append _ _
      | others => exact List.prefix_rfl

/-- Listing what is pending in a sound store. -/
theorem run_pending (hsound : IsSound store home host.files entries) :
    store.pending.run host =
      (.ok ((entries.filter fun e => !e.restored).map BackupEntry.record), host) := by
  unfold pending
  rw [run_bind_of_ok (by rw [run_records hsound.isOpen, hsound.records]), run_of_except,
    Ledger.pending_entries]

/-- A sound store counts its entries, and lists the originals of those that are pending. -/
theorem run_info (hsound : IsSound store home host.files entries) :
    store.info.run host = (.ok
      { total := entries.length
        pending := (entries.filter fun e => !e.restored).length
        restored := (entries.filter BackupEntry.restored).length
        directory := store.directory
        pendingFiles := (entries.filter fun e => !e.restored).map fun e =>
          .text e.backup.originalPath }, host) := by
  have horiginal : ∀ e : BackupEntry, (do
      let fields ← ofExcept (Ledger.fieldsOf .record e.record)
      ofExcept (Ledger.required fields "original_path") : BackupAction Json).run host =
        (.ok (.text e.backup.originalPath), host) := fun e => rfl
  unfold info
  rw [run_bind_of_ok (by rw [run_records hsound.isOpen, hsound.records]),
    run_bind_of_ok (run_pending hsound), List.mapM_map, Function.comp_def,
    run_bind_of_ok (run_map_m horiginal _), run_pure, List.length_map, List.length_map,
    Nat.sub_eq_of_eq_add' (Ledger.count_entries entries)]

/-- The manifest is a log. In a run from a directory without records, the manifest holds one record
for each backup that was taken, in order, marked as restored exactly if the backup was released
later on. No id comes twice. A further run adds records at the end, changes nothing of a backup and
clears no flag. Each store finds the record of a backup by its id, counts the pending and the
restored ones, which are all, and lists the originals of those that are pending, in order. -/
theorem manifest_is_log {start : Host} (hstart : start.files.WellFormed)
    (hempty : ledgerAt start.files home = .ok Ledger.empty)
    (h : LogRun home ⟨[], start, []⟩ state) :
    ledgerAt state.host.files home = .ok (Ledger.manifestOf (entriesOf state.events)) ∧
    ((entriesOf state.events).map fun e => e.backup.id).Nodup ∧
    (∀ later, LogRun home state later →
      Grows (entriesOf state.events) (entriesOf later.events)) ∧
    ∀ store ∈ state.stores,
      (∀ e ∈ entriesOf state.events,
        (store.find? (.text e.backup.id)).run state.host = (.ok (some e.fields), state.host)) ∧
      ∃ info, store.info.run state.host = (.ok info, state.host) ∧
        info.total = (entriesOf state.events).length ∧ info.total = info.pending + info.restored ∧
        info.pending = ((entriesOf state.events).filter fun e => !e.restored).length ∧
        info.directory = store.directory ∧
        info.pendingFiles = ((entriesOf state.events).filter fun e => !e.restored).map fun e =>
          .text e.backup.originalPath := by
  have hlogged : IsLogged home ⟨[], start, []⟩ :=
    ⟨hstart, hempty, fun e he => absurd he List.not_mem_nil, List.nodup_nil,
      fun store hstore => absurd hstore List.not_mem_nil⟩
  have hnow := (hlogged.run h).1
  refine ⟨hnow.ledger, hnow.distinct, fun later hlater => ?_, fun store hstore => ?_⟩
  · obtain ⟨more, hmore⟩ := (hnow.run hlater).2
    exact hmore ▸ Ledger.entries_of_grow state.events more
  · have hsound := hnow.sound hstore
    refine ⟨fun e he => ?_, _, run_info hsound, rfl, Ledger.count_entries _, rfl, rfl, rfl⟩
    rw [run_find hsound.isOpen, hsound.records]
    show (Ledger.find? _ _, _) = _
    rw [Ledger.find_entries, Ledger.find_of_distinct hnow.distinct he]
    rfl

/-- The file `a` is backed up in a store in `s`, and the backup is marked as restored. -/
theorem marked_backup_logged :
    ∃ state b, LogRun ["s"] ⟨[], oneFile, []⟩ state ∧ b.id = "b0" ∧
      state.events = [.taken b, .released (.text "b0")] ∧
      ledgerAt state.host.files ["s"] = .ok (Ledger.manifestOf [⟨b, true⟩]) := by
  obtain ⟨opened, taken, hopen, hbackup⟩ := one_file_backed_up
  obtain ⟨-, -, -, hcan, hid⟩ := one_file_can_back_up hopen
  have hsound :=
    sound_of_opened one_file_well_formed (Path.is_plain_of_text "s") one_file_home rfl hopen
  obtain ⟨-, hfiles, ⟨error, hr, -⟩ | ⟨b, bytes, hr, hb, -, -, htaken⟩⟩ :=
    backup_cases hsound.isOpen hcan.fresh (Disk.reads_reliable _) hbackup
  · cases hr
  obtain ⟨hsound', -⟩ := taken_sound hsound hcan.outside (hb ▸ hcan.fresh) hfiles htaken
  obtain ⟨marked, hmarks⟩ :=
    set_restored_succeeds hsound'.isOpen hsound'.records htaken.ready (.text "b0")
  -- The three steps, and what they leave.
  have hopens : LogStep ["s"] ⟨[], oneFile, []⟩ ⟨[⟨Path.ofText "s"⟩], opened, []⟩ :=
    @LogStep.opening _ ⟨[], oneFile, []⟩ _ _ _ one_file_home hopen
  have hbacks := @LogStep.operation _ ⟨[⟨Path.ofText "s"⟩], opened, []⟩ ⟨Path.ofText "s"⟩
    (.backup (Path.ofText "a") "strip") List.mem_cons_self hcan nofun
  rw [Operation.after, Operation.events, hbackup] at hbacks
  simp only [List.nil_append] at hbacks
  generalize hmade : backupOf ⟨Path.ofText "s"⟩ opened "b0" (Path.ofText "a") "strip" = made
    at hbacks
  have hreleases := @LogStep.operation ["s"] ⟨[⟨Path.ofText "s"⟩], taken, [.taken made]⟩
    ⟨Path.ofText "s"⟩ (.setRestored (.text "b0")) List.mem_cons_self trivial nofun
  rw [Operation.after, Operation.events, hmarks] at hreleases
  have hrun := ((Relation.ReflTransGen.single hopens).tail hbacks).tail hreleases
  have hledger := (manifest_is_log one_file_well_formed rfl hrun).1
  have hid' : made.id = "b0" := hmade ▸ rfl
  have hentries : entriesOf [.taken made, .released (.text "b0")] = [⟨made, true⟩] := by
    simp [entriesOf, Event.releases, hid']
  exact ⟨⟨_, marked, _⟩, made, hrun, hid', rfl, hledger.trans (by rw [← hentries]; rfl)⟩

end Store

end Excise
