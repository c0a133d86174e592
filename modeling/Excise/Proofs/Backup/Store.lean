import Excise.Proofs.Backup.Actions
import Excise.Proofs.Backup.Ledger
import Excise.Proofs.Files.Making

/-!
# What the operations of a store do

A store that is open stands at a location (`Store.IsOpen`), with its manifest and the draft of a new
one below it. Each operation is described once by what it does to the files, whether it succeeds or
fails: writing the manifest (`write_ledger_cases`), and backing up a file (`backup_cases`). A
manifest that was written is read again (`ledger_at_written`).
-/

namespace Excise

namespace Store

/-- Where the manifest stands. -/
def ledgerSpot (home : Location) : Location := home ++ ["manifest.json"]

/-- Where a new manifest is drafted. -/
def draftSpot (home : Location) : Location := home ++ ["manifest.tmp"]

/-- The manifest at a location. One that is not there counts as empty. -/
def ledgerAt (fs : FileSystem) (home : Location) : Except BackupError Fields :=
  match fs.get? (ledgerSpot home) with
  | some (.file bytes) =>
      match Bytes.decode bytes with
      | .error fault => .error (.notText fault)
      | .ok text => ledgerOfText text
  | _ => .ok Ledger.empty

/-- The records of the manifest at a location. -/
def recordsAt (fs : FileSystem) (home : Location) : Except BackupError (List Json) :=
  ledgerAt fs home >>= Ledger.records

/-- The store stands in a directory at a location. -/
structure Stands (store : Store) (home : Location) (fs : FileSystem) : Prop where
  wellFormed : fs.WellFormed
  plain : store.directory.IsPlain
  located : fs.locate store.directory = .ok home
  directory : fs.get? home = some .directory

/-- The store stands at a location, and the path of its manifest can be used. -/
structure IsOpen (store : Store) (home : Location) (fs : FileSystem) : Prop extends
    Stands store home fs where
  usable : FileSystem.IsUsable store.ledgerPath

variable {store : Store} {home : Location} {fs fs' : FileSystem} {host host' : Host}
  {manifest : Fields} {disk : Disk}

theorem draft_ne_ledger (home : Location) : draftSpot home ≠ ledgerSpot home := by
  simp [draftSpot, ledgerSpot]

/-- What stands in the place of the manifest decides what is read. -/
theorem ledger_at_eq (h : fs'.get? (ledgerSpot home) = fs.get? (ledgerSpot home)) :
    ledgerAt fs' home = ledgerAt fs home := by
  rw [ledgerAt, ledgerAt, h]

/-- The manifest is as it was where nothing is written in its place. -/
theorem ledger_at_of_changes {files directories : Location → Prop}
    (h : fs.ChangesOnly fs' files directories) (hledger : ¬ files (ledgerSpot home)) :
    ledgerAt fs' home = ledgerAt fs home := by
  rcases h.elsewhere _ hledger with hsame | ⟨-, hnone, hmade⟩
  · exact ledger_at_eq hsame
  · rw [ledgerAt, ledgerAt, hnone, hmade]

theorem records_at_of_ledger (h : ledgerAt fs home = .ok manifest) :
    recordsAt fs home = Ledger.records manifest := by
  rw [recordsAt, h]
  rfl

/-- A manifest that is read can be read again after it was printed. -/
theorem readable_of_ledger (h : ledgerAt fs home = .ok manifest) :
    Json.IsReadable (.object manifest) := by
  have hempty : Json.IsReadable (.object Ledger.empty) := Ledger.readable_manifest []
  unfold ledgerAt at h
  split at h
  · split at h
    · exact nomatch h
    · rename_i text _
      unfold ledgerOfText at h
      split at h
      · obtain rfl := Except.ok.inj h
        exact hempty
      · exact nomatch h
      · rename_i document hparse
        unfold Ledger.fieldsOf at h
        split at h
        · obtain rfl := Except.ok.inj h
          exact Json.readable_of_parse hparse
        · exact nomatch h
  · obtain rfl := Except.ok.inj h
    exact hempty

/-- A manifest that was written is read again. -/
theorem ledger_at_written (hreadable : Json.IsReadable (.object manifest))
    (h : fs.get? (ledgerSpot home) =
      some (.file (Bytes.ofText (Json.print (.object manifest))))) :
    ledgerAt fs home = .ok (Json.rereadFields manifest) := by
  have hdecode : Bytes.decode (Bytes.ofText (Json.print (.object manifest))) =
      .ok (Json.print (.object manifest)) := by
    rw [Bytes.decode, Bytes.text?_ofText]
  simp only [ledgerAt, h, hdecode, ledgerOfText, Json.parse_unified_print hreadable]
  rfl

namespace Stands

variable (h : store.Stands home fs)

include h

/-- A store stands where it did if no directory went away. -/
theorem of_kept (hfs' : fs'.WellFormed) (hkept : fs.KeepsDirectories fs') :
    store.Stands home fs' :=
  ⟨hfs', h.plain, FileSystem.locate_of_kept hkept h.located, hkept.kept _ h.directory⟩

/-- A name below the directory of the store leads there, if its path can be used. -/
theorem locate_child {name : String} (hname : IsName name)
    (husable : FileSystem.IsUsable (store.directory.child name)) :
    fs.locate (store.directory.child name) = .ok (home ++ [name]) :=
  FileSystem.locate_child h.located h.directory hname husable

/-- The place of a name below the directory of the store. -/
theorem place_child {name : String} (hname : name ≠ "..") :
    fs.place (store.directory.child name) = home ++ [name] := by
  rw [FileSystem.place_child_of_name _ hname, FileSystem.locate_eq_place h.located]

theorem place_ledger : fs.place store.ledgerPath = ledgerSpot home := h.place_child (by decide)

theorem place_draft : fs.place store.draftPath = draftSpot home := h.place_child (by decide)

theorem plain_draft : store.draftPath.IsPlain := h.plain.child (by decide)

theorem plain_ledger : store.ledgerPath.IsPlain := h.plain.child (by decide)

end Stands

namespace IsOpen

variable (h : store.IsOpen home fs)

include h

/-- A store stays open where no directory goes away. -/
theorem of_kept (hfs' : fs'.WellFormed) (hkept : fs.KeepsDirectories fs') :
    store.IsOpen home fs' := ⟨h.toStands.of_kept hfs' hkept, h.usable⟩

theorem locate_ledger : fs.locate store.ledgerPath = .ok (ledgerSpot home) :=
  h.locate_child (by decide) h.usable

/-- A manifest that is not there counts as empty. -/
theorem ledger_of_missing (hmissing : ¬ fs.Exists store.ledgerPath) :
    ledgerAt fs home = .ok Ledger.empty := by
  have hnone : fs.get? (ledgerSpot home) = none := by
    refine Option.eq_none_iff_forall_ne_some.mpr fun content hcontent => ?_
    have hplace := h.place_ledger
    exact hmissing (FileSystem.exists_iff.mpr
      ⟨content, hplace ▸ h.locate_ledger, hplace ▸ hcontent⟩)
  rw [ledgerAt, hnone]

end IsOpen

/-- Reading the manifest gives what stands in its place, if the disk lets it be read. -/
theorem run_read_ledger (h : store.IsOpen home host.files) (hreads : disk.Reads store.ledgerPath) :
    (store.readLedger disk).run host = (ledgerAt host.files home, host) := by
  unfold readLedger
  rw [run_bind_of_ok (BackupAction.run_files host), hreads.read]
  unfold FileSystem.read ledgerAt
  rw [h.locate_ledger]
  cases hget : host.files.get? (ledgerSpot home) with
  | none => simp [hget]
  | some content =>
      cases content with
      | directory => simp [hget]
      | file bytes => cases hdecode : Bytes.decode bytes <;> simp [hget, hdecode]

/-- Writing the manifest may fail, and then no more than the draft was written. -/
theorem write_ledger_cases {r : Except BackupError Unit} (hopen : store.Stands home host.files)
    (h : (store.writeLedger manifest disk).run host = (r, host')) :
    ∃ files, host' = { host with files } ∧ files.WellFormed ∧
      ((∃ e, r = .error e ∧
          host.files.ChangesOnly files (· = draftSpot home) fun _ => False) ∨
        (r = .ok () ∧ FileSystem.IsUsable store.ledgerPath ∧
          host.files.ChangesOnly files (fun l => l = draftSpot home ∨ l = ledgerSpot home)
            (fun _ => False) ∧
          files.get? (draftSpot home) = none ∧
          files.get? (ledgerSpot home) =
            some (.file (Bytes.ofText (Json.print (.object manifest)))))) := by
  unfold writeLedger at h
  have hdraft := hopen.place_draft
  obtain ⟨e, files, rfl, rfl, hleaves⟩ | ⟨drafted, hdrafts, hrename⟩ :=
    BackupAction.changing_bind_cases h
  · obtain ⟨hfiles, hchanges⟩ :=
      hleaves.write_changes hopen.wellFormed fun _ => hopen.plain_draft
    exact ⟨files, rfl, hfiles, .inl ⟨e, rfl, hdraft ▸ hchanges⟩⟩
  obtain ⟨hdrafted, hchanges, hfile⟩ :=
    FileSystem.write_changes hopen.wellFormed (fun _ => hopen.plain_draft) hdrafts
  rw [hdraft] at hchanges hfile
  have hopen' := hopen.of_kept hdrafted hchanges.toKeepsDirectories
  obtain ⟨files, rfl, ⟨e, rfl, hleaves⟩ | ⟨rfl, hrenames⟩⟩ := BackupAction.changing_cases hrename
  · obtain rfl := hleaves.rename_eq
    exact ⟨files, rfl, hdrafted, .inl ⟨_, rfl, hchanges⟩⟩
  · have hne : drafted.place store.draftPath ≠ drafted.place store.ledgerPath := by
      rw [hopen'.place_draft, hopen'.place_ledger]
      exact draft_ne_ledger home
    obtain ⟨hfiles, hchanges', hgone, hplaced⟩ :=
      FileSystem.rename_changes hdrafted hopen'.plain_ledger hne hrenames
    rw [hopen'.place_draft, hopen'.place_ledger] at hchanges' hplaced
    rw [hopen'.place_draft] at hgone
    have husable := FileSystem.is_usable_of_locate (FileSystem.locate_of_rename hrenames).2
    refine ⟨files, rfl, hfiles, .inr ⟨rfl, husable, ?_, hgone, hplaced.trans hfile⟩⟩
    exact (hchanges.mono (fun _ hl => .inl hl) fun _ hl => hl).trans hchanges'

/-- No directory stands in the place of the manifest or of its draft. -/
structure IsReady (home : Location) (fs : FileSystem) : Prop where
  draft : fs.get? (draftSpot home) ≠ some .directory
  ledger : fs.get? (ledgerSpot home) ≠ some .directory

/-- The manifest of a store that is ready can be written. -/
theorem write_ledger_succeeds (h : store.IsOpen home host.files) (hready : IsReady home host.files)
    (manifest : Fields) : ∃ host', (store.writeLedger manifest).run host = (.ok (), host') := by
  have husable : FileSystem.IsUsable store.draftPath := h.usable.of_shorter (by decide) (by decide)
  have hlocated : host.files.locate store.draftPath = .ok (draftSpot home) :=
    h.locate_child (by decide) husable
  have hwrites : host.files.write store.draftPath (Bytes.ofText (Json.print (.object manifest))) =
      .ok (host.files.put (draftSpot home)
        (.file (Bytes.ofText (Json.print (.object manifest))))) :=
    FileSystem.write_eq_ok_iff.mpr ⟨_, hlocated, hready.draft, rfl⟩
  obtain ⟨hdrafted, hchanges, hfile⟩ :=
    FileSystem.write_changes h.wellFormed (fun _ => h.plain_draft) hwrites
  rw [h.place_draft] at hchanges hfile
  have hopen := h.of_kept hdrafted hchanges.toKeepsDirectories
  obtain ⟨files, hrenames⟩ := FileSystem.rename_succeeds
    (FileSystem.locate_of_kept hchanges.toKeepsDirectories hlocated) hfile hopen.locate_ledger (by
      rw [hchanges.same (draft_ne_ledger home).symm fun hl => hl]
      exact hready.ledger)
  unfold writeLedger
  rw [run_bind_of_ok (BackupAction.run_changing_of_ok
    (show Change.whole _ (.write _ _) = _ from hwrites))]
  exact ⟨_, BackupAction.run_changing_of_ok (show Change.whole _ (.rename _ _) = _ from hrenames)⟩

/-- Opening a store changes no more than its own files and the directories that lead to it. It may
fail, and the manifest says what it did in either case. -/
theorem open_cases {directory : Path} {r : Except BackupError Store}
    (hfs : host.files.WellFormed) (hplain : directory.IsPlain)
    (h : (openAt directory disk).run host = (r, host'))
    (hhome : host.files.place directory = home) :
    ∃ files, host' = { host with files } ∧ files.WellFormed ∧
      host.files.ChangesOnly files (fun l => l = draftSpot home ∨ l = ledgerSpot home)
        (host.files.IsOnWay directory) ∧
      ledgerAt files home = ledgerAt host.files home ∧
      ∀ store, r = .ok store → store = ⟨directory⟩ ∧ IsOpen ⟨directory⟩ home files := by
  unfold openAt at h
  obtain ⟨e, files, rfl, rfl, hleaves⟩ | ⟨made, hmakes, hrest⟩ :=
    BackupAction.changing_bind_cases h
  · obtain ⟨hfiles, hchanges⟩ := hleaves.make_directories_changes hfs hplain
    exact ⟨files, rfl, hfiles, hchanges.mono (fun _ => False.elim) fun _ hl => hl,
      ledger_at_of_changes hchanges fun hl => hl, nofun⟩
  obtain ⟨hmade, hchanges, hlocate, hdirectory⟩ :=
    FileSystem.make_directories_changes hfs hplain hmakes
  rw [hhome] at hlocate hdirectory
  have hstands : Stands ⟨directory⟩ home made := ⟨hmade, hplain, hlocate, hdirectory⟩
  have hchanges' : host.files.ChangesOnly made
      (fun l => l = draftSpot home ∨ l = ledgerSpot home) (host.files.IsOnWay directory) :=
    hchanges.mono (fun _ => False.elim) fun _ hl => hl
  have hledger : ledgerAt made home = ledgerAt host.files home :=
    ledger_at_of_changes hchanges fun hl => hl
  rw [run_bind_of_ok (BackupAction.run_files _)] at hrest
  simp only at hrest
  by_cases hexists : made.Exists (ledgerPath ⟨directory⟩)
  · rw [if_neg (not_not_intro hexists)] at hrest
    obtain ⟨rfl, rfl⟩ := Prod.mk.inj hrest
    obtain ⟨content, hlocated, -⟩ := FileSystem.exists_iff.mp hexists
    refine ⟨made, rfl, hmade, hchanges', hledger, fun store hstore => ?_⟩
    obtain rfl := Except.ok.inj hstore
    exact ⟨rfl, hstands, FileSystem.is_usable_of_locate hlocated⟩
  · rw [if_pos hexists] at hrest
    rcases run_bind_cases hrest with ⟨e, hwrite, rfl⟩ | ⟨u', written, hwrite, hreturn⟩
    · rcases write_ledger_cases hstands hwrite with
        ⟨files, rfl, hfiles, ⟨e', -, hdraft⟩ | ⟨hr, -⟩⟩
      · refine ⟨files, rfl, hfiles, hchanges'.trans (hdraft.mono (fun _ hl => .inl hl)
          fun _ => False.elim), ?_, nofun⟩
        rw [ledger_at_of_changes hdraft (draft_ne_ledger home).symm, hledger]
      · exact nomatch hr
    · obtain ⟨rfl, rfl⟩ := Prod.mk.inj hreturn
      rcases write_ledger_cases hstands hwrite with
        ⟨files, rfl, hfiles, ⟨e', hr, -⟩ | ⟨-, husable, hboth, -, hfile⟩⟩
      · exact nomatch hr
      have hopen : IsOpen ⟨directory⟩ home made := ⟨hstands, husable⟩
      -- There was no manifest, and an empty one counts as much.
      have hempty := hopen.ledger_of_missing hexists
      have hwritten : ledgerAt files home = .ok _ :=
        ledger_at_written (Ledger.readable_manifest []) hfile
      rw [Ledger.reread_manifest] at hwritten
      refine ⟨files, rfl, hfiles, hchanges'.trans (hboth.mono (fun _ hl => hl)
        fun _ => False.elim), by rw [hwritten, ← hledger, hempty]; rfl, fun store hstore => ?_⟩
      obtain rfl := Except.ok.inj hstore
      exact ⟨rfl, hopen.of_kept hfiles hboth.toKeepsDirectories⟩

end Store

end Excise
