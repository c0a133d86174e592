import Excise.Proofs.Backup.Saving
import Excise.Proofs.Command.Steps

/-!
# Overwriting files

A file is overwritten with what became of it, after its backup if there is a store
(`overwrite_cases`). With a store each backup comes first, so whatever the command ends with, the
first backup of each file outside the store holds what the file held before (`strip_saves`).
-/

namespace Excise

namespace Command

open CommandAction
open Store (Saves RecordsAdded HasFreshIds IsSaved IsOf)

variable {s s' after : Session} {store : Store} {home : Location} {before : Host} {last : Nat}
  {work : List (Path × Bytes)} {added : List Ledger.Backup} {p : Processed}
  {changed : List Processed}
  {directory : Path} {disk : Disk} {reader : SettingsReader}

/-- A file is backed up if there is a store, and then overwritten unless that failed, as far as the
disk lets it be. -/
theorem overwrite_cases {store : Option Store} {r : Except Stop Bool}
    (h : (overwrite store p disk).run s = (r, s')) :
    ∃ outcome backed, (backUp store p.path disk).run s = (.ok outcome, backed) ∧
      (s'.host = backed.host ∨ (∃ id, outcome = .ok id) ∧ ∃ left files,
        disk.MayLeave p.path (Bytes.ofText p.result.code) left ∧
        backed.host.files.write p.path left = .ok files ∧
        s'.host = { backed.host with files }) := by
  have hreport : ∀ path reason, Keeps Session.host (reportFailure path reason) :=
    keeps_report_failure fun _ _ => rfl
  have hthrow : ∀ stop, Keeps Session.host (throw stop : CommandAction Bool) :=
    fun _ => keeps_throw _
  obtain ⟨outcome, backed, hbackup⟩ :
      ∃ outcome backed, (backUp store p.path disk).run s = (.ok outcome, backed) := by
    cases store with
    | none => exact ⟨_, s, rfl⟩
    | some store => exact ⟨_, _, rfl⟩
  refine ⟨outcome, backed, hbackup, ?_⟩
  unfold overwrite at h
  rw [run_bind_of_ok hbackup] at h
  cases outcome with
  | error e =>
      left
      simp only at h
      split at h
      · exact (hreport _ _).eq h
      · exact (hthrow _).eq h
  | ok id =>
      simp only at h
      rcases hcarry : disk.carryOut backed.host.files
        (.write p.path (Bytes.ofText p.result.code)) with ⟨written, files⟩
      rw [run_bind_of_ok (by rw [run_write, hcarry])] at h
      -- Whether the write is reported as done or not, the files are what it left.
      have hhost : s'.host = { backed.host with files } := by
        cases written with
        | error e => exact (hreport _ _).eq h
        | ok u =>
            obtain ⟨-, rfl⟩ := Prod.mk.inj h
            rfl
      rcases Disk.carry_out_write_cases hcarry with rfl | ⟨left, hleft, hwrite⟩
      · exact .inl hhost
      · exact .inr ⟨⟨id, rfl⟩, left, files, hleft, hwrite, hhost⟩

/-- With a store a file is overwritten once it was backed up. -/
theorem overwrite_backed_up_cases {r : Except Stop Bool}
    (h : (overwrite (some store) p disk).run s = (r, s')) :
    ∃ outcome host, (store.backup p.path "strip" disk).run s.host = (outcome, host) ∧
      (s'.host = host ∨ (∃ id, outcome = .ok id) ∧ ∃ left files,
        disk.MayLeave p.path (Bytes.ofText p.result.code) left ∧
        host.files.write p.path left = .ok files ∧ s'.host = { host with files }) := by
  obtain ⟨outcome, backed, hbackup, hend⟩ := overwrite_cases h
  rcases hrun : (store.backup p.path "strip" disk).run s.host with ⟨result, host⟩
  have hbacked : (backUp (some store) p.path disk).run s =
      (.ok (((store.backup p.path "strip" disk).run s.host).1.map some),
        { s with host := ((store.backup p.path "strip" disk).run s.host).2 }) := rfl
  rw [hrun] at hbacked
  obtain ⟨houtcome, rfl⟩ := Prod.mk.inj (hbacked.symm.trans hbackup)
  refine ⟨result, host, rfl, hend.imp_right fun ⟨⟨id, hid⟩, hwritten⟩ => ⟨?_, hwritten⟩⟩
  cases result with
  | ok id => exact ⟨id, rfl⟩
  | error e =>
      rw [hid] at houtcome
      exact nomatch houtcome

/-- Files are overwritten in turn, and a failure that is not reported ends that. -/
theorem overwrite_all_cases {store : Option Store} {r : Except Stop Bool}
    (h : (overwriteAll store (p :: changed) disk).run s = (r, after)) :
    ∃ outcome middle, (overwrite store p disk).run s = (outcome, middle) ∧
      (after = middle ∨ ∃ r', (overwriteAll store changed disk).run middle = (r', after)) := by
  rcases run_bind_cases h with ⟨stop, hone, -⟩ | ⟨done, middle, hone, hrest⟩
  · exact ⟨_, after, hone, .inl rfl⟩
  · rcases run_bind_cases hrest with ⟨stop, hothers, -⟩ | ⟨others, last, hothers, hreturn⟩
    · exact ⟨_, middle, hone, .inr ⟨_, hothers⟩⟩
    · obtain ⟨-, rfl⟩ := Prod.mk.inj hreturn
      exact ⟨_, middle, hone, .inr ⟨_, hothers⟩⟩

/-- Overwriting files does not give ids back. -/
theorem overwrite_all_ids {r : Except Stop Bool}
    (h : (overwriteAll (some store) changed disk).run s = (r, after)) :
    s.host.idsMade ≤ after.host.idsMade := by
  have hone : ∀ {p : Processed} {r : Except Stop Bool} {s s' : Session},
      (overwrite (some store) p disk).run s = (r, s') → s.host.idsMade ≤ s'.host.idsMade := by
    intro p r s s' hrun
    obtain ⟨outcome, host, hbackup, hend⟩ := overwrite_backed_up_cases hrun
    have hmade : s'.host.idsMade = host.idsMade := by
      rcases hend with hsame | ⟨-, left, files, -, -, hsame⟩ <;> rw [hsame]
    rcases Store.backup_ids hbackup with ⟨-, rfl⟩ | hnext <;> omega
  induction changed generalizing s r with
  | nil =>
      obtain ⟨-, rfl⟩ := Prod.mk.inj h
      exact le_rfl
  | cons p rest ih =>
      obtain ⟨outcome, middle, hfirst, rfl | ⟨r', hothers⟩⟩ := overwrite_all_cases h
      · exact hone hfirst
      · exact (hone hfirst).trans (ih hothers)

/-- A path and what is to be written to it. -/
def Processed.toWrite (p : Processed) : Path × Bytes := (p.path, Bytes.ofText p.result.code)

/-- The files to overwrite were there before, and the manifest is not one of them. -/
def AreWork (home : Location) (fs : FileSystem) (changed : List Processed) : Prop :=
  ∀ p ∈ changed, (∃ old, fs.read p.path = .ok old) ∧ fs.place p.path ≠ Store.ledgerSpot home

/-- Overwriting one file keeps what is saved. -/
theorem overwrite_saves {r : Except Stop Bool}
    (hsaves : Saves store home disk work before last s.host added)
    (hrecords : RecordsAdded home before.files s.host.files added)
    (hbefore : before.files.WellFormed) (hids : HasFreshIds home directory before last)
    (hreads : disk.Reads store.ledgerPath) (hpath : p.toWrite ∈ work)
    (hread : ∃ old, before.files.read p.path = .ok old)
    (hledger : before.files.place p.path ≠ Store.ledgerSpot home)
    (h : (overwrite (some store) p disk).run s = (r, s')) (hlast : s'.host.idsMade ≤ last) :
    ∃ added', Saves store home disk work before last s'.host added' ∧
      RecordsAdded home before.files s'.host.files added' := by
  obtain ⟨old, hold⟩ := hread
  obtain ⟨outcome, host, hbackup, hend⟩ := overwrite_backed_up_cases h
  have hmade : s'.host.idsMade = host.idsMade := by
    rcases hend with hsame | ⟨-, left, files, -, -, hsame⟩ <;> rw [hsame]
  obtain ⟨added', hsaves', hrecords', hsaved⟩ :=
    hsaves.backup hrecords hbefore hids hreads hpath hold hbackup (hmade ▸ hlast)
  rcases hend with hsame | ⟨⟨id, hid⟩, left, files, hleft, hwrite, hsame⟩
  · exact ⟨added', hsame ▸ hsaves', hsame ▸ hrecords'⟩
  · obtain ⟨hsaves'', hrecords''⟩ :=
      hsaves'.write hrecords' hbefore hids hpath hold hledger (hsaved id hid) hleft hwrite
    exact ⟨added', hsame ▸ hsaves'', hsame ▸ hrecords''⟩

/-- Overwriting files in turn keeps what is saved. The induction is on the files. -/
theorem overwrite_all_saves {r : Except Stop Bool}
    (hsaves : Saves store home disk work before last s.host added)
    (hrecords : RecordsAdded home before.files s.host.files added)
    (hbefore : before.files.WellFormed) (hids : HasFreshIds home directory before last)
    (hreads : disk.Reads store.ledgerPath)
    (hpaths : ∀ p ∈ changed, p.toWrite ∈ work) (hwork : AreWork home before.files changed)
    (h : (overwriteAll (some store) changed disk).run s = (r, after))
    (hlast : after.host.idsMade ≤ last) :
    ∃ added', Saves store home disk work before last after.host added' ∧
      RecordsAdded home before.files after.host.files added' := by
  induction changed generalizing s r added with
  | nil =>
      obtain ⟨-, rfl⟩ := Prod.mk.inj h
      exact ⟨added, hsaves, hrecords⟩
  | cons p rest ih =>
      obtain ⟨hread, hledger⟩ := hwork p List.mem_cons_self
      have hfirst : ∀ {r : Except Stop Bool} {middle : Session},
          (overwrite (some store) p disk).run s = (r, middle) → middle.host.idsMade ≤ last →
          ∃ added', Saves store home disk work before last middle.host added' ∧
            RecordsAdded home before.files middle.host.files added' :=
        overwrite_saves hsaves hrecords hbefore hids hreads (hpaths p List.mem_cons_self) hread
          hledger
      obtain ⟨outcome, middle, hone, rfl | ⟨r', hothers⟩⟩ := overwrite_all_cases h
      · exact hfirst hone hlast
      · obtain ⟨added', hsaves', hrecords'⟩ :=
          hfirst hone ((overwrite_all_ids hothers).trans hlast)
        exact ih hsaves' hrecords' (fun q hq => hpaths q (List.mem_cons_of_mem _ hq))
          (fun q hq => hwork q (List.mem_cons_of_mem _ hq)) hothers

/-- What became of a file changes it only if its name has an extension of a language, so the
manifest is never changed. -/
theorem are_work_of_processed {grammar : Grammar} {target : Target} {fs : FileSystem}
    {processed : List Processed} (hfs : fs.WellFormed)
    (h : ∀ p ∈ processed, processFile grammar target fs p.path disk = .ok p) :
    AreWork home fs (processed.filter fun p => p.result.changed) := by
  intro p hp
  obtain ⟨hp, hchanged⟩ := List.mem_filter.mp hp
  obtain ⟨bytes, text, hread, -, hresult⟩ := process_file_cases (h p hp)
  refine ⟨⟨bytes, hread⟩, fun hplace => ?_⟩
  obtain ⟨location, hlocate, hfile⟩ := FileSystem.read_eq_ok_iff.mp hread
  obtain ⟨above, hname⟩ := hfs.file_name hlocate hfile
  rw [FileSystem.locate_eq_place hlocate, hplace] at hname
  have hmanifest : p.path.name = "manifest.json" :=
    (List.append_inj' hname rfl).2 |> fun h => (List.cons.inj h).1.symm
  have hlanguage : Language.ofPath? p.path = none := by
    rw [Language.ofPath?, Path.extension, hmanifest]
    decide
  have hskip : p.result = .skip text .unsupportedFile := by
    rw [hresult]
    simp only [transformFile, hlanguage]
  rw [hskip] at hchanged
  exact nomatch hchanged

/-- What is to be written comes of sources that were read and that it changes, for a target that has
its name if one was given. -/
def IsWorkOf (grammar : Grammar) (named : Option String) (fs : FileSystem) (disk : Disk)
    (paths : List Path) (work : List (Path × Bytes)) : Prop :=
  ∀ w ∈ work, ∃ target p, w = p.toWrite ∧ p.path ∈ paths ∧
    (∀ name, named = some name → target.name = name) ∧
    processFile grammar target fs p.path disk = .ok p ∧ p.result.changed = true

theorem is_work_of_processed {grammar : Grammar} {target : Target} {named : Option String}
    {fs : FileSystem} {paths : List Path} {processed : List Processed}
    (hnamed : ∀ name, named = some name → target.name = name)
    (h : ∀ p ∈ processed, p.path ∈ paths ∧ processFile grammar target fs p.path disk = .ok p) :
    IsWorkOf grammar named fs disk paths
      ((processed.filter fun p => p.result.changed).map Processed.toWrite) := by
  intro w hw
  obtain ⟨p, hp, rfl⟩ := List.mem_map.mp hw
  obtain ⟨hp, hchanged⟩ := List.mem_filter.mp hp
  exact ⟨target, p, rfl, (h p hp).1, hnamed, (h p hp).2, hchanged⟩

/-- Whatever `strip` ends with, the first backup of each file that it changed outside the store
holds what the file held before. -/
theorem strip_saves {grammar : Grammar} {options : StripOptions} {verbose : Bool}
    {r : Except Stop Unit} (hfs : s.host.files.WellFormed)
    (hbackups : options.noBackup = false)
    (hhome : s.host.files.place after.backupPath = home)
    (hids : HasFreshIds home after.backupPath s.host after.host.idsMade)
    (hreads : disk.Reads (Store.ledgerPath ⟨after.backupPath⟩))
    (h : (strip grammar reader options verbose disk).run s = (r, after)) :
    ∃ work added, IsWorkOf grammar options.target s.host.files disk
        (s.host.files.sourceFiles options.paths after.backupPath) work ∧
      Store.Saved ⟨after.backupPath⟩ home disk work s.host after.host added ∧
      RecordsAdded home s.host.files after.host.files added := by
  have hnothing : ∀ paths, IsWorkOf grammar options.target s.host.files disk paths [] :=
    fun _ _ hw => absurd hw List.not_mem_nil
  have hsame : after.host = s.host → ∃ work added,
      IsWorkOf grammar options.target s.host.files disk
        (s.host.files.sourceFiles options.paths after.backupPath) work ∧
      Store.Saved ⟨after.backupPath⟩ home disk work s.host after.host added ∧
      RecordsAdded home s.host.files after.host.files added := by
    intro hhost
    rw [hhost]
    exact ⟨[], [], hnothing _, Store.saved_of_changes hfs (.refl _ _ fun _ => False),
      .inl ⟨rfl, rfl⟩⟩
  obtain hhost | ⟨target, start, reading, hstart, hinput, hnamed, hprocessed, hcarry⟩ :=
    strip_cases h
  · exact hsame hhost
  have hpath : after.backupPath = start.backupPath := by
    rw [Session.backupPath, Session.backupPath, carry_out_settings hcarry]
  rw [hpath] at hhome hids hreads hsame ⊢
  have hplain : start.backupPath.IsPlain := Path.is_plain_of_text _
  rcases carry_out_cases hcarry with hstanding | ⟨-, -, -, asked, hasked, hend⟩
  · exact hsame ((standing_eq_iff.mp hstanding).1.trans hstart)
  have hhost : asked.host = s.host := (standing_eq_iff.mp hasked).1.trans hstart
  rcases hend with ⟨stop, hopen⟩ | ⟨store, ready, outcome, hopen, hwrite⟩
  · obtain ⟨hno, -⟩ | ⟨-, result, host, rfl, hrun, -⟩ := open_store_cases hopen
    · rw [hbackups] at hno
      cases hno
    rw [hhost] at hrun
    obtain ⟨files, rfl, hfiles, hchanges, hledger, -⟩ := Store.open_cases hfs hplain hrun hhome
    refine ⟨[], [], hnothing _, Store.saved_of_changes hfiles hchanges, .inl ⟨rfl, ?_⟩⟩
    rw [Store.recordsAt, Store.recordsAt, hledger]
  · obtain ⟨hno, -⟩ | ⟨-, result, host, rfl, hrun, hok⟩ := open_store_cases hopen
    · rw [hbackups] at hno
      cases hno
    obtain ⟨opened, rfl, rfl⟩ := hok store rfl
    rw [hhost] at hrun
    have hopened : opened = ⟨start.backupPath⟩ := by
      obtain ⟨files, -, -, -, -, hok'⟩ := Store.open_cases hfs hplain hrun hhome
      exact (hok' opened rfl).1
    obtain ⟨hsaves, hrecords⟩ := Store.saves_opened hfs hplain hhome hids hrun
    obtain ⟨added, hsaved, hadded⟩ := overwrite_all_saves hsaves hrecords hfs hids
      (hopened ▸ hreads) (fun p hp => List.mem_map_of_mem hp)
      (are_work_of_processed hfs fun p hp => (hprocessed p hp).2) hwrite le_rfl
    exact ⟨_, added, is_work_of_processed hnamed hprocessed, hopened ▸ hsaved.toSaved, hadded⟩

end Command

end Excise
