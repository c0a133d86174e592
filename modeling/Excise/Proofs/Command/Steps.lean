import Excise.Command.Restore
import Excise.Command.Strip
import Excise.Proofs.Backup.Actions

/-!
# What the parts of a command do

The parts of a command that only look or print leave all but what was printed as it is
(`Session.standing`). So `strip` comes down to overwriting files that were read and processed
before (`strip_cases`, `carry_out_cases`), one after the other.
-/

namespace Excise

namespace Command

open CommandAction

/-- What a session holds besides what was printed. -/
def Session.standing (s : Session) : Host × SettingsState × String := (s.host, s.settings, s.input)

variable {α : Type} {s s' after : Session} {disk : Disk} {reader : SettingsReader}

theorem standing_eq_iff : s'.standing = s.standing ↔
    s'.host = s.host ∧ s'.settings = s.settings ∧ s'.input = s.input := by
  simp [Session.standing]

/-! ## Parts that only look or print -/

theorem keeps_print (report : Report) : Keeps Session.standing (print report) := fun _ => rfl

theorem keeps_exit (code : Nat) : Keeps Session.standing (exit code : CommandAction α) :=
  keeps_throw _

theorem keeps_abort (message : Message) :
    Keeps Session.standing (abort message : CommandAction α) :=
  (keeps_print _).bind fun _ => keeps_exit _

theorem keeps_files : Keeps Session.standing files := fun _ => rfl

theorem keeps_exit_if {τ : Type} {part : Session → τ} (condition : Bool) :
    Keeps part (exitIf condition) := by
  cases condition
  · exact keeps_pure ()
  · exact keeps_throw _

theorem keeps_look (path : Path) : Keeps Session.standing (look path) := by
  refine keeps_files.bind fun fs => ?_
  split
  · exact keeps_pure _
  · exact keeps_throw _

theorem keeps_first_missing (paths : List Path) : Keeps Session.standing (firstMissing? paths) := by
  induction paths with
  | nil => exact keeps_pure none
  | cons path rest ih =>
      refine (keeps_look path).bind fun found => ?_
      split
      · exact ih
      · exact keeps_pure _

theorem keeps_confirm (question : String) : Keeps Session.standing (confirm question) := by
  refine (keeps_print _).bind fun _ => Keeps.bind (fun _ => rfl) fun t => ?_
  split
  · exact keeps_pure _
  · exact keeps_exit 1

theorem keeps_process_files (grammar : Grammar) (target : Target) (paths : List Path)
    (disk : Disk) : Keeps Session.standing (processFiles grammar target paths disk) := by
  induction paths with
  | nil => exact keeps_pure _
  | cons path rest ih =>
      refine keeps_files.bind fun fs => ?_
      split
      · exact ih.bind fun _ => keeps_pure _
      · exact (keeps_print _).bind fun _ => ih.bind fun _ => keeps_pure _

/-- Going through items in turn keeps what each step keeps. -/
theorem keeps_for_in {σ ε τ β : Type} {part : σ → τ}
    {step : β → ExceptT ε (StateM σ) (ForInStep PUnit)} (hstep : ∀ b, Keeps part (step b))
    (items : List β) : Keeps part (forIn items PUnit.unit fun b _ => step b) := by
  induction items with
  | nil => exact keeps_pure _
  | cons b rest ih =>
      rw [List.forIn_cons]
      refine (hstep b).bind fun r => ?_
      cases r with
      | done u => exact keeps_pure _
      | yield u => exact ih

/-- An action that is left out under a condition keeps what it keeps. -/
theorem keeps_when {σ ε τ : Type} {part : σ → τ} {c : Prop} [Decidable c]
    {x : ExceptT ε (StateM σ) PUnit} {rest : PUnit → ExceptT ε (StateM σ) α}
    (hx : Keeps part x) (hrest : ∀ u, Keeps part (rest u)) :
    Keeps part (if c then x >>= rest else rest ⟨⟩) := by
  split
  · exact hx.bind hrest
  · exact hrest ⟨⟩

theorem keeps_report (options : StripOptions) (verbose : Bool) (target : Target) (count : Nat)
    (reading : Reading) (changed : List Processed) :
    Keeps Session.standing (report options verbose target count reading changed) := by
  unfold report
  dsimp only
  refine keeps_when (keeps_for_in (fun p => ?_) _) fun _ => ?_
  · exact (keeps_for_in (fun _ => (keeps_print _).bind fun _ => keeps_pure _) _).bind
      fun _ => keeps_pure _
  refine keeps_when (keeps_print _) fun _ => keeps_when (keeps_for_in (fun p => ?_) _) fun _ => ?_
  · exact keeps_when (keeps_print _) fun _ => keeps_pure _
  · exact keeps_print _

/-! ## Settings -/

/-- A configuration that is made has the target that was given. -/
theorem explicit_of_make {state : SettingsState} {additions : Except Fault Environment}
    {explicitTarget : Option String} {settings : Settings}
    (h : (state.make additions explicitTarget).1 = .ok settings) :
    settings.explicitTarget = explicitTarget := by
  unfold SettingsState.make at h
  cases additions with
  | error fault => exact nomatch h
  | ok additions =>
      simp only at h
      split at h
      · exact nomatch h
      · split at h
        · exact nomatch h
        · exact (congrArg Settings.explicitTarget (Except.ok.inj h)).symm

theorem keeps_load_settings (reader : SettingsReader) (explicitTarget : Option String) :
    Keeps (fun s => (s.host, s.input)) (loadSettings reader explicitTarget) := fun _ => rfl

theorem keeps_load_target (reader : SettingsReader) (explicitTarget : Option String) :
    Keeps (fun s => (s.host, s.input)) (loadTarget reader explicitTarget) := by
  have habort : ∀ {α : Type} (message : Message),
      Keeps (fun s => (s.host, s.input)) (abort message : CommandAction α) := fun _ _ => rfl
  refine (keeps_load_settings reader explicitTarget).bind fun r => ?_
  cases r with
  | error e => exact habort _
  | ok settings =>
      refine Keeps.bind (fun _ => rfl) fun env => ?_
      split
      · exact habort _
      · exact keeps_pure _

theorem name_of_target {name : String} {target : Target} (h : Target.ofName? name = some target) :
    target.name = name := by
  unfold Target.ofName? at h
  split at h
  · exact nomatch h
  · exact (congrArg Target.name (Option.some.inj h)).symm

/-- A target that is named is loaded under its name. -/
theorem load_target_name {name : String} {target : Target}
    (h : (loadTarget reader (some name)).run s = (.ok target, s')) : target.name = name := by
  unfold loadTarget at h
  generalize hadditions : reader.ofPath s.settings.env s.host.files
    (Path.ofText Settings.standardFile) = additions
  rcases hload : (loadSettings reader (some name)).run s with ⟨r, loaded⟩
  have hr : r = .ok (s.settings.make additions (some name)).1 :=
    hadditions ▸ (Prod.mk.inj hload).1.symm
  subst hr
  rw [run_bind_of_ok hload] at h
  generalize hsettings : (s.settings.make additions (some name)).1 = outcome at h
  cases outcome with
  | error e => exact nomatch (Prod.mk.inj h).1
  | ok settings =>
      have hexplicit := explicit_of_make hsettings
      rw [run_bind_of_ok (rfl : environment.run loaded = (.ok loaded.settings.env, loaded))] at h
      simp only [Settings.target, hexplicit, Option.getD_some] at h
      split at h
      · exact nomatch (Prod.mk.inj h).1
      · rename_i named hnamed
        obtain rfl := Except.ok.inj (Prod.mk.inj h).1
        exact name_of_target hnamed

/-! ## Backups and files -/

/-- The outcome of an operation on backups. -/
theorem run_attempt (action : BackupAction α) (s : Session) : (attempt action).run s =
    (.ok (action.run s.host).1, { s with host := (action.run s.host).2 }) := rfl

/-- An operation on backups whose failure ends the command. -/
theorem or_fail_cases {action : BackupAction α} {r : Except Stop α}
    (h : (orFail action).run s = (r, s')) :
    ∃ outcome host, action.run s.host = (outcome, host) ∧ s' = { s with host } ∧
      ((∃ e, outcome = .error e ∧ r = .error (.failed (.backup e))) ∨
        ∃ a, outcome = .ok a ∧ r = .ok a) := by
  unfold orFail at h
  rw [run_bind_of_ok (run_attempt action s)] at h
  rcases hrun : action.run s.host with ⟨outcome, host⟩
  rw [hrun] at h
  cases outcome with
  | error e =>
      obtain ⟨rfl, rfl⟩ := Prod.mk.inj h
      exact ⟨_, host, rfl, rfl, .inl ⟨e, rfl, rfl⟩⟩
  | ok a =>
      obtain ⟨rfl, rfl⟩ := Prod.mk.inj h
      exact ⟨_, host, rfl, rfl, .inr ⟨a, rfl, rfl⟩⟩

/-- A file is written as far as the disk lets it be. -/
theorem run_write (path : Path) (text : String) (disk : Disk) (s : Session) :
    (write path text disk).run s =
      (.ok (disk.carryOut s.host.files (.write path (Bytes.ofText text))).1,
        { s with host := { s.host with
            files := (disk.carryOut s.host.files (.write path (Bytes.ofText text))).2 } }) := rfl

/-! ## Stripping -/

/-- A file that can be processed was read as a source. -/
theorem process_file_cases {grammar : Grammar} {target : Target} {fs : FileSystem} {path : Path}
    {p : Processed} (h : processFile grammar target fs path disk = .ok p) :
    ∃ bytes text, fs.read path = .ok bytes ∧ sourceText bytes = .ok text ∧
      p = ⟨path, text, transformFile grammar target path text⟩ := by
  unfold processFile at h
  cases hread : disk.read fs path with
  | error e =>
      rw [hread] at h
      exact nomatch h
  | ok bytes =>
      rw [hread] at h
      simp only at h
      cases htext : sourceText bytes with
      | error fault =>
          rw [htext] at h
          exact nomatch h
      | ok text =>
          rw [htext] at h
          exact ⟨bytes, text, Disk.read_eq_ok hread, htext, (Except.ok.inj h).symm⟩

/-- What was processed was read at the start: it is what became of one of the paths. -/
theorem process_files_cases {grammar : Grammar} {target : Target} {paths : List Path}
    {reading : Reading} (h : (processFiles grammar target paths disk).run s = (.ok reading, s')) :
    ∀ p ∈ reading.processed, p.path ∈ paths ∧
      processFile grammar target s.host.files p.path disk = .ok p := by
  induction paths generalizing s reading with
  | nil =>
      obtain ⟨hr, rfl⟩ := Prod.mk.inj h
      obtain rfl := Except.ok.inj hr
      exact fun p hp => absurd hp List.not_mem_nil
  | cons path rest ih =>
      unfold processFiles at h
      rw [run_bind_of_ok (rfl : files.run s = (.ok s.host.files, s))] at h
      cases hprocess : processFile grammar target s.host.files path disk with
      | error reason =>
          simp only [hprocess] at h
          obtain ⟨e, -, hr⟩ | ⟨u, middle, hprint, hrest⟩ := run_bind_cases h
          · exact nomatch hr
          have hmiddle := (standing_eq_iff.mp ((keeps_print _).eq hprint)).1
          obtain ⟨e, -, hr⟩ | ⟨others, last, hothers, hreturn⟩ := run_bind_cases hrest
          · exact nomatch hr
          obtain ⟨hr, rfl⟩ := Prod.mk.inj hreturn
          obtain rfl := Except.ok.inj hr
          intro p hp
          obtain ⟨hpath, hp⟩ := ih hothers p hp
          exact ⟨List.mem_cons_of_mem _ hpath, hmiddle ▸ hp⟩
      | ok first =>
          simp only [hprocess] at h
          obtain ⟨e, -, hr⟩ | ⟨others, last, hothers, hreturn⟩ := run_bind_cases h
          · exact nomatch hr
          obtain ⟨hr, rfl⟩ := Prod.mk.inj hreturn
          obtain rfl := Except.ok.inj hr
          intro p hp
          rcases List.mem_cons.mp hp with rfl | hp
          · obtain ⟨bytes, text, -, -, rfl⟩ := process_file_cases hprocess
            exact ⟨List.mem_cons_self, hprocess⟩
          · obtain ⟨hpath, hp⟩ := ih hothers p hp
            exact ⟨List.mem_cons_of_mem _ hpath, hp⟩

/-- The backup directory of a session. -/
def Session.backupPath (s : Session) : Path :=
  Path.ofText (Settings.backupDirectory s.settings.env)

/-- The answer to the question of a command is yes, or it is not asked. -/
def IsConfirmed (options : StripOptions) (input : String) : Prop :=
  options.yes = true ∨ answer? (inputLines input) = some true

/-- A question is confirmed by an answer. -/
theorem answer_of_confirm {question : String} (h : (confirm question).run s = (.ok true, s')) :
    answer? (inputLines s.input) = some true := by
  unfold confirm at h
  rw [run_bind_of_ok (rfl : (print _).run s = (.ok (), _)),
    run_bind_of_ok (rfl : (get : CommandAction Session).run _ = (.ok _, _))] at h
  cases hanswer : answer? (inputLines s.input) with
  | none =>
      simp only [hanswer] at h
      exact nomatch h
  | some answer =>
      simp only [hanswer] at h
      exact congrArg some (Except.ok.inj (Prod.mk.inj h).1)

/-- Opening the store of a command that wants none does nothing. -/
theorem open_store_cases {options : StripOptions} {directory : Path}
    {r : Except Stop (Option Store)} (h : (openStore options directory disk).run s = (r, s')) :
    (options.noBackup = true ∧ r = .ok none ∧ s' = s) ∨
      (options.noBackup = false ∧ ∃ outcome host, s' = { s with host } ∧
        (Store.openAt directory disk).run s.host = (outcome, host) ∧
        ∀ store, r = .ok store → ∃ opened, outcome = .ok opened ∧ store = some opened) := by
  unfold openStore at h
  cases hbackup : options.noBackup with
  | true =>
      rw [hbackup] at h
      obtain ⟨rfl, rfl⟩ := Prod.mk.inj h
      exact .inl ⟨rfl, rfl, rfl⟩
  | false =>
      rw [hbackup] at h
      refine .inr ⟨rfl, ?_⟩
      rcases run_bind_cases h with ⟨e, hopen, rfl⟩ | ⟨opened, middle, hopen, hreturn⟩
      · obtain ⟨outcome, host, hrun, rfl, -⟩ := or_fail_cases hopen
        exact ⟨outcome, host, rfl, hrun, nofun⟩
      · obtain ⟨rfl, rfl⟩ := Prod.mk.inj hreturn
        obtain ⟨outcome, host, hrun, rfl, ⟨e, -, hr⟩ | ⟨a, rfl, hr⟩⟩ := or_fail_cases hopen
        · exact nomatch hr
        · obtain rfl := Except.ok.inj hr
          exact ⟨.ok opened, host, rfl, hrun, fun store hstore =>
            ⟨opened, rfl, (Except.ok.inj hstore).symm⟩⟩

/-- Files are overwritten only without a dry run or a check, after a confirmation, and once the
store was opened. -/
theorem carry_out_cases {options : StripOptions} {directory : Path} {reading : Reading}
    {changed : List Processed} {r : Except Stop Unit}
    (h : (carryOut options directory reading changed disk).run s = (r, after)) :
    after.standing = s.standing ∨
      (options.dryRun = false ∧ options.check = false ∧ IsConfirmed options s.input ∧
        ∃ asked, asked.standing = s.standing ∧
          ((∃ stop, (openStore options directory disk).run asked = (.error stop, after)) ∨
            ∃ store ready outcome,
              (openStore options directory disk).run asked = (.ok store, ready) ∧
              (overwriteAll store changed disk).run ready = (outcome, after))) := by
  unfold carryOut at h
  by_cases hcheck : options.check = true
  · rw [if_pos hcheck] at h
    exact .inl ((keeps_exit_if _).eq h)
  rw [if_neg hcheck] at h
  by_cases hdry : options.dryRun = true ∨ changed = []
  · rw [if_pos hdry] at h
    exact .inl ((keeps_exit_if _).eq h)
  rw [if_neg hdry] at h
  -- The question was answered, or not asked.
  obtain hasked | ⟨confirmed, asked, hstanding, hconfirmed, hrest⟩ :
      after.standing = s.standing ∨ ∃ (confirmed : Bool) (asked : Session),
        asked.standing = s.standing ∧ (confirmed = true → IsConfirmed options s.input) ∧
        (do
          if ¬ confirmed then
            print (.line [.words "Aborted."])
            exit 1
          let store ← openStore options directory disk
          let done ← overwriteAll store changed disk
          exitIf (¬ done ∨ reading.unreadable ≠ []) : CommandAction Unit).run asked =
            (r, after) := by
    by_cases hyes : options.yes = true
    · rw [if_pos hyes] at h
      exact .inr ⟨true, s, rfl, fun _ => .inl hyes, h⟩
    · rw [if_neg hyes] at h
      rcases run_bind_cases h with ⟨stop, hconfirm, -⟩ | ⟨confirmed, asked, hconfirm, hrest⟩
      · exact .inl ((keeps_confirm _).eq hconfirm)
      · refine .inr ⟨confirmed, asked, (keeps_confirm _).eq hconfirm, fun hyes => ?_, hrest⟩
        subst hyes
        exact .inr (answer_of_confirm hconfirm)
  · exact .inl hasked
  cases confirmed with
  | false =>
      obtain ⟨-, rfl⟩ := Prod.mk.inj hrest
      exact .inl hstanding
  | true =>
      refine .inr ⟨by simpa using mt Or.inl hdry, by simpa using hcheck, hconfirmed rfl, asked,
        hstanding, ?_⟩
      rcases run_bind_cases hrest with ⟨stop, hopen, -⟩ | ⟨store, ready, hopen, hrest⟩
      · exact .inl ⟨stop, hopen⟩
      rcases run_bind_cases hrest with ⟨stop, hwrite, -⟩ | ⟨done, last, hwrite, hend⟩
      · exact .inr ⟨store, ready, _, hopen, hwrite⟩
      · have hkeeps : ∀ condition, Keeps id (exitIf condition) := fun _ => keeps_exit_if _
        obtain rfl : after = last := (hkeeps _).eq hend
        exact .inr ⟨store, ready, _, hopen, hwrite⟩

/-! ## Settings stay -/

theorem keeps_or_fail (action : BackupAction α) : Keeps Session.settings (orFail action) := by
  refine Keeps.bind (fun _ => rfl) fun outcome => ?_
  cases outcome with
  | error e => exact keeps_throw _
  | ok a => exact keeps_pure a

theorem keeps_open_store (options : StripOptions) (directory : Path) (disk : Disk) :
    Keeps Session.settings (openStore options directory disk) := by
  unfold openStore
  split
  · exact keeps_pure none
  · exact (keeps_or_fail _).bind fun _ => keeps_pure _

theorem keeps_write (path : Path) (text : String) (disk : Disk) :
    Keeps Session.settings (write path text disk) := fun _ => rfl

theorem keeps_back_up (store : Option Store) (path : Path) (disk : Disk) :
    Keeps Session.settings (backUp store path disk) := by
  cases store with
  | none => exact keeps_pure _
  | some store => exact fun _ => rfl

theorem keeps_report_failure {τ : Type} {part : Session → τ}
    (hprint : ∀ report, Keeps part (print report)) (path : Path) (reason : String) :
    Keeps part (reportFailure path reason) :=
  (hprint _).bind fun _ => keeps_pure _

theorem keeps_overwrite (store : Option Store) (p : Processed) (disk : Disk) :
    Keeps Session.settings (overwrite store p disk) := by
  refine (keeps_back_up store p.path disk).bind fun outcome => ?_
  cases outcome with
  | error e =>
      simp only
      split
      · exact keeps_report_failure (fun _ _ => rfl) _ _
      · exact keeps_throw _
  | ok id =>
      refine (keeps_write _ _ disk).bind fun written => ?_
      cases written with
      | error e => exact keeps_report_failure (fun _ _ => rfl) _ _
      | ok u => exact Keeps.bind (fun _ => rfl) fun _ => keeps_pure true

theorem keeps_overwrite_all (store : Option Store) (changed : List Processed) (disk : Disk) :
    Keeps Session.settings (overwriteAll store changed disk) := by
  induction changed with
  | nil => exact keeps_pure true
  | cons p rest ih =>
      exact (keeps_overwrite store p disk).bind fun _ => ih.bind fun _ => keeps_pure _

/-- Overwriting files leaves the settings as they are. -/
theorem carry_out_settings {options : StripOptions} {directory : Path} {reading : Reading}
    {changed : List Processed} {r : Except Stop Unit}
    (h : (carryOut options directory reading changed disk).run s = (r, after)) :
    after.settings = s.settings := by
  rcases carry_out_cases h with hstanding | ⟨-, -, -, asked, hstanding, ⟨stop, hopen⟩ |
    ⟨store, ready, outcome, hopen, hwrite⟩⟩
  · exact (standing_eq_iff.mp hstanding).2.1
  · exact ((keeps_open_store _ _ _).eq hopen).trans (standing_eq_iff.mp hstanding).2.1
  · exact ((keeps_overwrite_all _ _ _).eq hwrite).trans
      (((keeps_open_store _ _ _).eq hopen).trans (standing_eq_iff.mp hstanding).2.1)

/-- Stripping sources changes nothing, or overwrites those that it read and that come out
changed. -/
theorem strip_sources_cases {grammar : Grammar} {target : Target} {options : StripOptions}
    {verbose : Bool} {directory : Path} {sources : List Path} {r : Except Stop Unit}
    (h : (stripSources grammar target options verbose directory sources disk).run s =
      (r, after)) :
    after.host = s.host ∨ ∃ start reading, start.standing = s.standing ∧
      (∀ p ∈ reading.processed, p.path ∈ sources ∧
        processFile grammar target s.host.files p.path disk = .ok p) ∧
      (carryOut options directory reading
        (reading.processed.filter fun p => p.result.changed) disk).run start = (r, after) := by
  unfold stripSources at h
  split at h
  · exact .inl (standing_eq_iff.mp ((keeps_print _).eq h)).1
  rcases run_bind_cases h with ⟨stop, hprocess, -⟩ | ⟨reading, processed, hprocess, hrest⟩
  · exact .inl (standing_eq_iff.mp ((keeps_process_files _ _ _ _).eq hprocess)).1
  have hprocessed := (keeps_process_files _ _ _ _).eq hprocess
  rcases run_bind_cases hrest with ⟨stop, hreport, -⟩ | ⟨u, start, hreport, hcarry⟩
  · have hreported := ((keeps_report _ _ _ _ _ _).eq hreport).trans hprocessed
    exact .inl (standing_eq_iff.mp hreported).1
  · exact .inr ⟨start, reading, ((keeps_report _ _ _ _ _ _).eq hreport).trans hprocessed,
      process_files_cases hprocess, hcarry⟩

/-- A target that is named and not blank is loaded once the variables of the file are added. -/
theorem run_load_target {name : String} {additions env : Environment}
    (hname : ¬ Text.IsBlank name)
    (hadditions : reader.ofPath s.settings.env s.host.files (Path.ofText Settings.standardFile) =
      .ok additions)
    (hadd : s.settings.env.addMissing additions = (env, none)) :
    (loadTarget reader (some name)).run s =
      (.ok ⟨name, hname⟩,
        { s with settings := { s.settings with env, made := s.settings.made + 1 } }) := by
  have hload : (loadSettings reader (some name)).run s =
      (.ok (s.settings.make (.ok additions) (some name)).1,
        { s with settings := (s.settings.make (.ok additions) (some name)).2 }) := by
    rw [← hadditions]
    rfl
  simp only [SettingsState.make, hadd, Settings.target, Option.getD_some, if_neg hname] at hload
  have htarget : Target.ofName? name = some ⟨name, hname⟩ := dif_neg hname
  unfold loadTarget
  rw [run_bind_of_ok hload, run_bind_of_ok (rfl : environment.run _ = (.ok env, _))]
  simp only [Settings.target, Option.getD_some, htarget]
  rfl

/-- None of the paths is missing if something stands at each. -/
theorem run_first_missing {paths : List Path}
    (h : ∀ path ∈ paths, s.host.files.look path = .ok true) :
    (firstMissing? paths).run s = (.ok none, s) := by
  induction paths with
  | nil => rfl
  | cons path rest ih =>
      have hlook : (look path).run s = (.ok true, s) := by
        unfold look
        rw [run_bind_of_ok (rfl : files.run s = (.ok s.host.files, s)),
          h path List.mem_cons_self]
        rfl
      unfold firstMissing?
      rw [run_bind_of_ok hlook]
      exact ih fun p hp => h p (List.mem_cons_of_mem _ hp)

/-- Once the target is loaded and none of the paths is missing, the sources at them are stripped. -/
theorem run_strip {grammar : Grammar} {target : Target} {options : StripOptions} {verbose : Bool}
    {loaded looked : Session}
    (htarget : (loadTarget reader options.target).run s = (.ok target, loaded))
    (hmissing : (firstMissing? options.paths).run loaded = (.ok none, looked)) :
    (strip grammar reader options verbose disk).run s =
      (stripSources grammar target options verbose looked.backupPath
        (looked.host.files.sourceFiles options.paths looked.backupPath) disk).run looked := by
  unfold strip
  rw [run_bind_of_ok htarget, run_bind_of_ok hmissing]
  rfl

/-- Stripping changes nothing, or overwrites those of the sources that it read and that come out
changed. -/
theorem strip_cases {grammar : Grammar} {options : StripOptions} {verbose : Bool}
    {r : Except Stop Unit} (h : (strip grammar reader options verbose disk).run s = (r, after)) :
    after.host = s.host ∨ ∃ target start reading, start.host = s.host ∧ start.input = s.input ∧
      (∀ name, options.target = some name → target.name = name) ∧
      (∀ p ∈ reading.processed,
        p.path ∈ s.host.files.sourceFiles options.paths start.backupPath ∧
          processFile grammar target s.host.files p.path disk = .ok p) ∧
      (carryOut options start.backupPath reading
        (reading.processed.filter fun p => p.result.changed) disk).run start = (r, after) := by
  rcases run_bind_cases h with ⟨stop, htarget, -⟩ | ⟨target, loaded, htarget, hrest⟩
  · exact .inl (Prod.mk.inj ((keeps_load_target _ _).eq htarget)).1
  obtain ⟨hloaded, hloadedInput⟩ := Prod.mk.inj ((keeps_load_target _ _).eq htarget)
  rcases run_bind_cases hrest with ⟨stop, hmissing, -⟩ | ⟨missing, looked, hmissing, hrest⟩
  · exact .inl ((standing_eq_iff.mp ((keeps_first_missing _).eq hmissing)).1.trans hloaded)
  obtain ⟨hlooked, -, hlookedInput⟩ := standing_eq_iff.mp ((keeps_first_missing _).eq hmissing)
  have hhost : looked.host = s.host := hlooked.trans hloaded
  cases missing with
  | some path => exact .inl ((standing_eq_iff.mp ((keeps_abort _).eq hrest)).1.trans hhost)
  | none =>
    rw [run_strip htarget hmissing] at h
    obtain hsame | ⟨start, reading, hstanding, hread, hcarry⟩ := strip_sources_cases h
    · exact .inl (hsame.trans hhost)
    obtain ⟨hstart, hsettings, hinput⟩ := standing_eq_iff.mp hstanding
    have hpath : start.backupPath = looked.backupPath := by
      rw [Session.backupPath, Session.backupPath, hsettings]
    rw [hhost, ← hpath] at hread
    exact .inr ⟨target, start, reading, hstart.trans hhost,
      hinput.trans (hlookedInput.trans hloadedInput),
      fun name hname => load_target_name (hname ▸ htarget), hread, hpath ▸ hcarry⟩

end Command

end Excise
