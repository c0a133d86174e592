import Excise.Program.SettingsLines
import Excise.Settings.Basic

/-!
# Which targets are handed out

A process changes its environment and its files, and asks for settings. Whatever the format of its
files of settings is, new settings have a target that is not blank, or are refused with a reason
(`make_cases`), and shared settings never have a target of their own (`shares_implicit_after`). But
those are handed out again as they are, whatever the environment says by then: so a blank target is
handed out exactly if the variable of the target was set to a blank text since they were made
(`blank_target_iff`).
-/

namespace Excise

/-- A process that uses settings: its files, and the state that its settings are made in. -/
structure SettingsProcess where
  files : FileSystem
  settings : SettingsState

/-- What a process does: it sets or removes a variable, its files are changed to others, it forgets
the shared settings, makes settings of its own from a file, or asks for the shared ones. -/
inductive SettingsAction where
  | setVariable (name : String) (value : Option String)
  | changeFiles (files : FileSystem)
  | reset
  | make (explicitTarget : Option String) (file : Path)
  | get

/-- The target and the file for new settings that an action may ask for. -/
def SettingsAction.wanted? : SettingsAction → Option (Option String × Path)
  | .make explicitTarget file => some (explicitTarget, file)
  | .get => some (none, Path.ofText Settings.standardFile)
  | .setVariable _ _ | .changeFiles _ | .reset => none

/-- The variables that the file of settings at a path would add to those of a process. -/
def SettingsProcess.additions (p : SettingsProcess) (reader : SettingsReader) (file : Path) :
    Except Fault Environment :=
  reader.ofPath p.settings.env p.files file

/-- What an action that asks for settings gets, and the process after an action. -/
def SettingsProcess.perform (p : SettingsProcess) (reader : SettingsReader) :
    SettingsAction → Option (Except SettingsError Settings) × SettingsProcess
  | .setVariable name value =>
      (none, { p with settings := { p.settings with env := p.settings.env.update name value } })
  | .changeFiles files => (none, { p with files })
  | .reset => (none, { p with settings := p.settings.reset })
  | .make explicitTarget file =>
      let made := p.settings.make (p.additions reader file) explicitTarget
      (some made.1, { p with settings := made.2 })
  | .get =>
      let shared := p.settings.get (p.additions reader (Path.ofText Settings.standardFile))
      (some shared.1, { p with settings := shared.2 })

/-- The process after some actions. -/
def SettingsProcess.after (p : SettingsProcess) (reader : SettingsReader)
    (actions : List SettingsAction) : SettingsProcess :=
  actions.foldl (fun p action => (p.perform reader action).2) p

/-- Why new settings are refused: the file of settings is no text; it has a variable that cannot be
set for a character in its name or value; or the target would be blank. -/
inductive IsRefused (env : Environment) (explicitTarget : Option String) :
    Except Fault Environment → SettingsError → Prop where
  | notText (fault : Fault) : IsRefused env explicitTarget (.error fault) (.notText fault)
  | notSet (additions : Environment) (e : VariableError)
      (stopped : (env.addMissing additions).2 = some e) (character : e ≠ .noName) :
      IsRefused env explicitTarget (.ok additions) (.notSet e)
  | blankTarget (additions : Environment) (complete : (env.addMissing additions).2 = none)
      (blank : Text.IsBlank
        ((⟨0, explicitTarget⟩ : Settings).target (env.addMissing additions).1)) :
      IsRefused env explicitTarget (.ok additions) .blankTarget

/-- Shared settings have no target of their own. -/
def SettingsState.SharesImplicit (s : SettingsState) : Prop :=
  ∀ settings, s.shared = some settings → settings.explicitTarget = none

/-- No variable of a file of settings has an empty name. -/
def IsNamed (additions : Except Fault Environment) : Prop :=
  ∀ found, additions = .ok found → ∀ v ∈ found, v.1 ≠ ""

variable {s s' : SettingsState} {additions : Except Fault Environment}
  {explicitTarget : Option String} {outcome : Except SettingsError Settings} {settings : Settings}
  {env : Environment}

/-! ## New settings -/

/-- A variable with a name is not refused for want of one. -/
theorem obstacle_ne_no_name {name value : String} (h : name ≠ "") :
    Environment.obstacle? name value ≠ some .noName := by
  rw [Environment.obstacle?, if_neg h]
  split
  · decide
  · split <;> decide

/-- Variables that have names are not refused for want of one. -/
theorem add_missing_ne_no_name {found : Environment} (h : ∀ v ∈ found, v.1 ≠ "") :
    (env.addMissing found).2 ≠ some .noName := by
  induction found generalizing env with
  | nil => exact nofun
  | cons v rest ih =>
      obtain ⟨hname, hrest⟩ := List.forall_mem_cons.mp h
      rw [Environment.addMissing]
      split
      · exact ih hrest
      · split
        case h_1 e hobstacle =>
          exact fun he => obstacle_ne_no_name hname (hobstacle.trans he)
        case h_2 => exact ih hrest

/-- What a reader finds in a file has names. -/
theorem SettingsProcess.additions_named (p : SettingsProcess) (reader : SettingsReader)
    (file : Path) : IsNamed (p.additions reader file) := by
  intro found h
  unfold SettingsProcess.additions SettingsReader.ofPath at h
  split at h
  · obtain rfl := Except.ok.inj h
    exact fun v hv => absurd hv List.not_mem_nil
  · exact reader.named _ _ _ h

/-- Making settings leaves the shared ones. The new ones have the given target, if any, and a target
that is not blank; or there is a reason to refuse them. -/
theorem make_cases (hnamed : IsNamed additions)
    (h : s.make additions explicitTarget = (outcome, s')) :
    s'.shared = s.shared ∧
      ((∃ settings, outcome = .ok settings ∧ settings.explicitTarget = explicitTarget ∧
          ¬ Text.IsBlank (settings.target s'.env)) ∨
        ∃ e, outcome = .error e ∧ IsRefused s.env explicitTarget additions e) := by
  cases additions with
  | error fault =>
      obtain ⟨rfl, rfl⟩ := Prod.mk.inj h
      exact ⟨rfl, .inr ⟨_, rfl, .notText fault⟩⟩
  | ok additions =>
      simp only [SettingsState.make] at h
      cases hobstacle : (s.env.addMissing additions).2 with
      | some e =>
          rw [hobstacle] at h
          obtain ⟨rfl, rfl⟩ := Prod.mk.inj h
          have hcharacter : e ≠ .noName := fun he =>
            add_missing_ne_no_name (hnamed additions rfl) (he ▸ hobstacle)
          exact ⟨rfl, .inr ⟨_, rfl, .notSet additions e hobstacle hcharacter⟩⟩
      | none =>
          simp only [hobstacle] at h
          split at h
          case isTrue hblank =>
            obtain ⟨rfl, rfl⟩ := Prod.mk.inj h
            exact ⟨rfl, .inr ⟨_, rfl, .blankTarget additions hobstacle hblank⟩⟩
          case isFalse hblank =>
            obtain ⟨rfl, rfl⟩ := Prod.mk.inj h
            exact ⟨rfl, .inl ⟨_, rfl, rfl, hblank⟩⟩

/-- The shared settings are handed out as they are; where there are none, new ones are made and
shared, or refused. -/
theorem get_cases (hnamed : IsNamed additions) (h : s.get additions = (outcome, s')) :
    (∃ settings, s.shared = some settings ∧ outcome = .ok settings ∧ s' = s) ∨
      s.shared = none ∧
        ((∃ settings, outcome = .ok settings ∧ s'.shared = some settings ∧
            settings.explicitTarget = none ∧ ¬ Text.IsBlank (settings.target s'.env)) ∨
          ∃ e, outcome = .error e ∧ s'.shared = none ∧ IsRefused s.env none additions e) := by
  unfold SettingsState.get at h
  cases hshared : s.shared with
  | some settings =>
      rw [hshared] at h
      obtain ⟨rfl, rfl⟩ := Prod.mk.inj h
      exact .inl ⟨settings, rfl, rfl, rfl⟩
  | none =>
      rw [hshared] at h
      refine .inr ⟨rfl, ?_⟩
      rcases hmake : s.make additions none with ⟨made, state⟩
      obtain ⟨hkept, hmade⟩ := make_cases hnamed hmake
      rw [hmake] at h
      rcases hmade with ⟨settings, rfl, hexplicit, hblank⟩ | ⟨e, rfl, hrefused⟩
      · obtain ⟨rfl, rfl⟩ := Prod.mk.inj h
        exact .inl ⟨settings, rfl, rfl, hexplicit, hblank⟩
      · obtain ⟨rfl, rfl⟩ := Prod.mk.inj h
        exact .inr ⟨e, rfl, hkept.trans hshared, hrefused⟩

/-- Settings without a target of their own have a blank one if the variable is set to a blank
text. -/
theorem blank_target_of_implicit (h : settings.explicitTarget = none) :
    Text.IsBlank (settings.target env) ↔
      ∃ value, Table.get? env Settings.targetVariable = some value ∧ Text.IsBlank value := by
  rw [Settings.target, h, Option.getD_none]
  cases Table.get? env Settings.targetVariable with
  | none =>
      rw [Option.getD_none]
      refine iff_of_false (by decide +kernel) ?_
      rintro ⟨value, hvalue, -⟩
      exact nomatch hvalue
  | some value => simp

/-! ## Runs -/

namespace SettingsProcess

variable {p q : SettingsProcess} {reader : SettingsReader} {action : SettingsAction}

/-- What an action that asks for settings gets: the shared settings, which leaves the process as it
is; new settings with a target that is not blank; or a refusal, which leaves the shared ones. -/
theorem asked_cases (h : p.perform reader action = (some outcome, q)) :
    (action = .get ∧
        ∃ settings, p.settings.shared = some settings ∧ outcome = .ok settings ∧ q = p) ∨
      ∃ explicitTarget file, action.wanted? = some (explicitTarget, file) ∧
        ((∃ settings, outcome = .ok settings ∧ settings.explicitTarget = explicitTarget ∧
            ¬ Text.IsBlank (settings.target q.settings.env) ∧
            (q.settings.shared = p.settings.shared ∨
              q.settings.shared = some settings ∧ explicitTarget = none)) ∨
          ∃ e, outcome = .error e ∧ q.settings.shared = p.settings.shared ∧
            IsRefused p.settings.env explicitTarget (p.additions reader file) e) := by
  cases action with
  | setVariable name value => exact nomatch (Prod.mk.inj h).1
  | changeFiles files => exact nomatch (Prod.mk.inj h).1
  | reset => exact nomatch (Prod.mk.inj h).1
  | make explicitTarget file =>
      rcases hmake : p.settings.make (p.additions reader file) explicitTarget with ⟨made, s'⟩
      obtain ⟨hkept, hmade⟩ := make_cases (p.additions_named reader file) hmake
      simp only [perform, hmake] at h
      obtain ⟨houtcome, rfl⟩ := Prod.mk.inj h
      obtain rfl := Option.some.inj houtcome
      refine .inr ⟨explicitTarget, file, rfl, ?_⟩
      rcases hmade with ⟨settings, rfl, hexplicit, hblank⟩ | ⟨e, rfl, hrefused⟩
      · exact .inl ⟨settings, rfl, hexplicit, hblank, .inl hkept⟩
      · exact .inr ⟨e, rfl, hkept, hrefused⟩
  | get =>
      rcases hget : p.settings.get (p.additions reader (Path.ofText Settings.standardFile))
        with ⟨shared, s'⟩
      simp only [perform, hget] at h
      obtain ⟨houtcome, rfl⟩ := Prod.mk.inj h
      obtain rfl := Option.some.inj houtcome
      rcases get_cases (p.additions_named reader _) hget with
        ⟨settings, hshared, rfl, rfl⟩ | ⟨hnone, ⟨settings, rfl, hshared, hexplicit, hblank⟩ |
          ⟨e, rfl, hkept, hrefused⟩⟩
      · exact .inl ⟨rfl, settings, hshared, rfl, rfl⟩
      · exact .inr ⟨none, _, rfl, .inl ⟨settings, rfl, hexplicit, hblank, .inr ⟨hshared, rfl⟩⟩⟩
      · exact .inr ⟨none, _, rfl, .inr ⟨e, rfl, hkept.trans hnone.symm, hrefused⟩⟩

/-- Asking for settings keeps shared ones without a target of their own. -/
theorem shares_implicit_asked (h : p.settings.SharesImplicit)
    (hasked : p.perform reader action = (some outcome, q)) : q.settings.SharesImplicit := by
  intro settings hshared
  rcases asked_cases hasked with ⟨-, -, -, -, rfl⟩ | ⟨explicitTarget, file, -,
    ⟨made, -, hexplicit, -, hkept | ⟨hmade, rfl⟩⟩ | ⟨-, -, hkept, -⟩⟩
  · exact h settings hshared
  · exact h settings (hkept ▸ hshared)
  · obtain rfl : made = settings := Option.some.inj (hmade.symm.trans hshared)
    exact hexplicit
  · exact h settings (hkept ▸ hshared)

/-- An action keeps shared settings without a target of their own. -/
theorem shares_implicit_perform (h : p.settings.SharesImplicit) (action : SettingsAction) :
    (p.perform reader action).2.settings.SharesImplicit := by
  cases action with
  | setVariable name value => exact h
  | changeFiles files => exact h
  | reset => exact fun settings hshared => nomatch hshared
  | make explicitTarget file =>
      exact shares_implicit_asked h (rfl : p.perform reader (.make explicitTarget file) = _)
  | get => exact shares_implicit_asked h (rfl : p.perform reader .get = _)

/-- Shared settings never have a target of their own. -/
theorem shares_implicit_after (h : p.settings.SharesImplicit) (actions : List SettingsAction) :
    (p.after reader actions).settings.SharesImplicit := by
  induction actions generalizing p with
  | nil => exact h
  | cons action rest ih => exact ih (shares_implicit_perform h action)

/-- Whatever a process without shared settings has done, when it asks for settings then it is
refused them for a reason, which leaves the shared ones; or it gets some, which have a target of
their own only if it gave one. Their target is blank exactly if they are the ones that were shared
before and the variable of the target is set to a blank text. -/
theorem blank_target_iff (reader : SettingsReader) (start : SettingsProcess)
    (actions : List SettingsAction) (hstart : start.settings.shared = none)
    (hasked : (start.after reader actions).perform reader action = (some outcome, q)) :
    (∃ settings, outcome = .ok settings ∧
        (∃ file, action.wanted? = some (settings.explicitTarget, file)) ∧
        (Text.IsBlank (settings.target q.settings.env) ↔
          action = .get ∧ (start.after reader actions).settings.shared = some settings ∧
            ∃ value, Table.get? q.settings.env Settings.targetVariable = some value ∧
              Text.IsBlank value)) ∨
      ∃ e, outcome = .error e ∧
        q.settings.shared = (start.after reader actions).settings.shared ∧
        ∃ explicitTarget file, action.wanted? = some (explicitTarget, file) ∧
          IsRefused (start.after reader actions).settings.env explicitTarget
            ((start.after reader actions).additions reader file) e := by
  have himplicit : (start.after reader actions).settings.SharesImplicit := by
    refine shares_implicit_after (fun settings hshared => ?_) actions
    exact nomatch hstart.symm.trans hshared
  rcases asked_cases hasked with ⟨rfl, settings, hshared, rfl, rfl⟩ |
    ⟨explicitTarget, file, hwanted, ⟨settings, rfl, rfl, hblank, -⟩ | ⟨e, rfl, hkept, hrefused⟩⟩
  · have hnone := himplicit settings hshared
    refine .inl ⟨settings, rfl, ⟨Path.ofText Settings.standardFile, ?_⟩, ?_⟩
    · rw [hnone]
      rfl
    · rw [blank_target_of_implicit hnone]
      exact ⟨fun hvalue => ⟨rfl, hshared, hvalue⟩, fun hand => hand.2.2⟩
  · refine .inl ⟨settings, rfl, ⟨file, hwanted⟩, iff_of_false hblank ?_⟩
    rintro ⟨-, hshared, hvalue⟩
    exact hblank ((blank_target_of_implicit (himplicit settings hshared)).mpr hvalue)
  · exact .inr ⟨e, rfl, hkept, explicitTarget, file, hwanted, hrefused⟩

/-- A process without files and variables that has not asked for settings. -/
def bare : SettingsProcess := ⟨⟨[], []⟩, ⟨[], none, 0⟩⟩

/-- Ask for the shared settings, and set the variable of the target to a blank text. -/
def blankingActions : List SettingsAction :=
  [.get, .setVariable Settings.targetVariable (some " ")]

/-- What the bare process gets when it asks for the shared settings after some actions. -/
def askedAfter (actions : List SettingsAction) :
    Option (Except SettingsError Settings) × SettingsProcess :=
  (bare.after .plainLines actions).perform .plainLines .get

/-- After the shared settings are forgotten, the blank target is refused, and none are shared. -/
theorem blank_target_refused_after_reset :
    (askedAfter (blankingActions ++ [.reset])).1 = some (.error .blankTarget) ∧
      (askedAfter (blankingActions ++ [.reset])).2.settings.shared = none := by
  have hrefused : (askedAfter (blankingActions ++ [.reset])).1 = some (.error .blankTarget) := rfl
  refine ⟨hrefused, ?_⟩
  have hasked : (bare.after .plainLines (blankingActions ++ [.reset])).perform .plainLines .get =
      (some (.error .blankTarget), (askedAfter (blankingActions ++ [.reset])).2) :=
    Prod.ext hrefused rfl
  rcases blank_target_iff .plainLines bare (blankingActions ++ [.reset]) rfl hasked with
    ⟨settings, hok, -⟩ | ⟨e, -, hkept, -⟩
  · exact nomatch hok
  · exact hkept

/-- Before that, the shared settings are handed out once more, with the blank target. -/
theorem shared_target_turns_blank :
    (askedAfter blankingActions).1 = some (.ok ⟨0, none⟩) ∧
      Text.IsBlank
        ((⟨0, none⟩ : Settings).target (askedAfter blankingActions).2.settings.env) :=
  ⟨rfl, by decide +kernel⟩

end SettingsProcess

end Excise
