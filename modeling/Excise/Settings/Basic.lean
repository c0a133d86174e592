import Excise.Settings.Environment
import Excise.Text.Malformed
import Excise.Transform

/-!
# Settings

The target module and the backup directory come from the command line, the environment, or a
standard value, in this order. A `Settings` remembers only what was given explicitly and reads the
rest from the environment at each look, so it changes with the environment. It is refused when the
target module would be blank at that moment, or the file of settings cannot be read
(`SettingsState.make`), and one of them can be shared (`SettingsState.get`).
-/

namespace Excise

/-- A configuration: the number that it was made under, and the target module if one was given. -/
structure Settings where
  serial : Nat
  explicitTarget : Option String
deriving DecidableEq

namespace Settings

/-- The variable with the target module. -/
def targetVariable : String := "UNDEBUG_TARGET_MODULE"

/-- The variable with the backup directory. -/
def backupVariable : String := "UNDEBUG_BACKUP_PATH"

/-- The backup directory where none is named. -/
def standardBackupPath : String := ".undebug_backup"

/-- The file of settings that is read where none is named. -/
def standardFile : String := ".env"

/-- The target module in an environment. -/
def target (s : Settings) (env : Environment) : String :=
  s.explicitTarget.getD ((Table.get? env targetVariable).getD Target.standardName)

/-- The backup directory in an environment. -/
def backupDirectory (env : Environment) : String :=
  (Table.get? env backupVariable).getD standardBackupPath

end Settings

/-- Why a configuration is refused. -/
inductive SettingsError where
  | blankTarget
  | notText (fault : Fault)
  | notSet (error : VariableError)
deriving DecidableEq

/-- The message of a refused configuration. -/
def SettingsError.message : SettingsError → String
  | .blankTarget => "Target module is empty. Pass --target or set UNDEBUG_TARGET_MODULE."
  | .notText fault => fault.message
  | .notSet error => error.message

/-- The state that configurations are made in: the environment, the shared configuration if it has
been made, and the number of those made so far. -/
structure SettingsState where
  env : Environment
  shared : Option Settings
  made : Nat
deriving DecidableEq

namespace SettingsState

variable (s : SettingsState)

/-- Make a configuration after adding the variables of a file of settings. The variables stay even
where the configuration is refused. -/
def make (additions : Except Fault Environment) (explicitTarget : Option String) :
    Except SettingsError Settings × SettingsState :=
  match additions with
  | .error fault => (.error (.notText fault), s)
  | .ok additions =>
      let (env, obstacle) := s.env.addMissing additions
      let settings : Settings := ⟨s.made, explicitTarget⟩
      let s' : SettingsState := { s with env, made := s.made + 1 }
      match obstacle with
      | some e => (.error (.notSet e), s')
      | none =>
          if Text.IsBlank (settings.target env) then (.error .blankTarget, s')
          else (.ok settings, s')

/-- The shared configuration, which is made at the first call that is not refused. -/
def get (additions : Except Fault Environment) : Except SettingsError Settings × SettingsState :=
  match s.shared with
  | some settings => (.ok settings, s)
  | none =>
      match s.make additions none with
      | (.ok settings, s') => (.ok settings, { s' with shared := some settings })
      | (.error e, s') => (.error e, s')

/-- Forget the shared configuration. -/
def reset : SettingsState := { s with shared := none }

end SettingsState

end Excise
