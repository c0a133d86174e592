import Excise.Table

/-!
# Environments

An environment gives values to variables. A file of settings adds the variables that the environment
does not have yet (`Environment.addMissing`), up to one that cannot be set: its name or its value
has a null character, or its name has an equals sign or is empty (`VariableError`).
-/

namespace Excise

/-- Variables with their values. -/
abbrev Environment := Table String String

namespace Environment

/-- Set a variable, or remove it. -/
def update (env : Environment) (name : String) (value : Option String) : Environment :=
  value.elim (Table.erase env name) (Table.set env name)

end Environment

/-- Why a variable cannot be set. -/
inductive VariableError where
  | nullCharacter
  | illegalName
  | noName
deriving DecidableEq

/-- The message for a variable that cannot be set. -/
def VariableError.message : VariableError → String
  | .nullCharacter => "embedded null byte"
  | .illegalName => "illegal environment variable name"
  | .noName => "[Errno 22] Invalid argument"

namespace Environment

/-- Why a variable cannot get a value, if it cannot. -/
def obstacle? (name value : String) : Option VariableError :=
  if '\x00' ∈ name.toList ∨ '\x00' ∈ value.toList then some .nullCharacter
  else if '=' ∈ name.toList then some .illegalName
  else if name = "" then some .noName
  else none

/-- Add the variables that are not set yet, up to one that cannot be set; an empty variable is set.
Says why that one cannot be set, if there is one. -/
def addMissing (env : Environment) : Environment → Environment × Option VariableError
  | [] => (env, none)
  | v :: rest =>
      if (Table.get? env v.1).isSome then addMissing env rest
      else
        match obstacle? v.1 v.2 with
        | some e => (env, some e)
        | none => addMissing (Table.set env v.1 v.2) rest

end Environment

end Excise
