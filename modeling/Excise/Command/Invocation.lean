import Excise.Files.Path
import Excise.Language

/-!
# Commands

What a command line asks for: help, the version, to strip files in place, to preview one file, or to
restore files from their backups.
-/

namespace Excise.Command

/-- How to strip files: which, of what target, and what to write, print and ask. -/
structure StripOptions where
  paths : List Path
  target : Option String
  dryRun : Bool
  check : Bool
  showDiff : Bool
  noBackup : Bool
  yes : Bool
deriving DecidableEq

/-- How to preview a file, or the standard input where the name is a dash. -/
structure PreviewOptions where
  file : String
  target : Option String
  language : Option Language
deriving DecidableEq

/-- Which backups to restore, and whether to list them instead. -/
structure RestoreOptions where
  ids : List String
  listOnly : Bool
deriving DecidableEq

/-- What a command line asks for. -/
inductive Invocation where
  | help
  | version
  | strip (options : StripOptions) (verbose : Bool)
  | preview (options : PreviewOptions) (verbose : Bool)
  | restore (options : RestoreOptions)
deriving DecidableEq

/-- The command reads the standard input: as a source, or for an answer. -/
def Invocation.ReadsInput : Invocation → Prop
  | .strip options _ => ¬ (options.yes ∨ options.check ∨ options.dryRun)
  | .preview options _ => options.file = "-"
  | _ => False

/-- The options are looked at. -/
instance (i : Invocation) : Decidable i.ReadsInput := by
  cases i <;> unfold Invocation.ReadsInput <;> infer_instance

end Excise.Command
