import Excise.Command.Invocation
import Excise.Program.Arguments

/-!
# Reading a command line

`Invocation.ofWords` gives what the words of a command line ask for, or says why they cannot be
read. A request for help or for the version goes before the arguments are looked at.
-/

namespace Excise.Command

open Program

/-- The option that asks for help. -/
def helpSpec : OptionSpec := ⟨"help", "--help", none, false⟩

/-- The option for the target. -/
def targetSpec : OptionSpec := ⟨"target", "--target", some 't', true⟩

/-- The options before the command. -/
def mainSpecs : List OptionSpec :=
  [⟨"verbose", "--verbose", some 'v', false⟩, ⟨"version", "--version", none, false⟩, helpSpec]

/-- The options of `strip`. -/
def stripSpecs : List OptionSpec :=
  [targetSpec, ⟨"dry-run", "--dry-run", none, false⟩, ⟨"check", "--check", none, false⟩,
    ⟨"diff", "--diff", none, false⟩, ⟨"no-backup", "--no-backup", none, false⟩,
    ⟨"yes", "--yes", some 'y', false⟩, helpSpec]

/-- The options of `show`. -/
def previewSpecs : List OptionSpec :=
  [targetSpec, ⟨"language", "--language", some 'l', true⟩, helpSpec]

/-- The options of `restore`. -/
def restoreSpecs : List OptionSpec := [⟨"list", "--list", none, false⟩, helpSpec]

/-- A character without its case. Besides the ASCII letters, the long s counts as an s. -/
def foldChar (c : Char) : Char := if c = 'ſ' then 's' else c.toLower

/-- The language of a name in any case. -/
def languageOfName? (name : String) : Option Language :=
  Language.ofName? (String.ofList (name.toList.map foldChar))

namespace Invocation

/-- The words ask to strip files. -/
def ofStripWords (verbose : Bool) (words : List String) : Except UsageError Invocation := do
  let s ← scan stripSpecs true words
  if s.Has "help" then return .help
  if s.arguments = [] then throw (.missingArgument "PATHS...")
  return .strip ⟨s.arguments.map Path.ofText, s.value? "target", s.Has "dry-run", s.Has "check",
    s.Has "diff", s.Has "no-backup", s.Has "yes"⟩ verbose

/-- The language that the words choose, if they choose one. -/
def chosenLanguage (s : Scan) : Except UsageError (Option Language) :=
  match s.value? "language" with
  | none => .ok none
  | some name =>
      match languageOfName? name with
      | some language => .ok (some language)
      | none => .error (.unknownChoice name)

/-- The words ask to preview a file. -/
def ofPreviewWords (verbose : Bool) (words : List String) : Except UsageError Invocation := do
  let s ← scan previewSpecs true words
  if s.Has "help" then return .help
  match s.arguments with
  | [] => throw (.missingArgument "FILE")
  | [file] => return .preview ⟨file, s.value? "target", ← chosenLanguage s⟩ verbose
  | _ :: word :: _ => throw (.extraArgument word)

/-- The words ask to restore files. -/
def ofRestoreWords (words : List String) : Except UsageError Invocation := do
  let s ← scan restoreSpecs true words
  if s.Has "help" then return .help
  return .restore ⟨s.arguments, s.Has "list"⟩

/-- What the words of a command line ask for. Of requests for help and for the version the first one
counts. -/
def ofWords (words : List String) : Except UsageError Invocation := do
  let s ← scan mainSpecs false words
  match s.options.find? fun o => o.1 ≠ "verbose" with
  | some o => return if o.1 = "version" then .version else .help
  | none =>
      match s.arguments with
      | [] => throw .noCommand
      | command :: rest =>
          if command = "strip" then ofStripWords (s.Has "verbose") rest
          else if command = "show" then ofPreviewWords (s.Has "verbose") rest
          else if command = "restore" then ofRestoreWords rest
          else throw (.unknownCommand command)

end Invocation

end Excise.Command
