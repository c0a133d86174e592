import Excise.Command.Preview
import Excise.Command.Restore
import Excise.Command.Strip
import Excise.Program.CommandLine
import Excise.Program.Display
import Excise.Program.SettingsLines

/-!
# Running a command line

`run` carries out a command line in a session and gives what a screen shows and how it ended. A
command line that cannot be read ends with exit code 2, a failure with exit code 1.
-/

namespace Excise.Command

open CommandAction

/-- How a command line ended: the exit code, what was shown, and the failure that ended it, if one
did. -/
structure Outcome where
  exitCode : Nat
  printed : List Printed
  failure : Option Failure
deriving DecidableEq

/-- The version of the program. -/
def versionLine : String := "undebug 1.0.0"

/-- How to use the program. -/
def usage : String :=
  "Usage: undebug [--verbose] [--version] [--help] COMMAND\n\n" ++
  "Remove every import and use of a debugging module from JavaScript/TypeScript sources.\n\n" ++
  "Commands:\n" ++
  "  strip    PATHS... [-t TARGET] [--dry-run] [--check] [--diff] [--no-backup] [-y]\n" ++
  "  show     FILE [-t TARGET] [-l LANGUAGE]\n" ++
  "  restore  [IDS...] [--list]"

/-- The outcome of a command that ended and of what it printed. A report that cannot be shown ends
the command. -/
def Outcome.ofReports (exitCode : Nat) (reports : List Report) (failure : Option Failure) :
    Outcome :=
  match displayAll reports with
  | (printed, true) => ⟨exitCode, printed, failure⟩
  | (printed, false) => ⟨1, printed, some .badMarkup⟩

/-- Carry out what a command line asks for. -/
def perform (grammar : Grammar) (reader : SettingsReader) (invocation : Invocation)
    (disk : Disk := .reliable) : CommandAction Unit :=
  match invocation with
  | .help => print (.line [.words usage])
  | .version => print (.line [.words versionLine])
  | .strip options verbose => strip grammar reader options verbose disk
  | .preview options verbose => preview grammar reader options verbose disk
  | .restore options => restore reader options disk

/-- Carry out a command line. What was printed before and the shared configuration of an earlier
command do not count. -/
def run (grammar : Grammar) (words : List String) (session : Session)
    (reader : SettingsReader := .plainLines) (disk : Disk := .reliable) : Outcome × Session :=
  let fresh := { session with settings := session.settings.reset, printed := [] }
  match Invocation.ofWords words with
  | .error e => (⟨2, [.error s!"Usage error: {e.message}"], none⟩, fresh)
  | .ok invocation =>
      let (stop, after) := (perform grammar reader invocation disk).run fresh
      let outcome := match stop with
        | .ok () => Outcome.ofReports 0 after.printed none
        | .error (.exit code) => Outcome.ofReports code after.printed none
        | .error (.failed failure) => Outcome.ofReports 1 after.printed (some failure)
      (outcome, after)

end Excise.Command
