import Excise.Command.Session
import Excise.Program.Markup
import Excise.Program.Screen

/-!
# Displaying what was printed

A screen shows the messages of a report without their markup and without controls
(`Report.display?`). A report in which a tag closes no open style cannot be shown, nor what comes
after it (`displayAll`). `Printed.text` is the text of something shown: a line with its end, or a
table with its columns side by side under its title. `Printed.IsDiagnostic` says whether it goes to
the standard error.
-/

namespace Excise.Command

open Program

/-- A report as a screen shows it. -/
inductive Printed where
  | line (text : String)
  | table (title : String) (header : List String) (rows : List (List String))
  | difference (text : String)
  | plain (text : String)
  | error (text : String)
  | note (text : String)
deriving DecidableEq

/-- What is shown of a piece of a message. -/
def Piece.display? : Piece → Option String
  | .words text => some text
  | .quoted text => some (Markup.shown text)
  | .marked text => Markup.plain? text

/-- What is shown of a message. -/
def Message.display? (message : Message) : Option String :=
  (message.mapM Piece.display?).map fun pieces => onScreen (String.join pieces)

/-- What is shown of a report. Plain text goes out as it is. -/
def Report.display? : Report → Option Printed
  | .line message => (Message.display? message).map .line
  | .table title header rows => do
      return .table (← Message.display? title) header (← rows.mapM (List.mapM Message.display?))
  | .difference text => some (.difference (codeOnScreen text))
  | .plain text => some (.plain text)
  | .error message => (Message.display? message).map .error
  | .note text => some (.note (onScreen text))

/-- What is shown of some reports, up to one that cannot be shown. Says whether none was left
out. -/
def displayAll : List Report → List Printed × Bool
  | [] => ([], true)
  | report :: rest =>
      match report.display? with
      | none => ([], false)
      | some printed =>
          let (others, complete) := displayAll rest
          (printed :: others, complete)

/-- Widths of columns, each at least that of a cell of one more row. -/
def widened : List Nat → List String → List Nat
  | widths, [] => widths
  | [], cell :: row => cell.length :: widened [] row
  | width :: widths, cell :: row => max width cell.length :: widened widths row

/-- A row with its cells filled up to the widths of the columns. -/
def layRow (widths : List Nat) (row : List String) : String :=
  let cells := List.zipWith (fun width (cell : String) =>
    cell ++ String.ofList (List.replicate (width - cell.length) ' ')) widths row
  Text.trimEnd (String.intercalate "  " cells)

/-- The lines of a table. -/
def tableLines (title : String) (header : List String) (rows : List (List String)) : List String :=
  let widths := (header :: rows).foldl widened []
  title :: layRow widths header :: rows.map (layRow widths)

/-- The text of something printed. -/
def Printed.text : Printed → String
  | .line text => text ++ "\n"
  | .table title header rows => String.join ((tableLines title header rows).map (· ++ "\n"))
  | .difference text => text ++ "\n"
  | .plain text => text
  | .error text => text ++ "\n"
  | .note text => text ++ "\n"

/-- Errors and notes go to the standard error. -/
def Printed.IsDiagnostic : Printed → Prop
  | .error _ => True
  | .note _ => True
  | _ => False

/-- The kinds are told apart. -/
instance (p : Printed) : Decidable p.IsDiagnostic := by
  cases p <;> unfold Printed.IsDiagnostic <;> infer_instance

end Excise.Command
