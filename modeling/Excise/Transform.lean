import Excise.Edit.Application
import Excise.Language
import Excise.Flow.Analysis
import Excise.Text.Blank

/-!
# Transforming sources

`transform` follows the target module through one source and carries out the plan. A source with
syntax errors is left alone. `transformAll` does so for files, choosing the language by the
extension, and leaves files of other types alone.
-/

namespace Excise

/-- The name of a module to remove, which is not blank. -/
structure Target where
  name : String
  not_blank : ¬ Text.IsBlank name

namespace Target

/-- The module removed where none is named. -/
def standardName : String := "debug"

/-- The target of a name that is not blank. -/
def ofName? (name : String) : Option Target :=
  if h : Text.IsBlank name then none else some ⟨name, h⟩

/-- The message for a blank name. -/
def emptyMessage : String := "Target module is empty"

end Target

/-- Why a source was left alone. -/
inductive SkipReason where
  | syntaxErrors
  | unsupportedFile
deriving DecidableEq

/-- The words for a reason. -/
def SkipReason.text : SkipReason → String
  | .syntaxErrors => "syntax errors"
  | .unsupportedFile => "unsupported file type"

/-- What became of a source: its code, whether it differs from the source, the number of tainted
variables and of passes, what was removed, why it was left alone if it was, and what was reported on
the way. -/
structure Transformed where
  code : String
  changed : Bool
  tainted : Nat
  passes : Nat
  tally : Tally
  skipped : Option SkipReason
  log : List String
deriving DecidableEq

/-- The result for a source that is left alone. -/
def Transformed.skip (code : String) (reason : SkipReason) : Transformed :=
  ⟨code, false, 0, 0, .zero, some reason, []⟩

/-- The result of a finished analysis. -/
def Transformed.ofAnalysis (tree : Tree) (code : String) (a : Analysis) : Transformed :=
  let messages := a.log.map AnalysisEvent.message
  if a.plan.IsEmpty then ⟨code, false, a.tainted.length, a.passes, .zero, none, messages⟩
  else
    let application := a.plan.apply tree
    let after := Bytes.text application.source
    ⟨after, after ≠ code, a.tainted.length, a.passes, application.tally, none,
      messages ++ application.log.map EditEvent.message⟩

/-- Remove the target from a source, given its tree. -/
def transformParsed (target : Target) (code : String) (parsed : Parsed) : Transformed :=
  if parsed.hasErrors then .skip code .syntaxErrors
  else .ofAnalysis parsed.tree code (Analysis.run parsed.tree target.name)

/-- Remove the target from a source in a language. -/
def transform (grammar : Grammar) (target : Target) (language : Language) (code : String) :
    Transformed :=
  transformParsed target code (grammar language (Bytes.ofText code))

/-- Remove the target from the source of a file. -/
def transformFile (grammar : Grammar) (target : Target) (path : Path) (code : String) :
    Transformed :=
  match Language.ofPath? path with
  | none => .skip code .unsupportedFile
  | some language => transform grammar target language code

/-- Remove the target from files. A path named twice counts once, with its last source. -/
def transformAll (grammar : Grammar) (target : Target) (files : List (Path × String)) :
    Table Path Transformed :=
  (Table.ofList files).map fun f => (f.1, transformFile grammar target f.1 f.2)

end Excise
