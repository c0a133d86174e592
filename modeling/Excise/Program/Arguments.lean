/-!
# Command line arguments

`scan` divides the words of a command line into options and arguments. An option is spelled with two
dashes, its value in the next word or after an equals sign, or with one dash and a letter; letters
of options without value may share a dash, and a value may follow its letter directly. Two dashes
alone end the options. A word that is a dash is an argument.
-/

namespace Excise.Program

/-- Why a command line cannot be carried out. -/
inductive UsageError where
  | noCommand
  | unknownCommand (name : String)
  | unknownOption (spelling : String)
  | noValue (spelling : String)
  | needlessValue (spelling : String)
  | missingArgument (name : String)
  | extraArgument (word : String)
  | unknownChoice (value : String)
deriving DecidableEq

/-- The message for a command line that cannot be carried out. -/
def UsageError.message : UsageError → String
  | .noCommand => "Missing command."
  | .unknownCommand name => s!"No such command '{name}'."
  | .unknownOption spelling => s!"No such option: {spelling}"
  | .noValue spelling => s!"Option '{spelling}' requires an argument."
  | .needlessValue spelling => s!"Option '{spelling}' does not take a value."
  | .missingArgument name => s!"Missing argument '{name}'."
  | .extraArgument word => s!"Got unexpected extra argument ({word})"
  | .unknownChoice value => s!"'{value}' is not one of the languages."

/-- An option: its name, how it is spelled, and whether a value goes with it. -/
structure OptionSpec where
  name : String
  long : String
  short : Option Char
  takesValue : Bool

/-- The options of a command line with their values, in order, and its arguments. -/
structure Scan where
  options : List (String × String)
  arguments : List String
deriving DecidableEq

/-- What one word of a command line holds: options, the last of which may wait for its value in the
next word; an argument; or the end of the options. -/
inductive Word where
  | options (found : List (String × String)) (waiting : Option String)
  | argument
  | endOfOptions
deriving DecidableEq

namespace Scan

/-- The scan with options in front. -/
def withOptions (found : List (String × String)) (s : Scan) : Scan :=
  { s with options := found ++ s.options }

/-- The scan with an argument in front. -/
def withArgument (word : String) (s : Scan) : Scan :=
  { s with arguments := word :: s.arguments }

/-- The option occurs. -/
def Has (s : Scan) (name : String) : Prop := ∃ o ∈ s.options, o.1 = name

/-- The options are looked through. -/
instance (s : Scan) (name : String) : Decidable (s.Has name) :=
  inferInstanceAs (Decidable (∃ o ∈ s.options, o.1 = name))

/-- The last value of an option. -/
def value? (s : Scan) (name : String) : Option String := s.options.reverse.lookup name

end Scan

variable (specs : List OptionSpec)

/-- The options of the letters after one dash. -/
def letters : List Char → Except UsageError (List (String × String) × Option String)
  | [] => .ok ([], none)
  | c :: rest =>
      match specs.find? fun s => s.short = some c with
      | none => .error (.unknownOption (String.ofList ['-', c]))
      | some spec =>
          if spec.takesValue then
            if rest = [] then .ok ([], some spec.name)
            else .ok ([(spec.name, String.ofList rest)], none)
          else
            match letters rest with
            | .ok (found, waiting) => .ok ((spec.name, "") :: found, waiting)
            | .error e => .error e

/-- The option of a word with two dashes, and its value if the word holds one. -/
def longOption (spelling : String) (value : Option String) : Except UsageError Word :=
  match specs.find? fun s => s.long = spelling with
  | none => .error (.unknownOption spelling)
  | some spec =>
      match spec.takesValue, value with
      | true, some value => .ok (.options [(spec.name, value)] none)
      | true, none => .ok (.options [] (some spec.name))
      | false, some _ => .error (.needlessValue spelling)
      | false, none => .ok (.options [(spec.name, "")] none)

/-- The part of a word before its first equals sign, and the part after it if there is one. -/
def splitValue (word : List Char) : String × Option String :=
  let name := word.takeWhile (· ≠ '=')
  let rest := word.drop name.length
  (String.ofList name, rest.head?.map fun _ => String.ofList rest.tail)

/-- What a word holds. -/
def readWord (word : String) : Except UsageError Word :=
  match word.toList with
  | ['-', '-'] => .ok .endOfOptions
  | '-' :: '-' :: rest =>
      let (name, value) := splitValue rest
      longOption specs ("--" ++ name) value
  | '-' :: c :: rest =>
      match letters specs (c :: rest) with
      | .ok (found, waiting) => .ok (.options found waiting)
      | .error e => .error e
  | _ => .ok .argument

/-- Divide words into options and arguments. Unless options may stand among the arguments, the first
argument ends them. -/
def scan (interspersed : Bool) : List String → Except UsageError Scan
  | [] => .ok ⟨[], []⟩
  | word :: rest =>
      match readWord specs word with
      | .error e => .error e
      | .ok .endOfOptions => .ok ⟨[], rest⟩
      | .ok .argument =>
          if interspersed then (scan interspersed rest).map (Scan.withArgument word)
          else .ok ⟨[], word :: rest⟩
      | .ok (.options found none) => (scan interspersed rest).map (Scan.withOptions found)
      | .ok (.options found (some name)) =>
          match rest with
          | [] => .error (.noValue word)
          | value :: rest =>
              (scan interspersed rest).map (Scan.withOptions (found ++ [(name, value)]))

end Excise.Program
