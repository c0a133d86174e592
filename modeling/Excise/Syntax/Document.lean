import Excise.Json.Parser
import Excise.Language

/-!
# Trees in documents

Trees are exchanged as documents: an array with an object for each source, which has a `language`, a
`source`, a flag `has_error` and a `tree`. A tree is an array of rows, and a row an array of the
depth, one or zero for named or not, the kind, the two ends, and the field if there is one.
`Grammar.ofDocument?` reads such a document as a parser for the sources in it.
-/

namespace Excise

namespace Json

/-- The natural number, if the value is one. -/
def natural? : Json → Option Nat
  | .int (.ofNat n) => some n
  | _ => none

/-- The items, if the value is an array. -/
def items? : Json → Option (List Json)
  | .array items => some items
  | _ => none

/-- The value of a key, if the value is an object that has it. -/
def field? : Json → String → Option Json
  | .object fields, key => Table.get? fields key
  | _, _ => none

end Json

/-- The row that a value stands for. -/
def Row.ofJson? : Json → Option Row
  | .array (depth :: named :: kind :: start :: stop :: field) => do
      return ⟨← depth.natural?, (← named.natural?) ≠ 0, ← kind.text?, ← start.natural?,
        ← stop.natural?, field.head?.bind Json.text?⟩
  | _ => none

/-- A source in a language, and what a parser makes of it. -/
structure ParsedSource where
  language : Language
  source : Bytes
  parsed : Parsed

/-- The source that an object stands for. -/
def ParsedSource.ofJson? (j : Json) : Option ParsedSource := do
  let language ← Language.ofName? (← (← j.field? "language").text?)
  let source := Bytes.ofText (← (← j.field? "source").text?)
  let rows ← (← (← j.field? "tree").items?).mapM Row.ofJson?
  let tree ← Tree.ofRows? source rows.toArray
  return ⟨language, source, tree, ∃ flag ∈ j.field? "has_error", flag.Truthy⟩

/-- The parser that knows these sources. To every other source it gives an empty tree with
errors. -/
def Grammar.ofSources (sources : List ParsedSource) : Grammar := fun language source =>
  match sources.find? fun p => p.language = language ∧ p.source = source with
  | some p => p.parsed
  | none => ⟨Tree.bare source, true⟩

/-- The parser that a document describes. -/
def Grammar.ofDocument? (text : String) : Option Grammar := do
  let sources ← (← (← (Json.parse text).toOption).items?).mapM ParsedSource.ofJson?
  return Grammar.ofSources sources

end Excise
