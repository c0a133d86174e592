import Excise.Decimal.Shortest
import Excise.Table

/-!
# JSON values

A document is a value of `Json`. The fields of an object keep their order; a key that is set again
keeps its place. `Json.Truthy` is how a flag of any type counts.
-/

namespace Excise

/-- A value of a document. -/
inductive Json where
  | null
  | bool (value : Bool)
  | int (value : Int)
  | real (value : Decimal.Real)
  | text (value : String)
  | array (items : List Json)
  | object (fields : List (String × Json))

namespace Json

/-- The object of a list of fields, of which a later one counts and the first gives the place. -/
def ofFields (fields : List (String × Json)) : Json := .object (Table.ofList fields)

/-- The characters of a text that are escaped by a letter, with the letters. -/
def letterEscapes : List (Char × Char) :=
  [('\x22', '\x22'), ('\\', '\\'), ('\n', 'n'), ('\r', 'r'), ('\t', 't'), ('\x0C', 'f'),
    ('\x08', 'b')]

/-- The text, if the value is one. -/
def text? : Json → Option String
  | .text s => some s
  | _ => none

/-- The value counts as true: it is not null, false, zero or empty. -/
def Truthy : Json → Prop
  | .null => False
  | .bool b => b = true
  | .int i => i ≠ 0
  | .real r => ¬ r.IsZero
  | .text s => s ≠ ""
  | .array items => items ≠ []
  | .object fields => fields ≠ []

/-- Each kind of value is compared with its empty one. -/
instance (j : Json) : Decidable j.Truthy :=
  match j with
  | .null => inferInstanceAs (Decidable False)
  | .bool _ => inferInstanceAs (Decidable (_ = _))
  | .int _ => inferInstanceAs (Decidable (_ ≠ _))
  | .real _ => inferInstanceAs (Decidable (¬ _))
  | .text _ => inferInstanceAs (Decidable (_ ≠ _))
  | .array [] => .isFalse (by simp [Truthy])
  | .array (_ :: _) => .isTrue (by simp [Truthy])
  | .object [] => .isFalse (by simp [Truthy])
  | .object (_ :: _) => .isTrue (by simp [Truthy])

end Json

end Excise
