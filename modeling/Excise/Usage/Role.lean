import Excise.Names.Resolution
import Excise.Usage.Chain

/-!
# What becomes of a value

A `Usage` says what becomes of the value at the top of a chain, by its `Role`.
`Tree.expressionUsage?` finds it for an expression: it looks at the top of the chain and the parent
there. `Tree.referenceUsage?` does the same for a use of a variable, and leaves alone the places
that hold no value of it: declaring names and types. A name that an assignment pattern writes to is
a write as it stands.
-/

namespace Excise

/-- How the value at the top of a chain initializes a declarator. -/
inductive Definition where
  | called (style : CallStyle)
  | destructured
  | property
  | alias
deriving DecidableEq

/-- What becomes of a value. `definition` initializes a declarator; `called` is called for its
effect; `written` takes part in an assignment, whose target receives the value if there is one;
`exported` is listed in an export; `statement` stands alone; `read` is consumed as data. -/
inductive Role where
  | definition (declarator : Node) (form : Definition)
  | called (style : CallStyle)
  | written (target : Option Node)
  | exported (specifier : Node)
  | statement
  | read
deriving DecidableEq

/-- One use of a value: the node that it starts from, the outermost node of its chain, and what
becomes of the value there. -/
structure Usage where
  reference : Node
  expression : Node
  role : Role
deriving DecidableEq

namespace Tree

/-- The kinds of node around a name that stands for a type. -/
def typePositionKinds : List String :=
  ["nested_type_identifier", "type_query", "generic_type", "type_annotation"]

/-- The kinds of pattern that take a value apart. -/
def destructuringKinds : List String := ["object_pattern", "array_pattern"]

/-- The kinds of left side whose names receive the value assigned to them. -/
def receivingKinds : List String := ["identifier", "object_pattern", "array_pattern"]

/-- The kinds of assignment. -/
def assignmentKinds : List String :=
  ["assignment_expression", "augmented_assignment_expression"]

variable (t : Tree)

/-- How a chain initializes the declarator. -/
def definitionForm (c : Chain) (declarator : Node) : Definition :=
  if c.Calls then .called c.style
  else if ∃ name ∈ t.childByField? declarator "name", t.kind name ∈ destructuringKinds then
    .destructured
  else if c.firstStep? = some .access then .property
  else .alias

/-- The left side of an assignment that `n` is assigned to. -/
def receiver? (n parent : Node) : Option Node :=
  if t.kind parent = "assignment_expression" then
    (t.childByField? parent "left").filter fun left => t.kind left ∈ receivingKinds ∧ left ≠ n
  else none

/-- The node is a `delete` expression. -/
def IsDelete (n : Node) : Prop :=
  t.kind n = "unary_expression" ∧
    ∃ operator ∈ t.childByField? n "operator", t.text operator = "delete"

/-- The operator, if there is one, is read. -/
instance (n : Node) : Decidable (t.IsDelete n) := inferInstanceAs (Decidable (_ ∧ _))

/-- The usage of the value of `n`, given the top of its chain and the parent there. A `delete` is
dropped as a whole, so its usage reaches up to the parent. -/
def usageUnder (n : Node) (c : Chain) (parent : Node) : Usage :=
  if t.kind parent = "variable_declarator" ∧ t.FieldIs c.top parent "value" then
    ⟨n, c.top, .definition parent (t.definitionForm c parent)⟩
  else
    match t.receiver? c.top parent with
    | some left => ⟨n, c.top, .written (some left)⟩
    | none =>
        if c.Calls then ⟨n, c.top, .called c.style⟩
        else if t.IsDelete parent then ⟨n, parent, .written none⟩
        else if t.kind parent = "expression_statement" then ⟨n, c.top, .statement⟩
        else if t.kind parent ∈ assignmentKinds then ⟨n, c.top, .written none⟩
        else if t.kind parent = "update_expression" then ⟨n, c.top, .written none⟩
        else if t.kind parent = "export_specifier" then ⟨n, c.top, .exported parent⟩
        else ⟨n, c.top, .read⟩

/-- What becomes of the value of an expression; that of the whole tree goes nowhere. -/
def expressionUsage? (n : Node) : Option Usage :=
  (t.parent? (t.usageChain n).top).map (t.usageUnder n (t.usageChain n))

/-- The node stands where no value of its variable is used: it declares the name, names a type, or
is the name of a declarator. -/
def HoldsNoValue (r : Resolution) (n : Node) : Prop :=
  r.Declares n ∨ (∃ p ∈ t.parent? n, t.kind p ∈ typePositionKinds) ∨
    ∃ p ∈ t.parent? n, t.kind p = "variable_declarator" ∧ t.FieldIs n p "name"

/-- Each of the three cases is decidable. -/
instance (r : Resolution) (n : Node) : Decidable (t.HoldsNoValue r n) :=
  inferInstanceAs (Decidable (_ ∨ _ ∨ _))

/-- What becomes of the value of a variable at one of its uses. -/
def referenceUsage? (r : Resolution) (n : Node) : Option Usage :=
  if t.HoldsNoValue r n then none
  else if t.kind n = "shorthand_property_identifier_pattern" then some ⟨n, n, .written none⟩
  else t.expressionUsage? n

end Tree

end Excise
