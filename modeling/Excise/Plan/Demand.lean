import Excise.Plan.Basic
import Excise.Syntax.Statement
import Excise.Usage.Role

/-!
# What a use asks for

Each use of a value that is to go away asks for at most one entry of the plan
(`Tree.usageEntry?`): the declarator or the list item goes, the statement around an effect goes, or
a placeholder takes the place of the value. It also says which variables hold the value in their
turn (`Tree.carriedBindings`), which does not depend on the plan.
-/

namespace Excise

/-- The neutral expression that takes the place of a value consumed as data. -/
def placeholder : String := "undefined"

namespace Tree

/-- The kinds of write to a variable. -/
def writeKinds : List String :=
  ["assignment_expression", "augmented_assignment_expression", "update_expression"]

/-- The kinds of node through which an assignment pattern reaches the names that it writes. -/
def patternKinds : List String :=
  ["object_pattern", "array_pattern", "pair_pattern", "object_assignment_pattern",
    "assignment_pattern", "rest_pattern"]

/-- The field of a node that holds a value of its own, which is replaced and not removed. -/
def valueField? (kind : String) : Option String :=
  if kind = "arrow_function" then some "body"
  else if kind ∈ ["field_definition", "public_field_definition"] then some "value"
  else none

variable (t : Tree)

/-- Delete a statement, with the `export` around it. -/
def statementEntry (statement : Node) : Entry := .delete (t.wholeStatement statement)

/-- Remove an item from its list; the only one of its kind takes the owning statement with it. -/
def listItemEntry? (item : Node) : Option Entry :=
  (t.parent? item).map fun container =>
    if (t.namedChildrenOfKind container (t.kind item)).length = 1 then
      .delete (t.listOwner container)
    else .removeItem item

/-- Remove a declarator of a declaration; nothing is done to one that stands elsewhere. -/
def declaratorEntry? (declarator : Node) : Option Entry :=
  if ∃ p ∈ t.parent? declarator, t.kind p ∈ declarationKinds then t.listItemEntry? declarator
  else none

/-- The node under so many levels of parentheses. -/
def withoutParentheses : Nat → Node → Node
  | 0, n => n
  | levels + 1, n =>
      if t.kind n = "parenthesized_expression" then
        match t.namedChildren n with
        | [] => n
        | inner :: _ => withoutParentheses levels inner
      else n

/-- Put the placeholder in the place of a value, inside its parentheses. A shorthand property keeps
its key. -/
def placeholderEntry (n : Node) : Entry :=
  let inner := t.withoutParentheses t.size n
  if t.kind inner = "shorthand_property_identifier" then
    .replace inner (t.text inner ++ ": " ++ placeholder)
  else .replace inner placeholder

/-- `parent` holds `n` as a value of its own. -/
def HoldsAsValue (n parent : Node) : Prop :=
  ∃ name ∈ valueField? (t.kind parent), t.FieldIs n parent name

/-- The field, if there is one, is looked up. -/
instance (n parent : Node) : Decidable (t.HoldsAsValue n parent) :=
  inferInstanceAs (Decidable (∃ name ∈ valueField? (t.kind parent), t.FieldIs n parent name))

/-- The expression statement is not part of the head of a `for` loop. -/
def IsFreeExpressionStatement (n : Node) : Prop :=
  t.kind n = "expression_statement" ∧ ¬ t.ParentIs n "for_statement"

/-- The kinds of the node and its parent decide it. -/
instance (n : Node) : Decidable (t.IsFreeExpressionStatement n) :=
  inferInstanceAs (Decidable (_ ∧ ¬ _))

/-- Climb from `current` to the statement that `expression` runs in, given the nodes around
`current`. The statement of an expression goes; in any other statement, or as a value of its own,
the expression is replaced. -/
def enclosingEntryThrough? (expression : Node) : Node → List Node → Option Entry
  | _, [] => none
  | current, parent :: rest =>
      if t.HoldsAsValue current parent then some (t.placeholderEntry current)
      else if t.IsStatement parent then
        some (if t.IsFreeExpressionStatement parent then t.statementEntry parent
          else t.placeholderEntry expression)
      else enclosingEntryThrough? expression parent rest

/-- Remove the statement that an expression runs in, or the expression where the statement has more
to do. -/
def enclosingEntry? (expression : Node) : Option Entry :=
  t.enclosingEntryThrough? expression expression (t.ancestors expression)

/-- The part of a list of ancestors after the assignment patterns at its front. -/
def outsidePatterns (ancestors : List Node) : List Node :=
  ancestors.dropWhile fun a => t.kind a ∈ patternKinds

/-- The assignment or update that writes through a node, or else the node. -/
def writeAround (n : Node) : Node :=
  match t.outsidePatterns (t.ancestors n) with
  | [] => n
  | parent :: _ => if t.kind parent ∈ writeKinds then parent else n

/-- What a use asks for. -/
def usageEntry? (u : Usage) : Option Entry :=
  match u.role with
  | .definition declarator _ => t.declaratorEntry? declarator
  | .called _ => t.enclosingEntry? u.expression
  | .statement => t.enclosingEntry? u.expression
  | .written _ => t.enclosingEntry? (t.writeAround u.expression)
  | .exported specifier => t.listItemEntry? specifier
  | .read => some (t.placeholderEntry u.expression)

/-- The variables that hold the value after a use: those that its declarator declares, or those that
its assignment writes. -/
def carriedBindings (r : Resolution) (u : Usage) : List Binding :=
  match u.role with
  | .definition declarator _ => r.bindingsIn t (t.childByField? declarator "name")
  | .written target => (t.boundIdentifiersIn target).filterMap r.bindingOf?
  | _ => []

end Tree

end Excise
