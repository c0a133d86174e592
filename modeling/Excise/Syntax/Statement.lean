import Excise.Syntax.Tree

/-!
# Statements and lists

What can be removed from a program as a whole: a statement, together with the `export` around it
(`Tree.wholeStatement`), and an item of a list that shares its parent with items of its kind
(`Tree.namedChildrenOfKind`). `Tree.listOwner` is what goes when a list loses its last item.
-/

namespace Excise.Tree

/-- The kinds of declaration that introduce a list of declarators. -/
def declarationKinds : List String := ["variable_declaration", "lexical_declaration"]

/-- The kinds of statement whose name does not say so. -/
def declaringStatementKinds : List String :=
  ["variable_declaration", "lexical_declaration", "function_declaration",
    "generator_function_declaration", "class_declaration"]

variable (t : Tree) (n : Node)

/-- A node is a statement: its kind ends in `_statement` or is one of the declarations. -/
def IsStatement : Prop :=
  "_statement".toList <:+ (t.kind n).toList ∨ t.kind n ∈ declaringStatementKinds

/-- The ending of the kind is compared, and the kind looked up. -/
instance : Decidable (t.IsStatement n) := inferInstanceAs (Decidable (_ ∨ _))

/-- The node has a parent of this kind. -/
def ParentIs (kind : String) : Prop := ∃ p ∈ t.parent? n, t.kind p = kind

/-- The kind of the parent, if there is one, is compared. -/
instance (kind : String) : Decidable (t.ParentIs n kind) :=
  inferInstanceAs (Decidable (∃ p ∈ t.parent? n, t.kind p = kind))

/-- The node to delete for a statement: the `export` around it, or the statement itself. -/
def wholeStatement : Node :=
  match t.parent? n with
  | some p => if t.kind p = "export_statement" then p else n
  | none => n

/-- The statement that disappears when a list loses all its items: the declaration itself, or what
stands around a list of exported names. -/
def listOwner : Node :=
  if t.kind n ∈ declarationKinds then t.wholeStatement n else (t.parent? n).getD n

end Excise.Tree
