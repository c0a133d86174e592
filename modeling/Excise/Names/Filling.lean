import Excise.Names.Resolution
import Excise.Table

/-!
# Filling the tables of names

The tables of names are filled step by step: each declaration puts its name into its scope, makes a
binding if the name is new there, and enters the declaring node (`Tree.declareIn`); then each node
that uses a name is entered, and added to the uses of its binding (`Tree.resolveIn`).
-/

namespace Excise

/-- The tables that are filled: the binding of each name in each scope, the bindings in the order in
which they were made, the binding of each declaring node and of each use, and the uses of each
binding. -/
structure NameTables where
  names : Table (Node × String) Binding
  bindings : List Binding
  declared : Table Node Binding
  resolved : Table Node Binding
  references : Table Binding (List Node)

/-- The tables before the first declaration. -/
def NameTables.empty : NameTables := ⟨[], [], [], [], []⟩

/-- The binding of a node that declares or uses a name. -/
def NameTables.bindingOf? (tables : NameTables) (n : Node) : Option Binding :=
  (tables.declared.get? n).or (tables.resolved.get? n)

namespace Tree

variable (t : Tree)

/-- Enter one declaration. A name that its scope already has gets no second binding. -/
def declareIn (tables : NameTables) (d : Declaration) : NameTables :=
  match tables.names.get? (d.scope, t.text d.identifier) with
  | some b => { tables with declared := tables.declared.set d.identifier b }
  | none =>
      { tables with
        names := tables.names.set (d.scope, t.text d.identifier) (t.madeBinding d)
        bindings := tables.bindings ++ [t.madeBinding d]
        references := tables.references.set (t.madeBinding d) []
        declared := tables.declared.set d.identifier (t.madeBinding d) }

/-- The binding that a node uses: that of its name in the innermost scope around it that has it. -/
def usedIn (tables : NameTables) (n : Node) : Option Binding :=
  if t.kind n ∈ referenceKinds ∧ (tables.declared.get? n).isNone ∧ t.InUsePosition n then
    (t.scopeChain n).findSome? fun s => tables.names.get? (s, t.text n)
  else none

/-- Enter one node, if it uses a binding. -/
def resolveIn (tables : NameTables) (n : Node) : NameTables :=
  match t.usedIn tables n with
  | some b =>
      { tables with
        resolved := tables.resolved.set n b
        references := tables.references.set b ((tables.references.get? b).getD [] ++ [n]) }
  | none => tables

/-- The tables after some declarations. -/
def declaredTables (made : List Declaration) : NameTables := made.foldl t.declareIn .empty

/-- The tables after all declarations and some nodes. -/
def resolvedTables (seen : List Node) : NameTables :=
  seen.foldl t.resolveIn (t.declaredTables t.declarations)

/-- The tables in the end. -/
def filled : NameTables := t.resolvedTables t.nodes

end Tree

end Excise
