import Excise.Names.Declaration

/-!
# Bindings and their uses

The declarations of one name in one scope are one binding, named after the first of them.
`Tree.resolution` holds the bindings of a tree, the nodes that declare them and the nodes that use
them; a use belongs to the binding of its name in the innermost scope around it that has one.
`Resolution.bindingOf?` finds the binding of a node and `Resolution.usesOf` the uses of a
binding.
-/

namespace Excise

/-- A variable: its name, how it was first declared, the first node that declares it, and its
scope. No two bindings of a tree share name and scope. -/
structure Binding where
  name : String
  kind : BindingKind
  identifier : Node
  scope : Node
deriving DecidableEq

/-- The binding of a name in a scope. -/
def bindingAt? (bindings : List Binding) (scope : Node) (name : String) : Option Binding :=
  bindings.find? fun b => b.scope = scope ∧ b.name = name

/-- The bindings of a tree, with the binding of each declaring node and of each use. -/
structure Resolution where
  bindings : List Binding
  declared : List (Node × Binding)
  uses : List (Node × Binding)

namespace Tree

/-- The kinds of node that can be a use of a variable. -/
def referenceKinds : List String :=
  ["identifier", "shorthand_property_identifier", "shorthand_property_identifier_pattern"]

/-- The kinds of node whose children name imported symbols. -/
def importPartKinds : List String :=
  ["import_clause", "import_specifier", "namespace_import", "import_require_clause"]

variable (t : Tree)

/-- The line at which a binding is first declared. -/
def bindingLine (b : Binding) : Nat := t.line b.identifier

/-- The offset at which a binding is first declared. -/
def bindingStart (b : Binding) : Nat := t.start b.identifier

/-- The binding that a declaration makes where its scope does not have the name yet. -/
def madeBinding (d : Declaration) : Binding :=
  ⟨t.text d.identifier, d.kind, d.identifier, d.scope⟩

/-- The bindings after one more declaration: a name that its scope already has gets no second. -/
def addDeclaration (bindings : List Binding) (d : Declaration) : List Binding :=
  match bindingAt? bindings d.scope (t.text d.identifier) with
  | some _ => bindings
  | none => bindings ++ [t.madeBinding d]

/-- The bindings of a tree, in the order of their first declarations. -/
def bindings : List Binding := t.declarations.foldl t.addDeclaration []

/-- The entry of an export list stands in a statement that names another module, so that it names
that module's symbol. -/
def Reexports (specifier : Node) : Prop :=
  (((t.parent? specifier).bind t.parent?).bind (t.childByField? · "source")).isSome

/-- The source of the statement is looked up. -/
instance (specifier : Node) : Decidable (t.Reexports specifier) :=
  inferInstanceAs (Decidable (_ = true))

/-- The identifier stands where the value of a variable is read or written: not among imported
names, not as the outside name of an export, and not in a list of another module's names. -/
def InUsePosition (n : Node) : Prop :=
  ∃ p ∈ t.parent? n, t.kind p ∉ importPartKinds ∧
    ¬ (t.kind p = "export_specifier" ∧ (t.FieldIs n p "alias" ∨ t.Reexports p))

/-- The parent, if there is one, decides it. -/
instance (n : Node) : Decidable (t.InUsePosition n) :=
  inferInstanceAs (Decidable (∃ p ∈ t.parent? n, t.kind p ∉ importPartKinds ∧
    ¬ (t.kind p = "export_specifier" ∧ (t.FieldIs n p "alias" ∨ t.Reexports p))))

/-- The binding that a name means at a node: that of the innermost scope that has one. -/
def lookup? (bindings : List Binding) (n : Node) (name : String) : Option Binding :=
  (t.scopeChain n).findSome? fun s => bindingAt? bindings s name

/-- The declaring nodes with their bindings, given the bindings. -/
def declaredWith (bindings : List Binding) : List (Node × Binding) :=
  t.declarations.filterMap fun d =>
    (bindingAt? bindings d.scope (t.text d.identifier)).map (d.identifier, ·)

/-- The uses with their bindings in pre-order, given the bindings and the declaring nodes. -/
def usesWith (bindings : List Binding) (declared : List (Node × Binding)) :
    List (Node × Binding) :=
  t.nodes.filterMap fun n =>
    if t.kind n ∈ referenceKinds ∧ (declared.lookup n).isNone ∧ t.InUsePosition n then
      (t.lookup? bindings n (t.text n)).map (n, ·)
    else none

/-- Every binding of a tree, with the nodes that declare and use it. -/
def resolution : Resolution :=
  let bindings := t.bindings
  let declared := t.declaredWith bindings
  ⟨bindings, declared, t.usesWith bindings declared⟩

end Tree

namespace Resolution

variable (r : Resolution)

/-- The binding that a node declares or uses. -/
def bindingOf? (n : Node) : Option Binding := (r.declared.lookup n).or (r.uses.lookup n)

/-- The node declares a name. -/
def Declares (n : Node) : Prop := (r.declared.lookup n).isSome

/-- The table of declaring nodes is searched. -/
instance (n : Node) : Decidable (r.Declares n) := inferInstanceAs (Decidable (_ = true))

/-- The uses of a binding, in pre-order. -/
def usesOf (b : Binding) : List Node := (r.uses.filter fun u => u.2 = b).map (·.1)

/-- The bindings that a pattern declares, in order. -/
def bindingsIn (t : Tree) (pattern : Option Node) : List Binding :=
  (t.boundIdentifiersIn pattern).filterMap (List.lookup · r.declared)

/-- The names of a scope, in the order of their first declarations. -/
def namesOf (scope : Node) : List String := (r.bindings.filter (·.scope = scope)).map (·.name)

end Resolution

end Excise
