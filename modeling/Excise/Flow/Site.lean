import Excise.Plan.Demand

/-!
# Where the target module comes in

A site is an import statement of the target module, or a call of the global `require` with the
module's name (`Tree.sites`). Sites and uses of variables have the same kind of effect on an
analysis: at most one entry for the plan, and the variables that hold the value from there on.
-/

namespace Excise

/-- A place where the target module comes in. -/
inductive Site where
  | imported (statement : Node)
  | required (call : Node)
deriving DecidableEq

/-- The node of a site. -/
def Site.node : Site → Node
  | .imported n => n
  | .required n => n

/-- What a site or a use adds to an analysis: an entry for the plan, and variables that hold the
value. -/
structure Effect where
  entry : Option Entry
  bindings : List Binding
deriving DecidableEq

namespace Tree

variable (t : Tree) (r : Resolution) (target : String)

/-- The effect of an optional use; no use has none. -/
def usageEffect (u : Option Usage) : Effect :=
  ⟨u.bind t.usageEntry?, u.elim [] (t.carriedBindings r)⟩

/-- The callee is the name `require` and no variable of the program. -/
def IsModuleLoader (callee : Node) : Prop :=
  t.kind callee = "identifier" ∧ t.text callee = "require" ∧ (r.bindingOf? callee).isNone

/-- The name is read and resolved. -/
instance (callee : Node) : Decidable (t.IsModuleLoader r callee) :=
  inferInstanceAs (Decidable (_ ∧ _ ∧ _))

/-- The first named argument of a call. -/
def firstArgument? (call : Node) : Option Node :=
  (t.childByField? call "arguments").bind fun arguments => (t.namedChildren arguments).head?

/-- The call loads the target module. -/
def RequiresModule (call : Node) : Prop :=
  (∃ callee ∈ t.childByField? call "function", t.IsModuleLoader r callee) ∧
    (t.firstArgument? call).bind t.literalText? = some target

/-- The callee and the first argument are looked up. -/
instance (call : Node) : Decidable (t.RequiresModule r target call) :=
  inferInstanceAs
    (Decidable ((∃ callee ∈ t.childByField? call "function", t.IsModuleLoader r callee) ∧ _))

/-- The site that a node is, if it is one. -/
def site? (n : Node) : Option Site :=
  if t.kind n = "import_statement" ∧ t.ImportsModule target n then some (.imported n)
  else if t.kind n = "call_expression" ∧ t.RequiresModule r target n then some (.required n)
  else none

/-- The sites of the target module, in pre-order. -/
def sites : List Site := t.nodes.filterMap (t.site? r target)

/-- What a site asks for. An import statement goes, and the names that it introduces hold the
module; a `require` call is itself the value, and its use decides. -/
def siteEffect : Site → Effect
  | .imported n => ⟨some (t.statementEntry n), (t.importedNames n).filterMap r.bindingOf?⟩
  | .required n => t.usageEffect r (t.expressionUsage? n)

/-- What one use of a variable asks for. -/
def referenceEffect (n : Node) : Effect := t.usageEffect r (t.referenceUsage? r n)

end Tree

end Excise
