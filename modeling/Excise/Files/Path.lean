import Excise.Text.Pieces

/-!
# Paths

A path has a root, which is empty for a relative path, and components. Reading a path drops empty
components and single dots and keeps double dots, so `./x//a.js` is `x/a.js`. Two slashes at the
front, and no more, are a root of their own. Paths are ordered component by component.
-/

namespace Excise

/-- Where a path begins: at the working directory, at the root, or at the root with two slashes. -/
inductive PathRoot where
  | relative
  | absolute
  | doubled
deriving DecidableEq

/-- The text of a root. -/
def PathRoot.text : PathRoot → String
  | .relative => ""
  | .absolute => "/"
  | .doubled => "//"

/-- A root and the components below it. -/
structure Path where
  root : PathRoot
  parts : List String
deriving DecidableEq

namespace Path

/-- The root that a text of a path begins with. -/
def rootOf : List Char → PathRoot
  | '/' :: '/' :: '/' :: _ => .absolute
  | '/' :: '/' :: _ => .doubled
  | '/' :: _ => .absolute
  | _ => .relative

/-- Read a path. -/
def ofText (s : String) : Path :=
  ⟨rootOf s.toList, (Text.pieces '/' s).filter fun p => p ≠ "" ∧ p ≠ "."⟩

/-- A text that ends in a slash or in a component that is a dot names a directory. -/
def NamesDirectory (s : String) : Prop := ∃ last ∈ (Text.pieces '/' s).getLast?, last ∈ ["", "."]

/-- The last component is looked up. -/
instance (s : String) : Decidable (NamesDirectory s) :=
  inferInstanceAs (Decidable (∃ last ∈ (Text.pieces '/' s).getLast?, last ∈ ["", "."]))

/-- The text of a path and a component below it. -/
def below (directory component : String) : String :=
  if directory.toList.getLast? = some '/' then directory ++ component
  else directory ++ "/" ++ component

variable (p : Path)

/-- The text of a path; the empty relative path is a dot. -/
def text : String :=
  if p.root = .relative ∧ p.parts = [] then "."
  else p.root.text ++ String.intercalate "/" p.parts

/-- The last component, and the empty text if there is none. -/
def name : String := p.parts.getLast?.getD ""

/-- The path without its last component. -/
def parent : Path := ⟨p.root, p.parts.dropLast⟩

/-- A component below a path. -/
def child (component : String) : Path := ⟨p.root, p.parts ++ [component]⟩

/-- The components with the root before them, if there is one. -/
def keys : List String := if p.root = .relative then p.parts else p.root.text :: p.parts

/-- The first character in which two texts differ has the smaller code point in the first, or the
first ends there. -/
def IsTextBefore (a b : String) : Prop :=
  List.Lex (fun c d : Char => c.toNat < d.toNat) a.toList b.toList

/-- The characters are compared one by one. -/
instance : DecidableRel IsTextBefore := fun a b =>
  List.decidableLex (fun c d : Char => c.toNat < d.toNat) a.toList b.toList

/-- The path comes before another, or is equal to it, component by component. -/
def Precedes (q : Path) : Prop := ¬ List.Lex IsTextBefore q.keys p.keys

/-- The components are compared one by one. -/
instance (q : Path) : Decidable (p.Precedes q) :=
  inferInstanceAs (Decidable (¬ List.Lex IsTextBefore q.keys p.keys))

/-- The extension of a name: from its last dot on, if that is neither its first nor its last
character. -/
def extensionOf (name : List Char) : List Char :=
  let tail := name.reverse.takeWhile (· ≠ '.')
  if tail ≠ [] ∧ tail.length + 1 < name.length then '.' :: tail.reverse else []

/-- The extension of the last component in lower case. -/
def extension : String := String.ofList ((extensionOf p.name.toList).map Char.toLower)

end Path

end Excise
