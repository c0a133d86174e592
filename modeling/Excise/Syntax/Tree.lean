import Excise.Text.Bytes

/-!
# Syntax trees as rows

A tree is a source together with its nodes in pre-order, one row each. A node is named by the index
of its row, so two nodes are the same exactly if they are the same row, and a row's depth says
where it hangs: its ancestors are the closest earlier rows of each smaller depth, and its
descendants are the rows after it up to the first that is not deeper. The proof fields say that the
depths are those of one tree; `Tree.ofRows?` checks them.
-/

namespace Excise

/-- One node of a tree: its depth below the root, whether the grammar names it, the kind of
construct, the byte range in the source, and the field of its parent that it fills. -/
structure Row where
  depth : Nat
  named : Bool
  kind : String
  start : Nat
  stop : Nat
  field : Option String
deriving DecidableEq, Inhabited

/-- A node of a tree, named by the index of its row. -/
abbrev Node := Nat

/-- A source and its nodes in pre-order. -/
structure Tree where
  source : Bytes
  rows : Array Row
  size_pos : 0 < rows.size
  depth_root : rows[0].depth = 0
  depth_pos : ∀ i (_ : i < rows.size), 0 < i → 0 < rows[i].depth
  depth_succ_le : ∀ i (_ : i + 1 < rows.size), rows[i + 1].depth ≤ rows[i].depth + 1

namespace Tree

/-- The tree with these rows, if their depths are those of one tree in pre-order. -/
def ofRows? (source : Bytes) (rows : Array Row) : Option Tree :=
  if hs : 0 < rows.size then
    if h : rows[0].depth = 0 ∧ (∀ i (_ : i < rows.size), 0 < i → 0 < rows[i].depth) ∧
        (∀ i (_ : i < rows.size - 1), rows[i + 1].depth ≤ rows[i].depth + 1) then
      some ⟨source, rows, hs, h.1, h.2.1, fun i hi => h.2.2 i (by omega)⟩
    else none
  else none

/-- The tree of one `program` that holds nothing. -/
def bare (source : Bytes) : Tree where
  source := source
  rows := #[⟨0, true, "program", 0, source.length, none⟩]
  size_pos := by simp
  depth_root := rfl
  depth_pos := by intro i hi hpos; simp at hi; omega
  depth_succ_le := by intro i hi; simp at hi

variable (t : Tree) (n : Node)

/-- The number of nodes. -/
def size : Nat := t.rows.size

/-- All nodes in pre-order. -/
def nodes : List Node := List.range t.size

/-- The row of a node; an index past the end has an empty row. -/
def row : Row := t.rows[n]?.getD default

/-- The number of edges between the root and a node. -/
def depth : Nat := (t.row n).depth

/-- The kind of construct that a node stands for. -/
def kind : String := (t.row n).kind

/-- Whether the grammar names a node; keywords and punctuation are unnamed. -/
def named : Bool := (t.row n).named

/-- The offset of a node's first byte. -/
def start : Nat := (t.row n).start

/-- The offset just past a node's last byte. -/
def stop : Nat := (t.row n).stop

/-- The field of the parent that a node fills. -/
def field : Option String := (t.row n).field

/-- The source text of a node. -/
def text : String := (t.source.slice (t.start n) (t.stop n)).text

/-- The line that a node starts on, counted from one. -/
def line : Nat := (t.source.take (t.start n)).count Bytes.lineFeed + 1

/-- The closest row above `i` of each depth below `d`, innermost first. -/
def ancestorsBelow (d : Nat) : Nat → List Node
  | 0 => []
  | i + 1 => if t.depth i < d then i :: ancestorsBelow (t.depth i) i else ancestorsBelow d i

/-- The nodes around a node, innermost first and the root last. -/
def ancestors : List Node := t.ancestorsBelow (t.depth n) n

/-- The node directly around a node. -/
def parent? : Option Node := (t.ancestors n).head?

/-- The nodes inside a node, in pre-order. -/
def descendants : List Node :=
  (List.range' (n + 1) (t.size - (n + 1))).takeWhile fun i => t.depth n < t.depth i

/-- The nodes directly inside a node. -/
def children : List Node := (t.descendants n).filter fun i => t.depth i = t.depth n + 1

/-- The children that the grammar names. -/
def namedChildren : List Node := (t.children n).filter fun i => t.named i

/-- The first child that fills the field. -/
def childByField? (name : String) : Option Node :=
  (t.children n).find? fun i => t.field i = some name

/-- The named children of one kind. -/
def namedChildrenOfKind (kind : String) : List Node :=
  (t.namedChildren n).filter fun i => t.kind i = kind

/-- The field of `parent` holds `n`. -/
def FieldIs (parent : Node) (name : String) : Prop := t.childByField? parent name = some n

/-- A field is looked up to decide what it holds. -/
instance (parent : Node) (name : String) : Decidable (t.FieldIs n parent name) :=
  inferInstanceAs (Decidable (_ = _))

end Tree

end Excise
