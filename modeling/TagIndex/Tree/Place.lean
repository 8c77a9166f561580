import TagIndex.Text.Utf8
import TagIndex.Tree.Basic

/-!
# Text and position of a node

The parser counts columns in bytes, readers count them in characters. `Node.position` converts: it
goes back to the start of the line and counts the characters from there.
-/

namespace TagIndex

/-- A line and a column, both counted from one. -/
structure Position where
  line : UInt32
  column : UInt32
deriving DecidableEq, Repr, Inhabited

/-- Positions in the order of their lines, and on one line in the order of their columns. -/
instance : Ord Position where
  compare p q := (compare p.line q.line).then (compare p.column q.column)

namespace Node

/-- The source text of a node, empty if its offsets do not cut the source into whole characters. -/
def text (src : List Char) (n : Node) : List Char :=
  (Text.slice? n.start n.stop src).getD []

/-- Characters between the start of the node's line and the node. The byte column stands in where
the offsets do not fit the source. -/
def charColumn (src : List Char) (n : Node) : Nat :=
  ((Text.slice? (n.start - n.column) n.start src).map List.length).getD n.column

/-- Positions are 32-bit numbers and wrap around beyond that. -/
def position (src : List Char) (n : Node) : Position :=
  { line := n.row.toUInt32 + 1, column := (n.charColumn src).toUInt32 + 1 }

end Node

end TagIndex
