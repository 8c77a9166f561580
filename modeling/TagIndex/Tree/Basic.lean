/-!
# Syntax trees

A tree is plain data: every node says what kind of thing it is, where it stands in the source and
which flags the parser put on it. Nothing here assumes that flags, fields and places agree with each
other; what a parser promises about its trees is stated where it is needed.

- `Tree.preorder`: the nodes, each before its children.
- `Tree.ofPreorder?`: the tree that a preorder listing with depths describes.
-/

namespace TagIndex

/-- One node of a syntax tree. `start` and `stop` are byte offsets into the source, `row` and
`column` (in bytes) the place of `start`, all counted from zero. -/
structure Node where
  kind : String
  isNamed : Bool
  isError : Bool
  isMissing : Bool
  /-- Set on a node that has an error or a missing token somewhere below, perhaps a hidden one. -/
  hasError : Bool
  /-- The role that the node plays in its parent. -/
  field : Option String
  start : Nat
  stop : Nat
  row : Nat
  column : Nat
deriving DecidableEq, Repr, Inhabited

/-- A named node without errors on the first line of its source. -/
def Node.plain (kind : String) (field : Option String) (start stop : Nat) : Node :=
  { kind, isNamed := true, isError := false, isMissing := false, hasError := false, field, start
    stop, row := 0, column := start }

inductive Tree where
  | mk (node : Node) (children : List Tree)
deriving Repr, Inhabited

namespace Tree

def leaf (kind field : String) (start stop : Nat) : Tree :=
  mk (.plain kind (some field) start stop) []

/-- An unnamed leaf, whose kind is its text. -/
def token (text : String) (start stop : Nat) : Tree :=
  mk { Node.plain text none start stop with isNamed := false } []

def node : Tree → Node
  | mk n _ => n

def children : Tree → List Tree
  | mk _ cs => cs

@[simp] theorem node_mk (n : Node) (cs : List Tree) : (mk n cs).node = n := rfl

@[simp] theorem children_mk (n : Node) (cs : List Tree) : (mk n cs).children = cs := rfl

mutual

def preorder : Tree → List Node
  | mk n cs => n :: preorderAll cs

def preorderAll : List Tree → List Node
  | [] => []
  | t :: ts => t.preorder ++ preorderAll ts

end

theorem preorderAll_eq_flatMap (ts : List Tree) : preorderAll ts = ts.flatMap preorder := by
  induction ts with
  | nil => rfl
  | cons t ts ih => rw [preorderAll, ih, List.flatMap_cons]

def inField? (field : String) (ts : List Tree) : Option Node :=
  (ts.find? (·.node.field == some field)).map node

/-- All of `ts` that play the role `field`, named or not. -/
def inField (field : String) (ts : List Tree) : List Tree :=
  ts.filter (·.node.field == some field)

def named (ts : List Tree) : List Tree :=
  ts.filter (·.node.isNamed)

/-! ### Preorder listings -/

/-- Puts a node at `depth` in front of the trees that follow it: those deeper than it are its
children. -/
def graft (depth : Nat) (n : Node) (later : List (Nat × Tree)) : List (Nat × Tree) :=
  (depth, mk n ((later.takeWhile (depth < ·.1)).map (·.2))) :: later.dropWhile (depth < ·.1)

/-- The first tree of a preorder listing of nodes with their depths. -/
def ofPreorder? (listing : List (Nat × Node)) : Option Tree :=
  (listing.foldr (fun e later => graft e.1 e.2 later) []).head?.map (·.2)

end Tree

end TagIndex
