import TagIndex.Text.Fields

/-!
# Paths

A path is the text that the user spelled, and keeps that spelling. Two spellings name the same place
when their segments agree: doubled slashes, a slash at the end and a dot after the first segment do
not count, while a dot at the beginning and `..` are segments of their own. Paths are ordered
segment by segment, so everything below `a` comes before `a-b`.
-/

namespace TagIndex.Path

inductive Segment where
  /-- The slash at the beginning of an absolute path. -/
  | root
  /-- A dot at the beginning. -/
  | here
  /-- Two dots. -/
  | up
  | name (text : String)
deriving DecidableEq, Repr, Inhabited

namespace Segment

def rank : Segment → Nat
  | root => 0
  | here => 1
  | up => 2
  | name _ => 3

def text : Segment → String
  | name t => t
  | _ => ""

/-- Special segments come before names; names are in code point order. -/
instance : LT Segment where
  lt a b := a.rank < b.rank ∨ a.rank = b.rank ∧ a.text < b.text

instance (a b : Segment) : Decidable (a < b) :=
  inferInstanceAs (Decidable (a.rank < b.rank ∨ a.rank = b.rank ∧ a.text < b.text))

/-- The segment that a piece between slashes stands for, if it is not the first piece. -/
def ofInner? : List Char → Option Segment
  | [] => none
  | ['.'] => none
  | ['.', '.'] => some up
  | cs => some (name (String.ofList cs))

end Segment

def pieces (path : String) : List (List Char) :=
  Text.fields '/' path.toList

def segments (path : String) : List Segment :=
  match pieces path with
  | [] => []
  | [[]] => []
  | [] :: rest => .root :: rest.filterMap Segment.ofInner?
  | ['.'] :: rest => .here :: rest.filterMap Segment.ofInner?
  | all => all.filterMap Segment.ofInner?

/-- Whether `p` comes before `q` or names the same place. -/
def le (p q : String) : Bool :=
  !decide (segments q < segments p)

/-- Whether two spellings name the same place. -/
def same (p q : String) : Bool :=
  segments p == segments q

/-- What follows the last dot of a file name. A dot at the very beginning does not count. -/
def extensionOf? (name : List Char) : Option (List Char) :=
  match name.reverse.dropWhile (· ≠ '.') with
  | [] => none
  | [_] => none
  | _ => some (name.reverse.takeWhile (· ≠ '.')).reverse

def extension? (path : String) : Option String :=
  match (segments path).getLast? with
  | some (.name n) => (extensionOf? n.toList).map String.ofList
  | _ => none

def isAbsolute (path : String) : Bool :=
  path.toList.head? = some '/'

/-- The path that leads first along `dir` and then along `path`. -/
def join (dir path : String) : String :=
  if isAbsolute path then path
  else if dir.isEmpty || dir.toList.getLast? = some '/' then dir ++ path
  else dir ++ "/" ++ path

end TagIndex.Path
