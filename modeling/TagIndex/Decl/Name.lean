import TagIndex.Text.Lowercase
import TagIndex.Tree.Place

/-!
# Names

A name is the text of an identifier token without its backticks, and the token's position.
-/

namespace TagIndex

structure Name where
  value : String
  position : Position
deriving DecidableEq, Repr, Inhabited

namespace Name

/-- Takes away a pair of backticks around a text. A text with only one of them is left as it is. -/
def unquote (text : List Char) : List Char :=
  match text with
  | '\x60' :: rest => if rest.getLast? = some '\x60' then rest.dropLast else text
  | _ => text

/-- In a nested pattern an identifier is a new variable if it starts with an underscore or a
lowercase letter; any other refers to an existing value. -/
def isVariable : List Char → Bool
  | [] => false
  | c :: _ => c == '_' || Text.isLowercase c

def ofNode (src : List Char) (n : Node) : Name :=
  { value := String.ofList (unquote (n.text src)), position := n.position src }

end Name

end TagIndex
