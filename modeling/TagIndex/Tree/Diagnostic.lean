import TagIndex.Text.Blank
import TagIndex.Tree.Place

/-!
# Syntax errors

`Tree.firstFault?` looks for the first error or missing node in document order. It trusts the
`hasError` flag and does not look below nodes without it. `Tree.diagnostic?` describes what it found
in one line.
-/

namespace TagIndex

structure Diagnostic where
  message : String
  position : Position
deriving DecidableEq, Repr, Inhabited

/-- The diagnostic as one text, `line:column: message`. -/
def Diagnostic.text (d : Diagnostic) : String :=
  d.position.line.toNat.repr ++ ":" ++ d.position.column.toNat.repr ++ ": " ++ d.message

/-- A diagnostic quotes at most this many characters of the source. -/
def snippetLength : Nat := 24

/-- The beginning of the first line of a text, without the blanks around it. -/
def snippet (text : List Char) : List Char :=
  (Text.trim (text.takeWhile (· ≠ '\n'))).take snippetLength

/-- What the error or missing node `n` says about the source. -/
def Node.complaint (src : List Char) (n : Node) : String :=
  if n.isMissing then "missing `" ++ n.kind ++ "`"
  else
    match snippet (n.text src) with
    | [] => "syntax error"
    | s => "unexpected `" ++ String.ofList s ++ "`"

namespace Tree

mutual

def firstFault? : Tree → Option Node
  | mk n cs =>
    if n.isError || n.isMissing then some n
    else if n.hasError then firstFaultAmong? cs
    else none

def firstFaultAmong? : List Tree → Option Node
  | [] => none
  | t :: ts => t.firstFault?.or (firstFaultAmong? ts)

end

/-- The first syntax error of a tree, none if it has no visible one. -/
def diagnostic? (src : List Char) (t : Tree) : Option Diagnostic :=
  t.firstFault?.map fun n => { message := n.complaint src, position := n.position src }

end Tree

end TagIndex
