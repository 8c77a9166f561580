import TagIndex.Text.Decimal
import TagIndex.Text.Fields
import TagIndex.Tree.Basic

/-!
# Listings of syntax trees

A tree is kept in a text file with one line a node, each node before its children. The fields of a
line are separated by tabs: depth, kind, flags, role in the parent (empty if there is none), start
byte, end byte, row and column. The flags are the sum of 1 for a named node, 2 for an error, 4 for a
missing token and 8 for an error below.
-/

namespace TagIndex.Tree

def listed? (line : List Char) : Option (Nat × Node) :=
  match Text.fields '\t' line with
  | [depth, kind, flags, role, start, stop, row, column] => do
    let flags ← Text.decimal? flags
    return (← Text.decimal? depth,
      { kind := String.ofList kind
        isNamed := flags.testBit 0
        isError := flags.testBit 1
        isMissing := flags.testBit 2
        hasError := flags.testBit 3
        field := if role.isEmpty then none else some (String.ofList role)
        start := ← Text.decimal? start
        stop := ← Text.decimal? stop
        row := ← Text.decimal? row
        column := ← Text.decimal? column })
  | _ => none

def ofListing? (text : String) : Option Tree := do
  ofPreorder? (← ((Text.fields '\n' text.toList).filter (!·.isEmpty)).mapM listed?)

end TagIndex.Tree
