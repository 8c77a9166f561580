import TagIndex.Tree.Place

/-!
# Tags

A tag names one declared thing and says where it stands. A tag line adds the file and its language
and is one record of a tags file.
-/

namespace TagIndex

structure Tag where
  /-- The object through which the name can be reached, if the tag spells it out. -/
  qualifier : Option String
  name : String
  /-- Whether the name is of use only inside its own file. -/
  isLocal : Bool
  position : Position
deriving DecidableEq, Repr, Inhabited

namespace Tag

def qualified (t : Tag) (qualifier : String) : Tag :=
  { t with qualifier := some qualifier }

/-- The name as it is looked up: `qualifier.name`, or the name alone. -/
def fullName (t : Tag) : String :=
  match t.qualifier with
  | some q => q ++ "." ++ t.name
  | none => t.name

end Tag

structure TagLine where
  tag : Tag
  file : String
  language : String
deriving DecidableEq, Repr, Inhabited

namespace TagLine

def fullName (l : TagLine) : String :=
  l.tag.fullName

/-- Tag lines in the order of their full names; lines with equal names keep their order. Code point
order on texts is the order of their UTF-8 bytes. -/
def sort (lines : List TagLine) : List TagLine :=
  lines.mergeSort fun a b => a.fullName ≤ b.fullName

end TagLine

end TagIndex
