import TagIndex.Decl.Modifier

/-!
# File-local declarations

A declaration is file-local when no other file can mention it. An ordered list of rules decides:
the first rule that speaks about some modifier gives the answer, and within one rule "file-local"
outweighs "exported".
-/

namespace TagIndex

/-- A rule looks at one modifier of a declaration in a scope. It answers whether the declaration is
file-local, or says nothing. -/
abbrev LocalityRule := Option String → Modifier → Option Bool

namespace LocalityRule

def plainPrivate : LocalityRule
  | _, .privateTo none => some true
  | _, _ => none

/-- Private to the object itself, `private[this]`. -/
def objectPrivate : LocalityRule
  | _, .privateTo (some "this") => some true
  | _, _ => none

/-- In the scope `s`, `private[s]` is as good as `private`. A wider scope leaves the declaration
reachable from other files. -/
def scopedPrivate : LocalityRule
  | scope, .privateTo (some s) => some (scope == some s)
  | _, _ => none

/-- A `val` or `var` makes a constructor parameter a public field. -/
def publicField : LocalityRule
  | _, .valParam => some false
  | _, .varParam => some false
  | _, _ => none

def verdict (rule : LocalityRule) (scope : Option String) (mods : List Modifier) : Option Bool :=
  let answers := mods.filterMap (rule scope)
  if answers.isEmpty then none else some (answers.any id)

def all : List LocalityRule :=
  [plainPrivate, objectPrivate, scopedPrivate, publicField]

end LocalityRule

def isFileLocal (scope : Option String) (mods : List Modifier) : Bool :=
  (LocalityRule.all.findSome? (·.verdict scope mods)).getD false

/-- Whether a constructor parameter is file-local: with no modifier it is no field at all. -/
def isFileLocalParam (mods : List Modifier) : Bool :=
  mods.isEmpty || isFileLocal none mods

end TagIndex
