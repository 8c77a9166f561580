import TagIndex.Decl.Modifier
import TagIndex.Decl.Pattern

/-!
# Declarations

What a source file declares, as far as tags need it. Bodies keep only declarations, and everything
that declares nothing is `Decl.other`.
-/

namespace TagIndex

structure Param where
  name : Name
  modifiers : List Modifier
deriving DecidableEq, Repr, Inhabited

inductive TemplateKind where
  | object
  | packageObject
  | trait
deriving DecidableEq, Repr, Inhabited

inductive MemberKind where
  | method
  | type
deriving DecidableEq, Repr, Inhabited

/-- All of a class but its body. -/
structure ClassHead where
  name : Name
  modifiers : List Modifier
  isCase : Bool
  paramGroups : List (List Param)
deriving DecidableEq, Repr, Inhabited

/-- An implicit class wraps its first parameter to add methods to it. -/
def ClassHead.isImplicit (c : ClassHead) : Bool :=
  c.modifiers.contains .implicit

inductive Decl where
  | package (body : List Decl)
  | template (kind : TemplateKind) (name : Name) (modifiers : List Modifier) (body : List Decl)
  | cls (head : ClassHead) (body : List Decl)
  | member (kind : MemberKind) (name : Name) (modifiers : List Modifier)
  | value (modifiers : List Modifier) (patterns : List Pattern)
  | other
deriving Repr, Inhabited

def Decl.isOther : Decl → Bool
  | .other => true
  | _ => false

end TagIndex
