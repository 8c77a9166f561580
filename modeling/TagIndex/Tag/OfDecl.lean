import TagIndex.Decl.Basic
import TagIndex.Decl.Locality
import TagIndex.Tag.Basic

/-!
# Tags of declarations

All that is passed down is the scope: the name through which members can be reached statically. An
object sets it to its own name, traits and classes clear it, packages leave it alone. A member of a
scope has two tags, first the one that the scope qualifies, then the plain one.
-/

namespace TagIndex.Tag

def ofMember (scope : Option String) (name : Name) (mods : List Modifier) : List Tag :=
  let plain : Tag :=
    { qualifier := none, name := name.value, isLocal := isFileLocal scope mods
      position := name.position }
  match scope with
  | some s => [plain.qualified s, plain]
  | none => [plain]

/-- The tag of a constructor parameter. It is never qualified. -/
def ofParam (isLocal : Bool) (p : Param) : Tag :=
  { qualifier := none, name := p.name.value, isLocal, position := p.name.position }

/-- Whether a parameter of the first group is file-local. In an implicit class it only carries the
wrapped value; in a case class it is a public field unless a modifier says otherwise. -/
def isLocalFirst (c : ClassHead) (p : Param) : Bool :=
  if c.isImplicit then true
  else if c.isCase then isFileLocal none p.modifiers
  else isFileLocalParam p.modifiers

def ofConstructor (c : ClassHead) : List Tag :=
  match c.paramGroups with
  | [] => []
  | first :: later =>
    first.map (fun p => ofParam (isLocalFirst c p) p) ++
      later.flatten.map (fun p => ofParam (isFileLocalParam p.modifiers) p)

def templateScope : TemplateKind → Name → Option String
  | .object, name => some name.value
  | .packageObject, name => some name.value
  | .trait, _ => none

mutual

/-- The tags of a declaration inside a template. A package there declares nothing. -/
def ofDecl (scope : Option String) : Decl → List Tag
  | .member _ name mods => ofMember scope name mods
  | .value mods patterns =>
    (patterns.flatMap Pattern.boundNames).flatMap fun name => ofMember scope name mods
  | .template kind name mods body =>
    ofMember scope name mods ++ ofDecls (templateScope kind name) body
  | .cls head body =>
    ofMember scope head.name head.modifiers ++ ofConstructor head ++ ofDecls none body
  | .package _ => []
  | .other => []

def ofDecls (scope : Option String) : List Decl → List Tag
  | [] => []
  | d :: ds => ofDecl scope d ++ ofDecls scope ds

end

mutual

/-- The tags of a declaration outside all templates. A package there stands for what is in it. -/
def ofTopLevel : Decl → List Tag
  | .package body => ofSource body
  | d => ofDecl none d

/-- The tags of a source file, in the order of its declarations. -/
def ofSource : List Decl → List Tag
  | [] => []
  | d :: ds => ofTopLevel d ++ ofSource ds

end

theorem ofDecls_eq_flatMap (scope : Option String) (ds : List Decl) :
    ofDecls scope ds = ds.flatMap (ofDecl scope) := by
  induction ds with
  | nil => rfl
  | cons d ds ih => simp [ofDecls, ih]

theorem ofSource_eq_flatMap (ds : List Decl) : ofSource ds = ds.flatMap ofTopLevel := by
  induction ds with
  | nil => rfl
  | cons d ds ih => simp [ofSource, ih]

end TagIndex.Tag
