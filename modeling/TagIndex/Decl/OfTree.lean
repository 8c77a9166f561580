import TagIndex.Decl.Basic
import TagIndex.Decl.PatternOfTree

/-!
# Declarations read off a syntax tree

Reading never fails: a node that is not understood, or lacks its name, becomes `Decl.other` and is
left out of the body around it. The tree may have errors; what the parser recovered is read like
anything else.

`Decl.ofTree` reads one node and `Decl.ofTrees` the declarations of a body. A body is the child in
the role `body`, else the first named child that is a template body.
-/

namespace TagIndex

/-! ### Modifiers and parameters -/

def Modifier.ofChildren (src : List Char) (cs : List Tree) : List Modifier :=
  cs.flatMap fun t =>
    match t.node.kind with
    | "modifiers" => t.children.map (Modifier.ofNode src ·.node)
    | "access_modifier" => [Modifier.ofNode src t.node]
    | _ => []

namespace Param

/-- The mark `val` or `var` before a parameter. -/
def fieldModifier? : String → Option Modifier
  | "val" => some .valParam
  | "var" => some .varParam
  | _ => none

/-- The modifier that a token gives to all parameters of its group. -/
def groupModifier? : String → Option Modifier
  | "implicit" => some .implicit
  | "using" => some .usingParam
  | _ => none

/-- A parameter without a name is left out. -/
def ofTree? (src : List Char) (t : Tree) : Option Param :=
  (Tree.inField? "name" t.children).map fun name =>
    { name := Name.ofNode src name
      modifiers := Modifier.ofChildren src t.children ++
        t.children.filterMap (fieldModifier? ·.node.kind) }

/-- The parameters of one group. The last group modifier counts, wherever it stands, and goes after
the parameters' own modifiers. -/
def ofGroup (src : List Char) (cs : List Tree) : List Param :=
  let shared := (cs.filterMap (groupModifier? ·.node.kind)).getLast?.toList
  let params := (cs.filter (·.node.kind == "class_parameter")).filterMap (ofTree? src)
  params.map fun p => { p with modifiers := p.modifiers ++ shared }

end Param

def ClassHead.ofChildren (src : List Char) (name : Name) (cs : List Tree) : ClassHead :=
  { name
    modifiers := Modifier.ofChildren src cs
    isCase := cs.any (·.node.kind == "case")
    paramGroups :=
      (cs.filter (·.node.kind == "class_parameters")).map (Param.ofGroup src ·.children) }

/-! ### Left-hand sides of values -/

/-- The patterns of one left-hand side: a list of identifiers binds each of them. -/
def Pattern.ofDefinition (src : List Char) (t : Tree) : List Pattern :=
  if t.node.kind = "identifiers" then
    ((Tree.named t.children).filter (·.node.kind == "identifier")).map
      fun i => .var (Name.ofNode src i.node)
  else [Pattern.ofTree src true t]

def Pattern.ofDefinitions (src : List Char) (cs : List Tree) : List Pattern :=
  (Tree.inField "pattern" cs).flatMap (Pattern.ofDefinition src)

/-- The names of a value declaration, which has no right-hand side. -/
def Pattern.ofDeclarations (src : List Char) (cs : List Tree) : List Pattern :=
  (Tree.inField "name" cs).map fun t => .var (Name.ofNode src t.node)

/-! ### Declarations -/

namespace Decl

inductive Shape where
  | package
  | template (kind : TemplateKind)
  | cls
  | member (kind : MemberKind)
  | definition
  | declaration
  | other
deriving DecidableEq, Repr

def Shape.ofKind : String → Shape
  | "package_clause" => .package
  | "package_object" => .template .packageObject
  | "object_definition" => .template .object
  | "trait_definition" => .template .trait
  | "class_definition" => .cls
  | "function_definition" => .member .method
  | "function_declaration" => .member .method
  | "type_definition" => .member .type
  | "val_definition" => .definition
  | "var_definition" => .definition
  | "val_declaration" => .declaration
  | "var_declaration" => .declaration
  | _ => .other

/-- Which of the children of a declaration hold its body: those in the role `body`, or the named
template bodies if no child is in that role. -/
def holdsBody (cs : List Tree) : Node → Bool :=
  if cs.any (·.node.field == some "body") then (·.field == some "body")
  else fun n => n.isNamed && n.kind == "template_body"

mutual

def ofTree (src : List Char) : Tree → Decl
  | .mk n cs =>
    match Shape.ofKind n.kind, (Tree.inField? "name" cs).map (Name.ofNode src) with
    | .package, _ => .package (body src (holdsBody cs) cs)
    | .template kind, some name =>
      .template kind name (Modifier.ofChildren src cs) (body src (holdsBody cs) cs)
    | .cls, some name => .cls (ClassHead.ofChildren src name cs) (body src (holdsBody cs) cs)
    | .member kind, some name => .member kind name (Modifier.ofChildren src cs)
    | .definition, _ => .value (Modifier.ofChildren src cs) (Pattern.ofDefinitions src cs)
    | .declaration, _ => .value (Modifier.ofChildren src cs) (Pattern.ofDeclarations src cs)
    | _, _ => .other

def body (src : List Char) (isBody : Node → Bool) : List Tree → List Decl
  | [] => []
  | .mk n cs :: ts => if isBody n then ofTrees src cs else body src isBody ts

/-- The declarations among some trees. Unnamed trees declare nothing. -/
def ofTrees (src : List Char) : List Tree → List Decl
  | [] => []
  | t :: ts =>
    let later := ofTrees src ts
    if t.node.isNamed then
      let d := ofTree src t
      if d.isOther then later else d :: later
    else later

end

theorem body_eq (src : List Char) (isBody : Node → Bool) (ts : List Tree) :
    body src isBody ts =
      ((ts.find? (isBody ·.node)).map fun t => ofTrees src t.children).getD [] := by
  induction ts with
  | nil => rfl
  | cons t ts ih => obtain ⟨n, cs⟩ := t; by_cases h : isBody n <;> simp_all [body]

theorem ofTrees_eq (src : List Char) (ts : List Tree) :
    ofTrees src ts = ((Tree.named ts).map (ofTree src)).filter (!·.isOther) := by
  induction ts with
  | nil => simp [ofTrees, Tree.named]
  | cons t ts ih =>
    by_cases h : t.node.isNamed <;> cases h' : (ofTree src t).isOther <;>
      simp_all [ofTrees, Tree.named]

def ofSource (src : List Char) (root : Tree) : List Decl :=
  ofTrees src root.children

end Decl

end TagIndex
