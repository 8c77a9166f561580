import TagIndex.Index

/-!
# The nodes that name declarations

`Tree.declaredNames` reads off a raw syntax tree which nodes name something declared, in the order
in which a walk over the tree meets them. It looks at kinds, roles and the named flag only, and
knows neither declarations nor tags.

- `binders`: the identifiers that a pattern binds. `top` holds at the outermost pattern of a value,
  where every identifier binds.
- `ownNames`: the nodes that name what one declaration declares itself.
- `statements`: the nodes that the walk goes on to inside a declaration.
- `namesAt`: the walk. Outside all templates it opens packages, below a template it does not.
-/

namespace TagIndex.Tree

theorem sizeOf_lt_of_mem_children {t u : Tree} (h : u ∈ t.children) : sizeOf u < sizeOf t := by
  obtain ⟨n, cs⟩ := t
  have hlt := List.sizeOf_lt_of_mem h
  rw [children_mk] at hlt
  rw [mk.sizeOf_spec]
  omega

def firstIn? (field : String) (ts : List Tree) : Option Tree :=
  ts.find? (·.node.field == some field)

def firstNamed? (ts : List Tree) : Option Tree :=
  ts.find? (·.node.isNamed)

theorem inField?_eq_map (field : String) (ts : List Tree) :
    inField? field ts = (firstIn? field ts).map node := rfl

theorem mem_of_firstIn? {field : String} {ts : List Tree} {t : Tree}
    (h : firstIn? field ts = some t) : t ∈ ts :=
  List.mem_of_find?_eq_some h

theorem field_of_firstIn? {field : String} {ts : List Tree} {t : Tree}
    (h : firstIn? field ts = some t) : t.node.field = some field :=
  beq_iff_eq.mp (List.find?_some (p := fun u : Tree => u.node.field == some field) h)

theorem mem_of_firstNamed? {ts : List Tree} {t : Tree} (h : firstNamed? ts = some t) :
    t ∈ ts :=
  List.mem_of_find?_eq_some h

/-! ### Binders of a pattern -/

/-- The binder that a pattern has itself, before those of its parts. -/
def ownBinders (src : List Char) (top : Bool) (t : Tree) : List Node :=
  match t.node.kind with
  | "identifier" => if top || Name.isVariable (t.node.text src) then [t.node] else []
  | "capture_pattern" => (inField? "name" t.children).toList
  | _ => []

def subpatterns (t : Tree) : List Tree :=
  let cs := t.children
  match t.node.kind with
  | "typed_pattern" => ((firstIn? "pattern" cs).or (firstNamed? cs)).toList
  | "parenthesized_pattern" => (firstNamed? cs).toList
  | "tuple_pattern" => named cs
  | "infix_pattern" => (firstIn? "left" cs).toList ++ (firstIn? "right" cs).toList
  | "case_class_pattern" =>
    match inField "pattern" cs with
    | [] => (named cs).drop 1
    | ps => ps
  | "capture_pattern" =>
    match inField? "name" cs with
    | some _ => (firstIn? "pattern" cs).toList
    | none => []
  | _ => []

/-- Whether the parts of a pattern of this kind stand where it stands. -/
def keepsTop (kind : String) : Bool :=
  kind == "typed_pattern" || kind == "parenthesized_pattern"

theorem mem_children_of_mem_subpatterns {t u : Tree} (h : u ∈ t.subpatterns) :
    u ∈ t.children := by
  simp only [subpatterns] at h
  split at h
  · rw [Option.mem_toList, Option.or_eq_some_iff] at h
    rcases h with h | ⟨-, h⟩
    · exact mem_of_firstIn? h
    · exact mem_of_firstNamed? h
  · exact mem_of_firstNamed? (Option.mem_toList.mp h)
  · exact (List.mem_filter.mp h).1
  · rcases List.mem_append.mp h with h | h
    · exact mem_of_firstIn? (Option.mem_toList.mp h)
    · exact mem_of_firstIn? (Option.mem_toList.mp h)
  · split at h
    · exact (List.mem_filter.mp (List.mem_of_mem_drop h)).1
    · exact (List.mem_filter.mp h).1
  · split at h
    · exact mem_of_firstIn? (Option.mem_toList.mp h)
    · cases h
  · cases h

/-- The identifiers that a pattern binds, from left to right. -/
def binders (src : List Char) (top : Bool) (t : Tree) : List Node :=
  t.ownBinders src top ++
    t.subpatterns.attach.flatMap fun u => binders src (top && keepsTop t.node.kind) u.1
termination_by t
decreasing_by exact sizeOf_lt_of_mem_children (mem_children_of_mem_subpatterns u.2)

theorem binders_eq (src : List Char) (top : Bool) (t : Tree) :
    t.binders src top = t.ownBinders src top ++
      t.subpatterns.flatMap (binders src (top && keepsTop t.node.kind)) := by
  rw [binders]
  simp

/-! ### Declarations -/

/-- Where a walk over declarations stands: outside all templates, or below one. -/
inductive Level where
  | package
  | template
deriving DecidableEq, Repr

def Level.below (level : Level) (kind : String) : Level :=
  if kind = "package_clause" then level else .template

/-- The body of a declaration: the child in the role `body`, else the first named template body. -/
def body? (cs : List Tree) : Option Tree :=
  (firstIn? "body" cs).or (cs.find? fun t => t.node.isNamed && t.node.kind == "template_body")

def bodyStatements (cs : List Tree) : List Tree :=
  named ((body? cs).elim [] children)

def isParameter (t : Tree) : Bool :=
  t.node.kind == "class_parameter"

def parameterNames (cs : List Tree) : List Node :=
  (cs.filter (·.node.kind == "class_parameters")).flatMap fun group =>
    (group.children.filter isParameter).filterMap fun p => inField? "name" p.children

def definedNames (src : List Char) (t : Tree) : List Node :=
  if t.node.kind = "identifiers" then
    ((named t.children).filter (·.node.kind == "identifier")).map node
  else t.binders src true

/-- The nodes that name what a declaration declares itself. -/
def ownNames (src : List Char) (t : Tree) : List Node :=
  let cs := t.children
  match t.node.kind with
  | "package_object" | "object_definition" | "trait_definition"
  | "function_definition" | "function_declaration" | "type_definition" =>
    (inField? "name" cs).toList
  | "class_definition" =>
    match inField? "name" cs with
    | some name => name :: parameterNames cs
    | none => []
  | "val_definition" | "var_definition" => (inField "pattern" cs).flatMap (definedNames src)
  | "val_declaration" | "var_declaration" => (inField "name" cs).map node
  | _ => []

/-- The nodes inside a declaration that are declarations in their turn. -/
def statements (level : Level) (t : Tree) : List Tree :=
  let cs := t.children
  match t.node.kind with
  | "package_clause" =>
    match level with
    | .package => bodyStatements cs
    | .template => []
  | "package_object" | "object_definition" | "trait_definition" | "class_definition" =>
    (inField? "name" cs).elim [] fun _ => bodyStatements cs
  | _ => []

theorem mem_of_body? {cs : List Tree} {b : Tree} (h : body? cs = some b) : b ∈ cs := by
  rw [body?, Option.or_eq_some_iff] at h
  rcases h with h | ⟨-, h⟩
  · exact mem_of_firstIn? h
  · exact List.mem_of_find?_eq_some h

theorem statements_sublist (level : Level) (t : Tree) :
    (t.statements level).Sublist (bodyStatements t.children) := by
  simp only [statements]
  split
  case h_1 =>
    cases level with
    | package => exact .refl _
    | template => exact List.nil_sublist _
  case h_6 => exact List.nil_sublist _
  all_goals
    cases inField? "name" t.children with
    | none => exact List.nil_sublist _
    | some name => exact .refl _

theorem sizeOf_lt_of_mem_statements {level : Level} {t u : Tree} (h : u ∈ t.statements level) :
    sizeOf u < sizeOf t := by
  have h := (List.mem_filter.mp ((statements_sublist level t).subset h)).1
  cases hb : body? t.children with
  | none => rw [hb] at h; cases h
  | some b =>
    rw [hb, Option.elim_some] at h
    have h1 := sizeOf_lt_of_mem_children h
    have h2 := sizeOf_lt_of_mem_children (mem_of_body? hb)
    omega

def namesAt (src : List Char) (level : Level) (t : Tree) : List Node :=
  t.ownNames src ++
    (t.statements level).attach.flatMap fun u => namesAt src (level.below t.node.kind) u.1
termination_by t
decreasing_by exact sizeOf_lt_of_mem_statements u.2

theorem namesAt_eq (src : List Char) (level : Level) (t : Tree) :
    t.namesAt src level = t.ownNames src ++
      (t.statements level).flatMap (namesAt src (level.below t.node.kind)) := by
  rw [namesAt]
  simp

def declaredNames (src : List Char) (root : Tree) : List Node :=
  (named root.children).flatMap (namesAt src .package)

end TagIndex.Tree
