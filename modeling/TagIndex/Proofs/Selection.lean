import Mathlib.Data.List.Basic
import TagIndex.Proofs.Traversal

/-!
# The tags of a source are those of the names declared in it

A source is read in two passes, from the tree to declarations and from these to tags. Here both
passes together are compared with the one walk of `Tree.declaredNames` over the raw tree.

- `Tagged names tags`: `tags` are the tags of `names`, in their order. Each name has a plain tag,
  perhaps after a qualified one.
- `boundNames_ofTree`: a pattern binds the binders of its node.
- `Tree.walk_spec`: what each shape of declaration declares, and the declarations that it passes
  the walk on to.
- `Tag.atLevel_ofTree`: one step of the walk, with the scope in which it goes on.
- `tagged_declaredNames`: every tree gives the tags of its declared names and no others.
-/

namespace TagIndex

/-- The kind of node that each shape of pattern stands for. -/
theorem Pattern.Shape.ofKind_spec (k : String) :
    match ofKind k with
    | .identifier => k = "identifier"
    | .typed => k = "typed_pattern"
    | .parenthesized => k = "parenthesized_pattern"
    | .tuple => k = "tuple_pattern"
    | .operator => k = "infix_pattern"
    | .extractor => k = "case_class_pattern"
    | .capture => k = "capture_pattern"
    | .other => k ∉ ["identifier", "typed_pattern", "parenthesized_pattern", "tuple_pattern",
        "infix_pattern", "case_class_pattern", "capture_pattern"] := by
  fun_cases ofKind k <;> simp_all

/-- The kinds of node that each shape of declaration stands for. -/
theorem Decl.Shape.ofKind_spec (k : String) :
    match ofKind k with
    | .package => k = "package_clause"
    | .template .packageObject => k = "package_object"
    | .template .object => k = "object_definition"
    | .template .trait => k = "trait_definition"
    | .cls => k = "class_definition"
    | .member .method => k = "function_definition" ∨ k = "function_declaration"
    | .member .type => k = "type_definition"
    | .definition => k = "val_definition" ∨ k = "var_definition"
    | .declaration => k = "val_declaration" ∨ k = "var_declaration"
    | .other => k ∉ ["package_clause", "package_object", "object_definition", "trait_definition",
        "class_definition", "function_definition", "function_declaration", "type_definition",
        "val_definition", "var_definition", "val_declaration", "var_declaration"] := by
  fun_cases ofKind k <;> simp_all

namespace Tree

/-- What each shape of declaration declares itself, and where the walk goes on inside it. -/
theorem walk_spec (src : List Char) (t : Tree) :
    match Decl.Shape.ofKind t.node.kind with
    | .package => t.ownNames src = [] ∧ t.statements .package = bodyStatements t.children ∧
        t.statements .template = []
    | .template _ => t.ownNames src = (inField? "name" t.children).toList ∧
        ∀ level, t.statements level =
          (inField? "name" t.children).elim [] fun _ => bodyStatements t.children
    | .cls => t.ownNames src =
          (inField? "name" t.children).elim [] (· :: parameterNames t.children) ∧
        ∀ level, t.statements level =
          (inField? "name" t.children).elim [] fun _ => bodyStatements t.children
    | .member _ => t.ownNames src = (inField? "name" t.children).toList ∧
        ∀ level, t.statements level = []
    | .definition => t.ownNames src = (inField "pattern" t.children).flatMap (definedNames src) ∧
        ∀ level, t.statements level = []
    | .declaration => t.ownNames src = (inField "name" t.children).map node ∧
        ∀ level, t.statements level = []
    | .other => t.ownNames src = [] ∧ ∀ level, t.statements level = [] := by
  have hk := Decl.Shape.ofKind_spec t.node.kind
  cases hs : Decl.Shape.ofKind t.node.kind <;> rw [hs] at hk
  case package => simp [ownNames, statements, hk]
  case template kind => cases kind <;> simp [ownNames, statements, hk]
  case cls => cases hn : inField? "name" t.children <;> simp [ownNames, statements, hk, hn]
  case member kind =>
    cases kind with
    | method => rcases hk with hk | hk <;> simp [ownNames, statements, hk]
    | type => simp [ownNames, statements, hk]
  case definition => rcases hk with hk | hk <;> simp [ownNames, statements, hk]
  case declaration => rcases hk with hk | hk <;> simp [ownNames, statements, hk]
  case other =>
    simp only [List.mem_cons, List.not_mem_nil, or_false, not_or] at hk
    simp [ownNames, statements, hk]

/-- The names that a declaration gives to what is around it: all its own names but those of
constructor parameters. -/
def memberNames (src : List Char) (t : Tree) : List Node :=
  match t.node.kind with
  | "class_definition" => (inField? "name" t.children).toList
  | _ => t.ownNames src

def scope? (src : List Char) (t : Tree) : Option String :=
  match t.node.kind with
  | "package_object" | "object_definition" =>
    (inField? "name" t.children).map fun name => (Name.ofNode src name).value
  | _ => none

end Tree

/-! ### Names with their tags -/

/-- The tag that is a name alone. -/
def Tag.plain (isLocal : Bool) (name : Name) : Tag :=
  { qualifier := none, name := name.value, isLocal, position := name.position }

/-- The tags of some names, in the order of the names. -/
inductive Tagged : List Name → List Tag → Prop where
  | nil : Tagged [] []
  | plain {names : List Name} {tags : List Tag} (name : Name) (isLocal : Bool) :
      Tagged names tags → Tagged (name :: names) (Tag.plain isLocal name :: tags)
  | paired {names : List Name} {tags : List Tag} (name : Name) (isLocal : Bool)
      (qualifier : String) : Tagged names tags →
      Tagged (name :: names)
        ({ qualifier := some qualifier, name := name.value, isLocal, position := name.position } ::
          Tag.plain isLocal name :: tags)

namespace Tagged

theorem eq_nil {tags : List Tag} (h : Tagged [] tags) : tags = [] := by
  cases h
  rfl

theorem append {ns ms : List Name} {ts us : List Tag} (h : Tagged ns ts) (h' : Tagged ms us) :
    Tagged (ns ++ ms) (ts ++ us) := by
  induction h with
  | nil => exact h'
  | plain name isLocal _ ih => exact .plain name isLocal ih
  | paired name isLocal q _ ih => exact .paired name isLocal q ih

theorem flatMap {α : Type} {f : α → List Name} {g : α → List Tag} (l : List α)
    (h : ∀ a ∈ l, Tagged (f a) (g a)) : Tagged (l.flatMap f) (l.flatMap g) := by
  induction l with
  | nil => exact .nil
  | cons a l ih =>
    rw [List.flatMap_cons, List.flatMap_cons]
    exact (h a List.mem_cons_self).append (ih fun b hb => h b (List.mem_cons_of_mem a hb))

theorem ofMember (scope : Option String) (name : Name) (mods : List Modifier) :
    Tagged [name] (Tag.ofMember scope name mods) := by
  cases scope with
  | none => exact .plain name _ .nil
  | some s => exact .paired name _ s .nil

theorem ofMembers (scope : Option String) (names : List Name) (mods : List Modifier) :
    Tagged names (names.flatMap fun name => Tag.ofMember scope name mods) := by
  simpa using flatMap (f := fun name => [name]) names fun name _ => ofMember scope name mods

theorem ofParams (isLocal : Param → Bool) (ps : List Param) :
    Tagged (ps.map (·.name)) (ps.map fun p => Tag.ofParam (isLocal p) p) := by
  induction ps with
  | nil => exact .nil
  | cons p ps ih => exact .plain p.name (isLocal p) ih

theorem ofConstructor (c : ClassHead) :
    Tagged (c.paramGroups.flatten.map (·.name)) (Tag.ofConstructor c) := by
  unfold Tag.ofConstructor
  split
  · next h => rw [h]; exact .nil
  · next first later h =>
    rw [h, List.flatten_cons, List.map_append]
    exact (ofParams _ first).append (ofParams _ later.flatten)

end Tagged

/-! ### Patterns -/

namespace Tree

theorem patternIn?_eq (src : List Char) (top : Bool) (field : String) (cs : List Tree) :
    Pattern.inField? src top field cs = (firstIn? field cs).map (Pattern.ofTree src top) :=
  Pattern.inField?_eq src top field cs

theorem firstPattern?_eq (src : List Char) (top : Bool) (cs : List Tree) :
    Pattern.firstNamed? src top cs = (firstNamed? cs).map (Pattern.ofTree src top) :=
  Pattern.firstNamed?_eq src top cs

theorem boundNames_step (src : List Char) (top : Bool) (t : Tree) :
    (Pattern.ofTree src top t).boundNames =
      (t.ownBinders src top).map (Name.ofNode src) ++ t.subpatterns.flatMap fun u =>
        (Pattern.ofTree src (top && keepsTop t.node.kind) u).boundNames := by
  obtain ⟨n, cs⟩ := t
  have hk := Pattern.Shape.ofKind_spec n.kind
  rw [Pattern.ofTree]
  cases hs : Pattern.Shape.ofKind n.kind <;> rw [hs] at hk <;>
    simp only [ownBinders, subpatterns, node_mk, children_mk, hk, patternIn?_eq,
      firstPattern?_eq, Pattern.named_eq, Pattern.inField_eq]
  case identifier =>
    by_cases hb : top = true ∨ Name.isVariable (n.text src) = true
    · simp [hb, Pattern.boundNames]
    · simp [hb, Pattern.boundNames]
  case typed =>
    rw [← Option.map_or]
    cases (firstIn? "pattern" cs).or (firstNamed? cs) <;> simp [Pattern.boundNames, keepsTop]
  case parenthesized => cases firstNamed? cs <;> simp [Pattern.boundNames, keepsTop]
  case tuple =>
    simp [Pattern.boundNames, Pattern.boundNamesAll_eq_flatMap, keepsTop, List.flatMap_map]
  case operator =>
    cases firstIn? "left" cs <;> cases firstIn? "right" cs <;>
      simp [Pattern.boundNames, Pattern.boundNamesAll, keepsTop]
  case extractor =>
    by_cases hp : inField "pattern" cs = []
    · simp [hp, Pattern.boundNames, Pattern.boundNamesAll_eq_flatMap, keepsTop, List.flatMap_map,
        ← List.map_tail]
    · obtain ⟨p, ps, hp⟩ := List.exists_cons_of_ne_nil hp
      simp [hp, Pattern.boundNames, Pattern.boundNamesAll_eq_flatMap, keepsTop, List.flatMap_map]
  case capture =>
    rcases Option.eq_none_or_eq_some (inField? "name" cs) with hn | ⟨name, hn⟩
    · simp [hn, Pattern.boundNames]
    · cases firstIn? "pattern" cs <;> simp [hn, Pattern.boundNames, keepsTop]
  case other =>
    simp only [List.mem_cons, List.not_mem_nil, or_false, not_or] at hk
    simp [hk, Pattern.boundNames]

/-- A pattern binds the binders of its node. -/
theorem boundNames_ofTree (src : List Char) (top : Bool) (t : Tree) :
    (Pattern.ofTree src top t).boundNames = (t.binders src top).map (Name.ofNode src) := by
  induction top, t using binders.induct with
  | case1 top t ih =>
    rw [boundNames_step, binders_eq, List.map_append, List.map_flatMap]
    exact congrArg _ (List.flatMap_congr fun u hu => ih ⟨u, hu⟩)

theorem boundNames_vars (src : List Char) (ts : List Tree) :
    (ts.map fun t => Pattern.var (Name.ofNode src t.node)).flatMap Pattern.boundNames =
      (ts.map node).map (Name.ofNode src) := by
  simp only [List.flatMap_map, Pattern.boundNames, List.map_map]
  exact List.map_eq_flatMap.symm

theorem boundNames_ofDefinitions (src : List Char) (cs : List Tree) :
    (Pattern.ofDefinitions src cs).flatMap Pattern.boundNames =
      ((inField "pattern" cs).flatMap (definedNames src)).map (Name.ofNode src) := by
  rw [Pattern.ofDefinitions, List.flatMap_assoc, List.map_flatMap]
  refine List.flatMap_congr fun t _ => ?_
  unfold Pattern.ofDefinition definedNames
  split
  · exact boundNames_vars src _
  · rw [List.flatMap_singleton, boundNames_ofTree]

theorem boundNames_ofDeclarations (src : List Char) (cs : List Tree) :
    (Pattern.ofDeclarations src cs).flatMap Pattern.boundNames =
      ((inField "name" cs).map node).map (Name.ofNode src) :=
  boundNames_vars src (inField "name" cs)

/-! ### Parameters and bodies -/

theorem names_ofGroup (src : List Char) (cs : List Tree) :
    (Param.ofGroup src cs).map (·.name) =
      ((cs.filter isParameter).filterMap fun p => inField? "name" p.children).map
        (Name.ofNode src) := by
  simp only [Param.ofGroup, Param.ofTree?, List.map_filterMap, Option.map_map, Function.comp_def]
  rfl

theorem names_ofChildren (src : List Char) (name : Name) (cs : List Tree) :
    (ClassHead.ofChildren src name cs).paramGroups.flatten.map (·.name) =
      (parameterNames cs).map (Name.ofNode src) := by
  rw [ClassHead.ofChildren, parameterNames, List.map_flatMap, ← List.flatMap_def, List.map_flatMap]
  exact List.flatMap_congr fun group _ => names_ofGroup src group.children

theorem body_eq_ofTrees (src : List Char) (cs : List Tree) :
    Decl.body src (Decl.holdsBody cs) cs = Decl.ofTrees src ((body? cs).elim [] children) := by
  rw [Decl.body_eq, body?]
  unfold Decl.holdsBody
  cases hb : firstIn? "body" cs with
  | some b =>
    have hany : cs.any (·.node.field == some "body") = true :=
      List.any_eq_true.mpr ⟨b, mem_of_firstIn? hb, beq_iff_eq.mpr (field_of_firstIn? hb)⟩
    rw [if_pos hany, show cs.find? (·.node.field == some "body") = some b from hb]
    rfl
  | none =>
    have hany : ¬ cs.any (·.node.field == some "body") = true := by
      simpa [firstIn?] using hb
    rw [if_neg hany, Option.none_or]
    cases cs.find? fun t => t.node.isNamed && t.node.kind == "template_body" with
    | none => simp [Decl.ofTrees]
    | some b => rfl

end Tree

/-! ### Declarations -/

namespace Tag

/-- The tags of a declaration at a level of the walk. Outside all templates there is no scope. -/
def atLevel (level : Tree.Level) (scope : Option String) (d : Decl) : List Tag :=
  match level with
  | .package => ofTopLevel d
  | .template => ofDecl scope d

/-- What declares nothing has no tags, so it does not matter that it is left out of a body. -/
theorem flatMap_ofTrees (src : List Char) (level : Tree.Level) (scope : Option String)
    (ts : List Tree) :
    (Decl.ofTrees src ts).flatMap (atLevel level scope) =
      (Tree.named ts).flatMap fun t => atLevel level scope (Decl.ofTree src t) := by
  rw [Decl.ofTrees_eq]
  induction Tree.named ts with
  | nil => rfl
  | cons t ts ih =>
    rw [List.map_cons, List.flatMap_cons, ← ih]
    cases h : Decl.ofTree src t
    case other => cases level <;> rfl
    all_goals rfl

theorem ofDecls_body (src : List Char) (scope : Option String) (cs : List Tree) :
    ofDecls scope (Decl.body src (Decl.holdsBody cs) cs) =
      (Tree.bodyStatements cs).flatMap fun t => atLevel .template scope (Decl.ofTree src t) := by
  rw [ofDecls_eq_flatMap, Tree.body_eq_ofTrees]
  exact flatMap_ofTrees src .template scope _

theorem ofSource_body (src : List Char) (cs : List Tree) :
    ofSource (Decl.body src (Decl.holdsBody cs) cs) =
      (Tree.bodyStatements cs).flatMap fun t => atLevel .package none (Decl.ofTree src t) := by
  rw [ofSource_eq_flatMap, Tree.body_eq_ofTrees]
  exact flatMap_ofTrees src .package none _

def scopeAt : Tree.Level → Option String → Option String
  | .package, _ => none
  | .template, scope => scope

theorem atLevel_eq_ofDecl {level : Tree.Level} {scope : Option String} {d : Decl}
    (h : ∀ body, d ≠ .package body) : atLevel level scope d = ofDecl (scopeAt level scope) d := by
  cases level with
  | template => rfl
  | package =>
    cases d
    case package body => exact absurd rfl (h body)
    all_goals rfl

def ofParameters (src : List Char) (t : Tree) : List Tag :=
  match t.node.kind with
  | "class_definition" =>
    (Tree.inField? "name" t.children).elim [] fun name =>
      ofConstructor (ClassHead.ofChildren src (Name.ofNode src name) t.children)
  | _ => []

def own (src : List Char) (scope : Option String) (t : Tree) : List Tag :=
  ((t.memberNames src).flatMap fun n =>
    ofMember scope (Name.ofNode src n) (Modifier.ofChildren src t.children)) ++ ofParameters src t

/-- The tags of a node, told by one step of the walk: those of what it declares itself, then those
of the nodes inside it, all of them in the scope that it makes. -/
def stepped (src : List Char) (level : Tree.Level) (scope : Option String) (t : Tree) : List Tag :=
  own src (scopeAt level scope) t ++ (t.statements level).flatMap fun u =>
    atLevel (level.below t.node.kind) (t.scope? src) (Decl.ofTree src u)

/-- One step of the walk: the tags of a node are those of its own names, and then those of the
nodes inside it, all of them in one scope. -/
def Steps (src : List Char) (level : Tree.Level) (scope : Option String) (t : Tree) : Prop :=
  ∃ own inner, Tagged ((t.ownNames src).map (Name.ofNode src)) own ∧
    atLevel level scope (Decl.ofTree src t) = own ++ (t.statements level).flatMap fun u =>
      atLevel (level.below t.node.kind) inner (Decl.ofTree src u)

theorem own_of_ne_class {src : List Char} {scope : Option String} {t : Tree}
    (hs : Decl.Shape.ofKind t.node.kind ≠ .cls) :
    own src scope t = ((t.ownNames src).map (Name.ofNode src)).flatMap fun name =>
      ofMember scope name (Modifier.ofChildren src t.children) := by
  have hk : t.node.kind ≠ "class_definition" := fun hk => hs (by rw [hk]; rfl)
  simp [own, ofParameters, Tree.memberNames, List.flatMap_map]

theorem tagged_own (src : List Char) (scope : Option String) (t : Tree) :
    Tagged ((t.ownNames src).map (Name.ofNode src)) (own src scope t) := by
  have hk := Decl.Shape.ofKind_spec t.node.kind
  by_cases hs : Decl.Shape.ofKind t.node.kind = .cls
  · rw [hs] at hk
    simp only [own, ofParameters, Tree.memberNames, Tree.ownNames, hk]
    cases Tree.inField? "name" t.children with
    | none => exact .nil
    | some name =>
      have hparams :=
        Tagged.ofConstructor (ClassHead.ofChildren src (Name.ofNode src name) t.children)
      rw [Tree.names_ofChildren] at hparams
      exact (Tagged.ofMembers scope [Name.ofNode src name] _).append hparams
  · rw [own_of_ne_class hs]
    exact .ofMembers scope _ _

section Shapes

variable {src : List Char} {level : Tree.Level} {scope : Option String} {n : Node}
  {cs : List Tree}

/-- A node that declares nothing and has nothing inside. -/
theorem stepped_of_other (hd : Decl.ofTree src (.mk n cs) = .other)
    (hown : (Tree.mk n cs).ownNames src = []) (hin : (Tree.mk n cs).statements level = []) :
    atLevel level scope (Decl.ofTree src (.mk n cs)) = stepped src level scope (.mk n cs) := by
  have htags := tagged_own src (scopeAt level scope) (.mk n cs)
  rw [hown] at htags
  rw [stepped, htags.eq_nil, hin, hd]
  cases level <;> rfl

theorem stepped_package (hs : Decl.Shape.ofKind n.kind = .package) :
    atLevel level scope (Decl.ofTree src (.mk n cs)) = stepped src level scope (.mk n cs) := by
  have hk := Decl.Shape.ofKind_spec n.kind
  have hwalk := Tree.walk_spec src (.mk n cs)
  have htags := tagged_own src (scopeAt level scope) (.mk n cs)
  rw [Tree.node_mk, hs] at hwalk
  rw [hs] at hk
  obtain ⟨hown, hpackage, htemplate⟩ := hwalk
  rw [hown] at htags
  rw [stepped, htags.eq_nil, Decl.ofTree, hs]
  cases level with
  | package =>
    rw [hpackage]
    simp [hk, atLevel, ofTopLevel, ofSource_body, Tree.Level.below]
  | template => simp [htemplate, atLevel, ofDecl]

theorem stepped_template {kind : TemplateKind} (hs : Decl.Shape.ofKind n.kind = .template kind) :
    atLevel level scope (Decl.ofTree src (.mk n cs)) = stepped src level scope (.mk n cs) := by
  have hk := Decl.Shape.ofKind_spec n.kind
  have hwalk := Tree.walk_spec src (.mk n cs)
  rw [Tree.node_mk, hs] at hwalk
  rw [hs] at hk
  obtain ⟨hown, hin⟩ := hwalk
  rw [Tree.children_mk] at hown hin
  have hlevel : level.below n.kind = .template := by cases kind <;> simp [Tree.Level.below, hk]
  cases hn : Tree.inField? "name" cs with
  | none =>
    rw [hn] at hown hin
    exact stepped_of_other (by rw [Decl.ofTree, hs, hn]; rfl) hown (hin level)
  | some name =>
    have hscope : (Tree.mk n cs).scope? src = templateScope kind (Name.ofNode src name) := by
      cases kind <;> simp [Tree.scope?, templateScope, hk, hn]
    rw [stepped, own_of_ne_class (by simp [hs]), hown, hin, hn, hscope, Tree.node_mk, hlevel,
      Decl.ofTree, hs, hn]
    simp only [Option.map_some, Option.elim_some]
    rw [atLevel_eq_ofDecl (by simp), ofDecl, ofDecls_body]
    simp

theorem stepped_cls (hs : Decl.Shape.ofKind n.kind = .cls) :
    atLevel level scope (Decl.ofTree src (.mk n cs)) = stepped src level scope (.mk n cs) := by
  have hk := Decl.Shape.ofKind_spec n.kind
  have hwalk := Tree.walk_spec src (.mk n cs)
  rw [Tree.node_mk, hs] at hwalk
  rw [hs] at hk
  obtain ⟨hown, hin⟩ := hwalk
  rw [Tree.children_mk] at hown hin
  have hlevel : level.below n.kind = .template := by simp [Tree.Level.below, hk]
  cases hn : Tree.inField? "name" cs with
  | none =>
    rw [hn] at hown hin
    exact stepped_of_other (by rw [Decl.ofTree, hs, hn]; rfl) hown (hin level)
  | some name =>
    rw [stepped, hin, hn, Tree.node_mk, hlevel, Decl.ofTree, hs, hn]
    simp only [Option.map_some, Option.elim_some]
    rw [atLevel_eq_ofDecl (by simp), ofDecl, ofDecls_body]
    simp [own, ofParameters, Tree.memberNames, Tree.scope?, hk, hn, ClassHead.ofChildren]

theorem stepped_member {kind : MemberKind} (hs : Decl.Shape.ofKind n.kind = .member kind) :
    atLevel level scope (Decl.ofTree src (.mk n cs)) = stepped src level scope (.mk n cs) := by
  have hwalk := Tree.walk_spec src (.mk n cs)
  rw [Tree.node_mk, hs] at hwalk
  obtain ⟨hown, hin⟩ := hwalk
  rw [Tree.children_mk] at hown
  cases hn : Tree.inField? "name" cs with
  | none =>
    rw [hn] at hown
    exact stepped_of_other (by rw [Decl.ofTree, hs, hn]; rfl) hown (hin level)
  | some name =>
    rw [stepped, own_of_ne_class (by simp [hs]), hown, hin, hn, Decl.ofTree, hs, hn]
    simp only [Option.map_some]
    rw [atLevel_eq_ofDecl (by simp), ofDecl]
    simp

/-- A value with the given patterns, whether it is defined or only declared. -/
theorem stepped_of_value {ps : List Pattern}
    (hs : Decl.Shape.ofKind (Tree.mk n cs).node.kind ≠ .cls)
    (hd : Decl.ofTree src (.mk n cs) = .value (Modifier.ofChildren src cs) ps)
    (hown : ps.flatMap Pattern.boundNames =
      ((Tree.mk n cs).ownNames src).map (Name.ofNode src))
    (hin : (Tree.mk n cs).statements level = []) :
    atLevel level scope (Decl.ofTree src (.mk n cs)) = stepped src level scope (.mk n cs) := by
  rw [stepped, own_of_ne_class hs, hd, hin, atLevel_eq_ofDecl (by simp), ofDecl, hown,
    List.flatMap_nil, List.append_nil, Tree.children_mk]

theorem stepped_definition (hs : Decl.Shape.ofKind n.kind = .definition) :
    atLevel level scope (Decl.ofTree src (.mk n cs)) = stepped src level scope (.mk n cs) := by
  have hwalk := Tree.walk_spec src (.mk n cs)
  rw [Tree.node_mk, hs] at hwalk
  refine stepped_of_value (by simp [hs]) (by rw [Decl.ofTree, hs]) ?_ (hwalk.2 level)
  rw [Tree.boundNames_ofDefinitions, hwalk.1, Tree.children_mk]

theorem stepped_declaration (hs : Decl.Shape.ofKind n.kind = .declaration) :
    atLevel level scope (Decl.ofTree src (.mk n cs)) = stepped src level scope (.mk n cs) := by
  have hwalk := Tree.walk_spec src (.mk n cs)
  rw [Tree.node_mk, hs] at hwalk
  refine stepped_of_value (by simp [hs]) (by rw [Decl.ofTree, hs]) ?_ (hwalk.2 level)
  rw [Tree.boundNames_ofDeclarations, hwalk.1, Tree.children_mk]

theorem stepped_other (hs : Decl.Shape.ofKind n.kind = .other) :
    atLevel level scope (Decl.ofTree src (.mk n cs)) = stepped src level scope (.mk n cs) := by
  have hwalk := Tree.walk_spec src (.mk n cs)
  rw [Tree.node_mk, hs] at hwalk
  exact stepped_of_other (by rw [Decl.ofTree, hs]) hwalk.1 (hwalk.2 level)

end Shapes

theorem atLevel_ofTree (src : List Char) (level : Tree.Level) (scope : Option String) (t : Tree) :
    atLevel level scope (Decl.ofTree src t) = stepped src level scope t := by
  obtain ⟨n, cs⟩ := t
  cases hs : Decl.Shape.ofKind n.kind with
  | package => exact stepped_package hs
  | template kind => exact stepped_template hs
  | cls => exact stepped_cls hs
  | member kind => exact stepped_member hs
  | definition => exact stepped_definition hs
  | declaration => exact stepped_declaration hs
  | other => exact stepped_other hs

theorem steps (src : List Char) (level : Tree.Level) (scope : Option String) (t : Tree) :
    Steps src level scope t :=
  ⟨_, _, tagged_own src (scopeAt level scope) t, atLevel_ofTree src level scope t⟩

theorem tagged_namesAt (src : List Char) (level : Tree.Level) (scope : Option String) (t : Tree) :
    Tagged ((t.namesAt src level).map (Name.ofNode src))
      (atLevel level scope (Decl.ofTree src t)) := by
  induction level, t using Tree.namesAt.induct generalizing scope with
  | case1 level t ih =>
    obtain ⟨own, inner, hown, heq⟩ := steps src level scope t
    rw [heq, Tree.namesAt_eq, List.map_append, List.map_flatMap]
    exact hown.append (.flatMap _ fun u hu => ih ⟨u, hu⟩ inner)

theorem ofTree_eq_flatMap (src : List Char) (root : Tree) :
    ofTree src root = (Tree.named root.children).flatMap fun t =>
      atLevel .package none (Decl.ofTree src t) := by
  rw [ofTree, Decl.ofSource, ofSource_eq_flatMap]
  exact flatMap_ofTrees src .package none root.children

end Tag

/-- The tags of a source are the tags of the names that its tree declares, in the order of the
walk over the tree. -/
theorem tagged_declaredNames (src : List Char) (root : Tree) :
    Tagged ((root.declaredNames src).map (Name.ofNode src)) (Tag.ofTree src root) := by
  rw [Tag.ofTree_eq_flatMap, Tree.declaredNames, List.map_flatMap]
  exact .flatMap _ fun t _ => Tag.tagged_namesAt src .package none t

end TagIndex
