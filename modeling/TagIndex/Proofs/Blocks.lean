import Mathlib.Data.List.Basic
import TagIndex.Proofs.Selection

/-!
# The tags of a declared name depend on where its declaration stands

The walk from declarations to tags passes only a scope down. Here each declaration is taken with
its whole path, all the packages and templates around it, and its tags are read off the path.

- `Decl.sitesAll`: the declarations of a forest in preorder, each with its path.
- `Enclosure.scope`: the owner of the nearest template on a path. Templates further out do not
  count.
- `Enclosure.isOpen`: no package on the path stands below a template.
- `Declared.block`: the one or two tags of a declared name in a scope.
- `ofSource_eq_blocks`: the tags of a source are the blocks of its sites. In every surrounding, a
  package can be replaced by its body if there are only packages around it, and else by nothing.
-/

namespace TagIndex

/-- What stands directly around a declaration. -/
inductive Enclosure where
  | package
  | template (kind : TemplateKind) (name : Name) (modifiers : List Modifier)
  | cls (head : ClassHead)
deriving DecidableEq, Repr

namespace Enclosure

/-- The declaration that has the given body. -/
def around : Enclosure → List Decl → Decl
  | package, body => .package body
  | template kind name mods, body => .template kind name mods body
  | cls head, body => .cls head body

def isPackage : Enclosure → Bool
  | package => true
  | _ => false

/-- The name through which members can be reached. Only objects have members of this kind. -/
def owner? : Enclosure → Option String
  | template .object name _ => some name.value
  | template .packageObject name _ => some name.value
  | template .trait _ _ => none
  | cls _ => none
  | package => none

/-- The scope at the end of a path. Paths start at the nearest enclosure. -/
def scope (path : List Enclosure) : Option String :=
  (path.find? (!·.isPackage)).bind owner?

/-- Whether all packages on a path have only packages around them. -/
def isOpen : List Enclosure → Bool
  | [] => true
  | package :: path => path.all isPackage
  | _ :: path => isOpen path

theorem isOpen_of_all_isPackage {path : List Enclosure} (h : path.all isPackage = true) :
    isOpen path = true := by
  cases path with
  | nil => rfl
  | cons e path =>
    rw [List.all_cons, Bool.and_eq_true] at h
    cases e with
    | package => exact h.2
    | template => cases h.1
    | cls => cases h.1

theorem scope_of_all_isPackage {path : List Enclosure} (h : path.all isPackage = true) :
    scope path = none := by
  have hnone : path.find? (!·.isPackage) = none := by simpa using h
  rw [scope, hnone, Option.bind_none]

end Enclosure

/-! ### Declared names -/

/-- A name that a declaration declares itself: a member of what is around it, or a constructor
parameter. -/
inductive Declared where
  | member (name : Name) (modifiers : List Modifier)
  | param (name : Name) (isLocal : Bool)
deriving DecidableEq, Repr

/-- The tags of a declared name in a scope. -/
def Declared.block (scope : Option String) : Declared → List Tag
  | param name isLocal =>
    [{ qualifier := none, name := name.value, isLocal, position := name.position }]
  | member name mods =>
    let isLocal := isFileLocal scope mods
    match scope with
    | none => [{ qualifier := none, name := name.value, isLocal, position := name.position }]
    | some s =>
      [{ qualifier := some s, name := name.value, isLocal, position := name.position },
        { qualifier := none, name := name.value, isLocal, position := name.position }]

def ClassHead.isLocalParam (c : ClassHead) (i : Nat) (p : Param) : Bool :=
  if i = 0 then Tag.isLocalFirst c p else isFileLocalParam p.modifiers

def ClassHead.parameters (c : ClassHead) : List Declared :=
  c.paramGroups.zipIdx.flatMap fun (group, i) =>
    group.map fun p => .param p.name (c.isLocalParam i p)

def Decl.declared : Decl → List Declared
  | package _ => []
  | template _ name mods _ => [.member name mods]
  | cls head _ => .member head.name head.modifiers :: head.parameters
  | member _ name mods => [.member name mods]
  | value mods patterns => (patterns.flatMap Pattern.boundNames).map (.member · mods)
  | other => []

theorem Declared.block_member (scope : Option String) (name : Name) (mods : List Modifier) :
    (member name mods).block scope = Tag.ofMember scope name mods := by
  cases scope <;> rfl

theorem Declared.flatMap_block_params (scope : Option String) (isLocal : Param → Bool)
    (ps : List Param) :
    (ps.map fun p => param p.name (isLocal p)).flatMap (block scope) =
      ps.map fun p => Tag.ofParam (isLocal p) p := by
  rw [List.flatMap_map, List.map_eq_flatMap]
  rfl

theorem ClassHead.flatMap_block_parameters (scope : Option String) (c : ClassHead) :
    c.parameters.flatMap (Declared.block scope) = Tag.ofConstructor c := by
  simp only [parameters, Tag.ofConstructor, List.flatMap_assoc, Declared.flatMap_block_params]
  cases c.paramGroups with
  | nil => rfl
  | cons first later =>
    rw [List.zipIdx_cons, List.flatMap_cons]
    have hlater : ∀ x ∈ later.zipIdx 1, x.1.map (fun p => Tag.ofParam (c.isLocalParam x.2 p) p) =
        x.1.map fun p => Tag.ofParam (isFileLocalParam p.modifiers) p := by
      intro x hx
      have hpos : 1 ≤ x.2 := List.le_snd_of_mem_zipIdx hx
      simp only [isLocalParam, if_neg (Nat.ne_of_gt hpos)]
    rw [List.flatMap_congr hlater, ← List.flatMap_map Prod.fst, List.zipIdx_map_fst,
      List.flatMap_def, ← List.map_flatten]
    rfl

/-! ### Sites -/

structure Site where
  path : List Enclosure
  decl : Decl

def Site.tags (s : Site) : List Tag :=
  if Enclosure.isOpen s.path then s.decl.declared.flatMap (·.block (Enclosure.scope s.path)) else []

namespace Decl

mutual

/-- A declaration and those inside it, in preorder. -/
def sites (path : List Enclosure) : Decl → List Site
  | package body => ⟨path, .package body⟩ :: sitesAll (.package :: path) body
  | template kind name mods body =>
    ⟨path, .template kind name mods body⟩ :: sitesAll (.template kind name mods :: path) body
  | cls head body => ⟨path, .cls head body⟩ :: sitesAll (.cls head :: path) body
  | member kind name mods => [⟨path, .member kind name mods⟩]
  | value mods patterns => [⟨path, .value mods patterns⟩]
  | other => [⟨path, .other⟩]

def sitesAll (path : List Enclosure) : List Decl → List Site
  | [] => []
  | d :: ds => d.sites path ++ sitesAll path ds

end

end Decl

/-- The tags of a declaration at the end of a path, as the walk finds them. -/
def Tag.under (path : List Enclosure) (d : Decl) : List Tag :=
  if path.all Enclosure.isPackage then ofTopLevel d
  else if Enclosure.isOpen path then ofDecl (Enclosure.scope path) d
  else []

namespace Tag

/-- Away from packages the walk does not ask whether there is a template around. -/
theorem under_eq_ofDecl {path : List Enclosure} {d : Decl} (hd : ∀ body, d ≠ .package body) :
    under path d = if Enclosure.isOpen path then ofDecl (Enclosure.scope path) d else [] := by
  unfold under
  split
  next hall =>
    rw [if_pos (Enclosure.isOpen_of_all_isPackage hall), Enclosure.scope_of_all_isPackage hall]
    exact @atLevel_eq_ofDecl .package none d hd
  next => rfl

theorem under_package (path : List Enclosure) (body : List Decl) :
    under path (.package body) =
      (if path.all Enclosure.isPackage then body else []).flatMap (under path) := by
  split
  next hall =>
    have hunder : under path = ofTopLevel := by
      funext d
      rw [under, if_pos hall]
    rw [hunder, ofTopLevel, ofSource_eq_flatMap]
  next hall =>
    rw [under, if_neg hall, ofDecl]
    simp

/-- Inside a package the walk goes on as before if it opens the package at all. -/
theorem flatMap_under_cons_package (path : List Enclosure) (body : List Decl) :
    body.flatMap (under (.package :: path)) =
      (if path.all Enclosure.isPackage then body else []).flatMap (under path) := by
  split
  next hall =>
    refine List.flatMap_congr fun d _ => ?_
    simp [under, Enclosure.isPackage, hall]
  next hall =>
    simp [under, Enclosure.isPackage, Enclosure.isOpen, hall]

/-- Below a template the walk stays inside templates. -/
theorem under_template {e : Enclosure} (he : e.isPackage = false) (path : List Enclosure) :
    under (e :: path) = fun d => if Enclosure.isOpen path then ofDecl e.owner? d else [] := by
  funext d
  cases e with
  | package => cases he
  | template kind name mods => simp [under, Enclosure.isPackage, Enclosure.isOpen, Enclosure.scope]
  | cls head => simp [under, Enclosure.isPackage, Enclosure.isOpen, Enclosure.scope]

/-- One step of the walk: the tags of the names that a declaration declares itself, then those
of its body one enclosure further in. -/
theorem under_around (path : List Enclosure) (e : Enclosure) (body : List Decl) :
    under path (e.around body) =
      Site.tags ⟨path, e.around body⟩ ++ body.flatMap (under (e :: path)) := by
  cases e with
  | package =>
    rw [flatMap_under_cons_package, ← under_package]
    simp [Enclosure.around, Site.tags, Decl.declared]
  | template kind name mods =>
    rw [under_eq_ofDecl (by simp [Enclosure.around]), under_template rfl]
    cases hopen : Enclosure.isOpen path with
    | false => simp [Site.tags, hopen]
    | true =>
      simp only [Enclosure.around, Site.tags, hopen, if_true, ofDecl, Decl.declared,
        ofDecls_eq_flatMap, Declared.block_member, List.flatMap_singleton]
      cases kind <;> rfl
  | cls head =>
    rw [under_eq_ofDecl (by simp [Enclosure.around]), under_template rfl]
    cases hopen : Enclosure.isOpen path with
    | false => simp [Site.tags, hopen]
    | true =>
      simp only [Enclosure.around, Site.tags, hopen, if_true, ofDecl, Decl.declared,
        ofDecls_eq_flatMap, List.flatMap_cons, Declared.block_member,
        ClassHead.flatMap_block_parameters]
      rfl

mutual

theorem flatMap_tags_sites (path : List Enclosure) :
    (d : Decl) → (d.sites path).flatMap Site.tags = under path d
  | .package body => by
    rw [Decl.sites, List.flatMap_cons, flatMap_tags_sitesAll]
    exact (under_around path .package body).symm
  | .template kind name mods body => by
    rw [Decl.sites, List.flatMap_cons, flatMap_tags_sitesAll]
    exact (under_around path (.template kind name mods) body).symm
  | .cls head body => by
    rw [Decl.sites, List.flatMap_cons, flatMap_tags_sitesAll]
    exact (under_around path (.cls head) body).symm
  | .member kind name mods => by
    rw [under_eq_ofDecl (by simp)]
    simp [Decl.sites, Site.tags, Decl.declared, ofDecl, Declared.block_member]
  | .value mods patterns => by
    rw [under_eq_ofDecl (by simp)]
    simp [Decl.sites, Site.tags, Decl.declared, ofDecl, Declared.block_member, List.flatMap_map]
  | .other => by
    rw [under_eq_ofDecl (by simp)]
    simp [Decl.sites, Site.tags, Decl.declared, ofDecl]

theorem flatMap_tags_sitesAll (path : List Enclosure) :
    (ds : List Decl) → (Decl.sitesAll path ds).flatMap Site.tags = ds.flatMap (under path)
  | [] => rfl
  | d :: ds => by
    rw [Decl.sitesAll, List.flatMap_append, flatMap_tags_sites, flatMap_tags_sitesAll,
      List.flatMap_cons]

end

end Tag

/-! ### Surroundings -/

/-- One enclosure with the declarations beside it. -/
structure Frame where
  before : List Decl
  enclosure : Enclosure
  after : List Decl

namespace Frame

/-- Puts declarations into frames, the innermost frame first. -/
def plug : List Frame → List Decl → List Decl
  | [], ds => ds
  | f :: fs, ds => plug fs (f.before ++ f.enclosure.around ds :: f.after)

/-- The tags of a source do not tell declarations apart that have the same tags at their place. -/
theorem ofSource_plug_congr (fs : List Frame) {ds es : List Decl}
    (h : ds.flatMap (Tag.under (fs.map enclosure)) = es.flatMap (Tag.under (fs.map enclosure))) :
    Tag.ofSource (plug fs ds) = Tag.ofSource (plug fs es) := by
  induction fs generalizing ds es with
  | nil => rw [plug, plug, Tag.ofSource_eq_flatMap, Tag.ofSource_eq_flatMap]; exact h
  | cons f fs ih =>
    rw [plug, plug]
    apply ih
    rw [List.map_cons] at h
    simp only [List.flatMap_append, List.flatMap_cons, Tag.under_around, h]
    -- the two sites differ in their bodies only, which do not declare names themselves
    cases f.enclosure <;> rfl

end Frame

/-- The tags of a source are the blocks of its declared names, in preorder of the declarations.
A package with only packages around it stands for its body, and one below a template for nothing,
wherever in a source it is. -/
theorem ofSource_eq_blocks :
    (∀ ds, Tag.ofSource ds = (Decl.sitesAll [] ds).flatMap Site.tags) ∧
    ∀ fs before body after,
      Tag.ofSource (Frame.plug fs (before ++ .package body :: after)) =
        Tag.ofSource (Frame.plug fs
          (before ++ (if fs.all (·.enclosure.isPackage) then body else []) ++ after)) := by
  constructor
  · intro ds
    rw [Tag.flatMap_tags_sitesAll, Tag.ofSource_eq_flatMap]
    rfl
  · intro fs before body after
    apply Frame.ofSource_plug_congr
    have hall : (fs.map Frame.enclosure).all Enclosure.isPackage =
        fs.all (·.enclosure.isPackage) := List.all_map
    rw [List.append_assoc, List.flatMap_append, List.flatMap_append, List.flatMap_append,
      List.flatMap_cons, Tag.under_package, hall]

end TagIndex
