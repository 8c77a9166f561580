import TagIndex.Proofs.Selection

/-!
# The declarations of a source and what they stand in

The walk over a tree meets each declaration inside another one, or outside all of them. All tags of
a source come from these meetings, one after another, and what a meeting contributes depends on the
two declarations alone.

- `Visit`: a declaration and the template or class whose body it stands in.
- `Tree.visits`: those of a source, in the order of the walk.
- `Tag.ofTree_eq_visits`: the tags of a source are those of its visits.
-/

namespace TagIndex

/-- A node that the walk comes to. -/
structure Visit where
  /-- The innermost declaration, packages apart, in whose body the node stands. -/
  owner : Option Tree
  tree : Tree

namespace Tree

def Level.inside : Option Tree → Level
  | none => .package
  | some _ => .template

/-- The owner of what stands in the body of a node. -/
def ownerInside (owner : Option Tree) (t : Tree) : Option Tree :=
  if t.node.kind = "package_clause" then owner else some t

def visitsFrom (owner : Option Tree) (t : Tree) : List Visit :=
  ⟨owner, t⟩ :: (t.statements (.inside owner)).attach.flatMap fun u =>
    visitsFrom (t.ownerInside owner) u.1
termination_by t
decreasing_by exact sizeOf_lt_of_mem_statements u.2

theorem visitsFrom_eq (owner : Option Tree) (t : Tree) :
    t.visitsFrom owner =
      ⟨owner, t⟩ :: (t.statements (.inside owner)).flatMap (visitsFrom (t.ownerInside owner)) := by
  rw [visitsFrom]
  simp

def visits (root : Tree) : List Visit :=
  (named root.children).flatMap (visitsFrom none)

theorem Level.below_inside (owner : Option Tree) (t : Tree) :
    (Level.inside owner).below t.node.kind = .inside (t.ownerInside owner) := by
  unfold below ownerInside
  split <;> rfl

/-- A package makes no scope, and there is none around it. -/
theorem scope?_ownerInside {src : List Char} {owner : Option Tree} {t u : Tree}
    (hu : u ∈ t.statements (.inside owner)) :
    (t.ownerInside owner).bind (scope? src) = t.scope? src := by
  by_cases hk : t.node.kind = "package_clause"
  · cases owner with
    | none => simp [ownerInside, scope?, hk]
    | some o => simp [statements, Level.inside, hk] at hu
  · simp [ownerInside, hk]

end Tree

namespace Visit

def scope (src : List Char) (v : Visit) : Option String :=
  v.owner.bind (Tree.scope? src)

def modifiers (src : List Char) (v : Visit) : List Modifier :=
  Modifier.ofChildren src v.tree.children

/-- The tags of the names that the node gives to what is around it. -/
def memberTags (src : List Char) (v : Visit) : List Tag :=
  (v.tree.memberNames src).flatMap fun n =>
    Tag.ofMember (v.scope src) (Name.ofNode src n) (v.modifiers src)

def tags (src : List Char) (v : Visit) : List Tag :=
  v.memberTags src ++ Tag.ofParameters src v.tree

end Visit

namespace Tag

theorem scopeAt_inside (src : List Char) (owner : Option Tree) :
    scopeAt (.inside owner) (owner.bind (Tree.scope? src)) = owner.bind (Tree.scope? src) := by
  cases owner <;> rfl

theorem atLevel_eq_visits (src : List Char) (owner : Option Tree) (t : Tree) :
    atLevel (.inside owner) (owner.bind (Tree.scope? src)) (Decl.ofTree src t) =
      (t.visitsFrom owner).flatMap (Visit.tags src) := by
  induction owner, t using Tree.visitsFrom.induct with
  | case1 owner t ih =>
    rw [atLevel_ofTree, stepped, scopeAt_inside, Tree.visitsFrom_eq, List.flatMap_cons,
      List.flatMap_assoc, Tree.Level.below_inside]
    refine congrArg₂ (· ++ ·) rfl (List.flatMap_congr fun u hu => ?_)
    rw [← Tree.scope?_ownerInside hu, ih ⟨u, hu⟩]

/-- The tags of a source are those of its visits, in the order of the walk. -/
theorem ofTree_eq_visits (src : List Char) (root : Tree) :
    ofTree src root = root.visits.flatMap (Visit.tags src) := by
  rw [ofTree_eq_flatMap, Tree.visits, List.flatMap_assoc]
  exact List.flatMap_congr fun t _ => atLevel_eq_visits src none t

theorem ofTree_eq_append {src : List Char} {root : Tree} {before after : List Visit} {v : Visit}
    (h : root.visits = before ++ v :: after) :
    ofTree src root =
      before.flatMap (Visit.tags src) ++ v.tags src ++ after.flatMap (Visit.tags src) := by
  rw [ofTree_eq_visits, h, List.flatMap_append, List.flatMap_cons, List.append_assoc]

end Tag

end TagIndex
