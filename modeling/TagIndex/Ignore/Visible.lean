import TagIndex.Ignore.Scope

/-!
# Which entries a walk sees

The rules that count for an entry stand in its directory and in all directories above it, those
above the root of the walk included. Rules of `.ignore` files come first; those of a repository, in
`.gitignore` and in the exclude file, are asked only inside a repository and no higher than its top.
Within a kind the nearest directory with a rule for the entry decides. An entry that no rule speaks
about is visible unless its name starts with a dot.
-/

namespace TagIndex.Ignore

/-- The directories on the way of a walk. -/
structure Trail where
  /-- How the root of the walk is spelled. -/
  root : String
  /-- The root from the top of the file tree. -/
  base : String
  /-- From the root to where the walk has come, the nearest first and spelled as the root is. -/
  entered : List Scope
  /-- Above the root, the nearest first and from the top of the file tree. -/
  above : List Scope

namespace Trail

/-- A walk before it enters its root, which is at `base`. -/
def start (t : FileTree) (root : String) (base : Location) : Trail :=
  { root
    base := FileTree.absolutePath base
    entered := []
    above := (FileTree.above base).map fun l => .read t (FileTree.absolutePath l) }

def enter (t : FileTree) (dir : String) (trail : Trail) : Trail :=
  { trail with entered := .read t dir :: trail.entered }

/-- The path of an entry from the top of the file tree. A root that is spelled as a dot does not
show in the paths below it. -/
def absolutePath (trail : Trail) (path : String) : String :=
  let path := dropHere path.toList
  let below :=
    if Path.same trail.root "." then path
    else Text.dropStart ['/'] (Text.dropStart (dropHere trail.root.toList) path)
  Path.join trail.base (String.ofList below)

/-- The directories whose rules may count for an entry, each with the path of the entry. -/
def views (trail : Trail) (path : String) : List (Scope × String) :=
  let below := String.ofList (dropHere path.toList)
  trail.entered.map (·, below) ++ trail.above.map (·, trail.absolutePath path)

end Trail

/-- The directories from the nearest up to the top of its repository, none outside repositories. -/
def inRepository (views : List (Scope × String)) : List (Scope × String) :=
  let isTop (v : Scope × String) := v.1.isRepositoryTop
  match views.find? isTop with
  | some top => views.takeWhile (!isTop ·) ++ [top]
  | none => []

/-- The directories whose rules of a kind count. -/
def Source.select (s : Source) (views : List (Scope × String)) : List (Scope × String) :=
  if s = .ignoreFile then views else inRepository views

def judge (views : List (Scope × String)) (isDirectory : Bool) : Option Verdict :=
  Source.all.findSome? fun s =>
    (s.select views).findSome? fun v => v.1.judge s isDirectory v.2

def isHidden (name : String) : Bool :=
  name.toList.head? = some '.'

/-- Whether a walk sees the entry `name` in the directory it has come to. -/
def Trail.shows (trail : Trail) (name path : String) (isDirectory : Bool) : Bool :=
  match judge (trail.views path) isDirectory with
  | some .ignore => false
  | some .keep => true
  | none => !isHidden name

end TagIndex.Ignore
