import TagIndex.Failure
import TagIndex.FileTree.Basic
import TagIndex.Ignore.Visible

/-!
# What a run sees of the file system

A run asks whether a path is a file, what there is below a directory, what a file holds, and whether
a file may be created. A `View` holds the answers. They can be any: a file that may not be read, a
directory that may not be entered, entries in whatever order and with whatever faults among them.

`FileTree.view` gives the answers for a file tree that may be read and written everywhere. Which
entries it lists is told by the ignore files in the tree and by nothing outside of it, such as an
ignore file of the user.
-/

namespace TagIndex

structure View where
  isFile : String → Bool
  /-- What is listed below a root, and the faults that are met there. The flag says whether ignore
  files and hidden names count. -/
  entries : Bool → String → List (Except WalkFault String)
  read : String → Except IoFault String
  /-- Why the file at a path may not be created or replaced, even if its directory exists. -/
  forbids : String → Option IoFault

def WalkFault.ofEntry? : Except WalkFault String → Option WalkFault
  | .error fault => some fault
  | .ok _ => none

namespace FileTree

def isFile (t : FileTree) (path : String) : Bool :=
  (t.readBytes path).isOk

mutual

/-- The entry `e`, which is spelled `path`, and all that is below it. Links to directories are not
entered. -/
def explore (t : FileTree) (respectIgnore : Bool) (trail : Ignore.Trail) (path : String)
    (e : Entry) : List (Except WalkFault String) :=
  match e with
  | .directory entries =>
    match t.resolve path with
    | .error f => [.ok path, .error (.io path f)]
    | .ok _ => .ok path :: t.exploreAll respectIgnore (trail.enter t path) path entries
  | _ => [.ok path]

/-- The entries of the directory `dir` that are visible there, and all that is below them. -/
def exploreAll (t : FileTree) (respectIgnore : Bool) (trail : Ignore.Trail) (dir : String)
    (entries : List (String × Entry)) : List (Except WalkFault String) :=
  match entries with
  | [] => []
  | (name, e) :: rest =>
    let path := Path.join dir name
    let here :=
      if respectIgnore && !trail.shows name path e.isDirectory then []
      else t.explore respectIgnore trail path e
    here ++ t.exploreAll respectIgnore trail dir rest

end

/-- All that is listed below a root. A dash is the standard input. -/
def entries (t : FileTree) (respectIgnore : Bool) (root : String) :
    List (Except WalkFault String) :=
  if Path.same root "-" then [.ok "<stdin>"]
  else
    match t.resolve root with
    | .error f => [.error (.io root f)]
    | .ok l => t.explore respectIgnore (.start t root l) root ((t.entry? l).getD default)

def view (t : FileTree) : View :=
  { isFile := t.isFile, entries := t.entries, read := t.readText, forbids := fun _ => none }

end FileTree

end TagIndex
