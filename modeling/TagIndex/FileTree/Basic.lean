import TagIndex.IoFault
import TagIndex.Path

/-!
# File trees

The state of a file system: directories with entries, files and symbolic links. A location is the
list of names that leads to an entry from the top. A path is resolved from the top or from the
working directory, following symbolic links; `resolve` gives the location that a path means.
-/

namespace TagIndex

/-- The names from the top of a file tree down to an entry. -/
abbrev Location := List String

inductive Entry where
  | file (bytes : ByteArray)
  /-- A directory lists every name once. -/
  | directory (entries : List (String × Entry))
  /-- A symbolic link; a relative target starts from the directory of the link. -/
  | link (target : String)

namespace Entry

instance : Inhabited Entry := ⟨.directory []⟩

def isDirectory : Entry → Bool
  | .directory _ => true
  | _ => false

def at? (e : Entry) : Location → Option Entry
  | [] => some e
  | name :: l =>
    match e with
    | .directory entries => (entries.lookup name).bind (·.at? l)
    | _ => none

mutual

/-- The files below an entry that is at `l`, each with its location. -/
def files (l : Location) : Entry → List (Location × ByteArray)
  | .file bytes => [(l, bytes)]
  | .directory entries => filesIn l entries
  | .link _ => []

def filesIn (l : Location) : List (String × Entry) → List (Location × ByteArray)
  | [] => []
  | (name, e) :: rest => e.files (l ++ [name]) ++ filesIn l rest

end

end Entry

structure FileTree where
  top : Entry
  workingDirectory : Location

namespace FileTree

def empty : FileTree :=
  { top := .directory [], workingDirectory := [] }

def entry? (t : FileTree) (l : Location) : Option Entry :=
  t.top.at? l

def isDirectory (t : FileTree) (l : Location) : Bool :=
  (t.entry? l).any Entry.isDirectory

/-- The directories above a location, the nearest first. -/
def above (l : Location) : List Location :=
  (List.range l.length).reverse.map l.take

def absolutePath (l : Location) : String :=
  "/" ++ String.intercalate "/" l

def names (path : String) : List String :=
  (Path.pieces path).map String.ofList

/-- Where the resolution of a path starts, if relative paths start from `dir`. -/
def origin (dir : Location) (path : String) : Location :=
  if Path.isAbsolute path then [] else dir

/-- At most this many links are followed on the way to one entry. -/
def maxLinks : Nat := 40

def maxNameBytes : Nat := 255

/-- The most bytes that a path may have. The targets of links do not count. -/
def maxPathBytes : Nat := 4095

/-- Where a path leads, and how many more links can be followed from there. -/
structure Arrival where
  location : Location
  links : Nat
deriving DecidableEq, Repr

/-- Goes from the directory `dir` along `todo`, following at most `links` links. A file can only be
what the last name means: even an empty name or a dot after it asks for a directory. -/
def follow (t : FileTree) (links : Nat) (dir : Location) (todo : List String) :
    Except IoFault Arrival :=
  match todo with
  | [] => .ok ⟨dir, links⟩
  | name :: rest =>
    if name = "" ∨ name = "." then t.follow links dir rest
    else if name = ".." then t.follow links dir.dropLast rest
    else if maxNameBytes < name.utf8ByteSize then .error .longName
    else
      match t.entry? (dir ++ [name]), links with
      | none, _ => .error .missing
      | some (.file _), _ =>
        if rest.isEmpty then .ok ⟨dir ++ [name], links⟩ else .error .notDirectory
      | some (.directory _), links => t.follow links (dir ++ [name]) rest
      | some (.link _), 0 => .error .manyLinks
      | some (.link target), links + 1 =>
        t.follow links (origin dir target) (names target ++ rest)
termination_by (links, todo.length)

theorem links_le_of_follow {t : FileTree} {links : Nat} {dir : Location} {todo : List String}
    {a : Arrival} (h : t.follow links dir todo = .ok a) : a.links ≤ links := by
  fun_induction follow t links dir todo with
  | case1 | case6 => cases h; exact Nat.le_refl _
  | case2 _ _ _ _ _ ih => exact ih h
  | case3 _ _ _ _ ih => exact ih h
  | case8 _ _ _ _ _ _ _ _ _ ih => exact ih h
  | case10 _ _ _ _ _ _ _ _ _ ih => exact Nat.le_succ_of_le (ih h)
  | case4 | case5 | case7 | case9 => cases h

/-- Why a path leads nowhere, whatever the file tree. -/
def pathFault? (path : String) : Option IoFault :=
  if path.toList.contains '\x00' then some .nullCharacter
  else if path.isEmpty then some .missing
  else if maxPathBytes < path.utf8ByteSize then some .longName
  else none

def resolve (t : FileTree) (path : String) : Except IoFault Location :=
  match pathFault? path with
  | some fault => .error fault
  | none => (t.follow maxLinks (origin t.workingDirectory path) (names path)).map (·.location)

def bytesAt (t : FileTree) (l : Location) : Except IoFault ByteArray :=
  match t.entry? l with
  | some (.file bytes) => .ok bytes
  | some (.directory _) => .error .isDirectory
  | _ => .error .missing

def readBytes (t : FileTree) (path : String) : Except IoFault ByteArray := do
  t.bytesAt (← t.resolve path)

def readText (t : FileTree) (path : String) : Except IoFault String := do
  match String.fromUTF8? (← t.readBytes path) with
  | some text => .ok text
  | none => .error .notText

end FileTree

end TagIndex
