import TagIndex.FileTree.Basic

/-!
# Changes of a file tree

`write` is how a program creates or overwrites a file. The other operations set up a file tree.
-/

namespace TagIndex

namespace Entry

def assign (name : String) (e : Entry) : List (String × Entry) → List (String × Entry)
  | [] => [(name, e)]
  | (other, old) :: rest =>
    if other = name then (name, e) :: rest else (other, old) :: assign name e rest

@[simp]
theorem lookup_assign_self (name : String) (e : Entry) (entries : List (String × Entry)) :
    (assign name e entries).lookup name = some e := by
  induction entries with
  | nil => simp [assign]
  | cons p rest ih =>
    obtain ⟨other, old⟩ := p
    by_cases h : other = name
    · simp [assign, h]
    · have hne : (name == other) = false := by simpa using Ne.symm h
      simp [assign, h, List.lookup_cons, hne, ih]

theorem lookup_assign_of_ne {name other : String} (h : other ≠ name) (e : Entry)
    (entries : List (String × Entry)) :
    (assign name e entries).lookup other = entries.lookup other := by
  induction entries with
  | nil =>
    have hne : (other == name) = false := by simpa using h
    simp [assign, List.lookup_cons, hne]
  | cons p rest ih =>
    obtain ⟨first, old⟩ := p
    by_cases hf : first = name
    · have hne : (other == name) = false := by simpa using h
      simp [assign, hf, List.lookup_cons, hne]
    · simp [assign, hf, List.lookup_cons, ih]

/-- Puts `new` where some names lead to from an entry, in place of what was there. Directories that
do not exist on the way are created. -/
def put (e new : Entry) : Location → Entry
  | [] => new
  | name :: l =>
    match e with
    | .directory entries =>
      .directory (assign name (((entries.lookup name).getD (.directory [])).put new l) entries)
    | e => e

def erase (e : Entry) : Location → Entry
  | [] => e
  | [name] =>
    match e with
    | .directory entries => .directory (entries.filter (·.1 ≠ name))
    | e => e
  | name :: l =>
    match e with
    | .directory entries =>
      .directory (entries.map fun p => if p.1 = name then (name, p.2.erase l) else p)
    | e => e

end Entry

namespace FileTree

def insert (t : FileTree) (l : Location) (e : Entry) : FileTree :=
  { t with top := t.top.put e l }

def erase (t : FileTree) (l : Location) : FileTree :=
  { t with top := t.top.erase l }

/-- The last name of a path, with the names before it and whether slashes follow it. -/
def splitLast? (todo : List String) : Option (List String × String × Bool) :=
  match todo.reverse.dropWhile (· = "") with
  | [] => none
  | last :: before => some (before.reverse, last, todo.getLast? = some "")

/-- The location at which a file is written when `todo` is opened from `dir` for writing. The file
need not exist, its directory must. A link at the end is followed, even to a file that does not
exist. -/
def writeLocation (t : FileTree) (links : Nat) (dir : Location) (todo : List String) :
    Except IoFault Location :=
  match splitLast? todo with
  | none => .error .isDirectory
  | some (before, last, slashed) =>
    match _hfollow : t.follow links dir before with
    | .error e => .error e
    | .ok ⟨parent, left⟩ =>
      if !t.isDirectory parent then .error .notDirectory
      else if last = "." ∨ last = ".." ∨ slashed then .error .isDirectory
      else if maxNameBytes < last.utf8ByteSize then .error .longName
      else
        match t.entry? (parent ++ [last]) with
        | some (.directory _) => .error .isDirectory
        | some (.link target) =>
          if 0 < left then t.writeLocation (left - 1) (origin parent target) (names target)
          else .error .manyLinks
        | some (.file _) => .ok (parent ++ [last])
        | none => .ok (parent ++ [last])
termination_by links
decreasing_by
  have hle := links_le_of_follow _hfollow
  simp only at hle
  omega

def write (t : FileTree) (path : String) (bytes : ByteArray) : Except IoFault FileTree :=
  match pathFault? path with
  | some fault => .error fault
  | none => do
    let l ← t.writeLocation maxLinks (origin t.workingDirectory path) (names path)
    return t.insert l (.file bytes)

/-- Creates the directories along `todo` that do not exist yet. -/
def makeDirectoriesFrom (t : FileTree) (dir : Location) : List String → Except IoFault FileTree
  | [] => .ok t
  | name :: rest =>
    if name = "" ∨ name = "." then t.makeDirectoriesFrom dir rest
    else if name = ".." then t.makeDirectoriesFrom dir.dropLast rest
    else
      match t.entry? (dir ++ [name]) with
      | none =>
        (t.insert (dir ++ [name]) (.directory [])).makeDirectoriesFrom (dir ++ [name]) rest
      | some _ => do
        let l := (← t.follow maxLinks dir [name]).location
        if t.isDirectory l then t.makeDirectoriesFrom l rest else .error .notDirectory

def makeDirectories (t : FileTree) (path : String) : Except IoFault FileTree :=
  t.makeDirectoriesFrom (origin t.workingDirectory path) (names path)

/-- The directories along a path, without its last name. -/
def makeParents (t : FileTree) (path : String) : Except IoFault FileTree :=
  match splitLast? (names path) with
  | none => .ok t
  | some (before, _, _) => t.makeDirectoriesFrom (origin t.workingDirectory path) before

/-- The location of an entry itself: a link at the end is not followed. -/
def entryLocation (t : FileTree) (path : String) : Except IoFault Location :=
  match splitLast? (names path) with
  | none => .error .isDirectory
  | some (before, last, _) => do
    let parent ← t.follow maxLinks (origin t.workingDirectory path) before
    return parent.location ++ [last]

/-- Writes a file after creating the directories that lead to it. -/
def install (t : FileTree) (path : String) (bytes : ByteArray) : Except IoFault FileTree := do
  (← t.makeParents path).write path bytes

/-- Makes a symbolic link after creating the directories that lead to it. -/
def installLink (t : FileTree) (path target : String) : Except IoFault FileTree := do
  let t ← t.makeParents path
  return t.insert (← t.entryLocation path) (.link target)

def remove (t : FileTree) (path : String) : Except IoFault FileTree := do
  let l ← t.entryLocation path
  if (t.entry? l).isSome then .ok (t.erase l) else .error .missing

end FileTree

end TagIndex
