import TagIndex.FileTree.Basic
import TagIndex.Ignore.Rule

/-!
# The rules of a directory

A directory can bring rules of three kinds: those in its `.ignore` file, those in its `.gitignore`
file and, if it is the top of a repository, those in the exclude file of the repository. A
repository of either of two version control systems counts, `.git` or `.jj`, but only the first has
an exclude file.
-/

namespace TagIndex.Ignore

inductive Source where
  | ignoreFile
  | repositoryFile
  | repositoryExclude
deriving DecidableEq, Repr

/-- The strongest first. -/
def Source.all : List Source :=
  [ignoreFile, repositoryFile, repositoryExclude]

def firstLine? (bytes : ByteArray) : Option (List Char) :=
  (Rule.textLines bytes.data.toList).head?

/-- The directory of a linked working tree, from the `.git` file at its top: its first line names
that directory. -/
def linkedDirectory? (gitFile : ByteArray) : Option String := do
  return String.ofList (← Text.stripStart? "gitdir: ".toList (← firstLine? gitFile))

/-- The directory that a linked working tree shares with the others of its repository, from the
first line of its `commondir` file. That leads on from the linked directory if it starts with a
dot, and from the working directory if not. -/
def commonDirectory? (linked : String) (commondir : ByteArray) : Option String := do
  let line ← firstLine? commondir
  return Path.join (if line.head? = some '.' then linked else "") (String.ofList line)

/-- The directory in which the repository with its top at `dir` keeps what its working trees
share. -/
def sharedDirectory? (t : FileTree) (dir : String) : Option String :=
  match t.readBytes (Path.join dir ".git") with
  | .error _ => some (Path.join dir ".git")
  | .ok gitFile => do
    let linked ← linkedDirectory? gitFile
    commonDirectory? linked (← (t.readBytes (Path.join linked "commondir")).toOption)

def Source.file? (t : FileTree) (dir : String) : Source → Option String
  | ignoreFile => some (Path.join dir ".ignore")
  | repositoryFile => some (Path.join dir ".gitignore")
  | repositoryExclude => (sharedDirectory? t dir).map (Path.join · "info/exclude")

/-- The rules of a kind for a directory. A file that cannot be read has none. -/
def Source.read (t : FileTree) (dir : String) (s : Source) : List Rule :=
  match (s.file? t dir).map t.readBytes with
  | some (.ok bytes) => Rule.ofFile bytes.data.toList
  | _ => []

structure Scope where
  /-- How the directory is spelled. -/
  path : String
  isRepositoryTop : Bool
  ignoreFile : List Rule
  repositoryFile : List Rule
  repositoryExclude : List Rule

namespace Scope

def rules (scope : Scope) : Source → List Rule
  | .ignoreFile => scope.ignoreFile
  | .repositoryFile => scope.repositoryFile
  | .repositoryExclude => scope.repositoryExclude

def read (t : FileTree) (dir : String) : Scope :=
  { path := dir
    isRepositoryTop := [".git", ".jj"].any fun name => (t.resolve (Path.join dir name)).isOk
    ignoreFile := Source.ignoreFile.read t dir
    repositoryFile := Source.repositoryFile.read t dir
    repositoryExclude := Source.repositoryExclude.read t dir }

end Scope

/-- A path without a dot segment at its beginning. -/
def dropHere (path : List Char) : List Char :=
  Text.dropStart "./".toList path

/-- The path of an entry below a directory as the rules of the directory see it. Paths are compared
by their spelling, each without one dot segment at the beginning. A path that is not spelled like
the directory stays whole, and so does every path if the directory is spelled as a dot. -/
def relativePath (dir path : String) : List Char :=
  let dir := dropHere dir.toList
  let path := dropHere path.toList
  if Path.same (String.ofList dir) "." || !path.contains '/' then path
  else
    match Text.stripStart? dir path with
    | some below => Text.dropStart ['/'] below
    | none => path

def Scope.judge (scope : Scope) (s : Source) (isDirectory : Bool) (path : String) :
    Option Verdict :=
  match scope.rules s with
  | [] => none
  | rules => Rule.judge rules isDirectory (Text.utf8 (relativePath scope.path path))

end TagIndex.Ignore
