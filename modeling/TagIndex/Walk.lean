import TagIndex.Language
import TagIndex.Notice
import TagIndex.View

/-!
# Finding the files to index

A root that is a file stands for itself, and any other root for the files that are listed below it.
Of these the walker keeps the files whose language is known and that no exclude glob matches as they
are spelled.

`Walker.walk` takes the files of a root in the order in which they are listed, and `Walker.walkAll`
puts the files of all roots in order and leaves out those found twice.
-/

namespace TagIndex

structure Walked where
  files : List String
  failures : List Failure
  notices : List Notice

structure Walker where
  registry : Registry
  excludes : List Glob
  respectIgnore : Bool

namespace Walker

/-- Reads the exclude globs. The first malformed one is reported. -/
def make (registry : Registry) (excludes : List String) (respectIgnore : Bool) :
    Except Failure Walker := do
  let excludes ← (excludes.mapM Glob.compile).mapError Failure.exclude
  return { registry, excludes, respectIgnore }

def wants (w : Walker) (path : String) : Bool :=
  w.registry.supports path && !w.excludes.any (·.matches path)

def walk (w : Walker) (v : View) (root : String) : Walked :=
  if v.isFile root then
    if w.wants root then { files := [root], failures := [], notices := [] }
    else
      { files := [], failures := []
        notices := [.log .warn ("Skipping unsupported file " ++ root)] }
  else
    let found := v.entries w.respectIgnore root
    let faults := found.filterMap WalkFault.ofEntry?
    { files := (found.filterMap Except.toOption).filter fun path => v.isFile path && w.wants path
      failures := faults.map .walk
      notices := faults.map fun f => .log .warn f.message }

def gather (w : Walker) (v : View) (roots : List String) : Walked :=
  { files := roots.flatMap fun root => (w.walk v root).files
    failures := roots.flatMap fun root => (w.walk v root).failures
    notices := roots.flatMap fun root => (w.walk v root).notices }

/-- Leaves out each path that names the same place as the one before it. -/
def dropRepeats : List String → List String
  | [] => []
  | p :: ps => p :: dropRepeats (ps.dropWhile (Path.same p))
termination_by ps => ps.length
decreasing_by
  have := (List.dropWhile_sublist (Path.same p) (l := ps)).length_le
  simp only [List.length_cons]; omega

theorem dropRepeats_sublist (ps : List String) : (dropRepeats ps).Sublist ps := by
  induction ps using dropRepeats.induct with
  | case1 => simp [dropRepeats]
  | case2 p ps ih =>
    rw [dropRepeats]
    exact (ih.trans (List.dropWhile_sublist _)).cons_cons p

/-- The files in the order of paths, each of them once and as it was spelled first. -/
def arrange (w : Walked) : Walked :=
  { w with files := dropRepeats (w.files.mergeSort Path.le) }

def walkAll (w : Walker) (v : View) (roots : List String) : Walked :=
  arrange (w.gather v roots)

end Walker

end TagIndex
