import TagIndex.Glob
import TagIndex.IoFault
import TagIndex.Tree.Diagnostic

/-!
# Failures

All that can go wrong in a run, and how it is told to the user. A failure that concerns a single
file or path leaves the rest of the run alone; any other ends it.
-/

namespace TagIndex

/-- What is wrong with a path that was met on a walk. -/
inductive WalkFault where
  /-- The path cannot be entered. -/
  | io (path : String) (fault : IoFault)
  | other (message : String)
deriving DecidableEq, Repr

def WalkFault.message : WalkFault → String
  | io path fault => path ++ ": IO error for operation on " ++ path ++ ": " ++ fault.message
  | other message => message

inductive Failure where
  | io (fault : IoFault)
  /-- A file could not be read. -/
  | read (path : String) (fault : IoFault)
  /-- A file has syntax errors. -/
  | parse (path : String) (diagnostic : Diagnostic)
  | unsupported (path : String)
  /-- The parser could not be run. -/
  | grammar (message : String)
  | walk (fault : WalkFault)
  /-- An exclude glob is malformed. -/
  | exclude (fault : Glob.Fault)
  /-- Output failed inside a JSON record. -/
  | json (fault : IoFault)
deriving DecidableEq, Repr

namespace Failure

def message : Failure → String
  | io fault => "IO error: " ++ fault.message
  | read path fault => path ++ ": " ++ fault.message
  | parse path diagnostic => path ++ ":" ++ diagnostic.text
  | unsupported path => "Language not supported: " ++ path
  | grammar message => "Grammar error: " ++ message
  | walk fault => "Walk error: " ++ fault.message
  | exclude fault => "Invalid exclude pattern: " ++ fault.message
  | json fault => "JSON error: " ++ fault.message

/-- Whether the failure concerns a single file or path. -/
def isPerFile : Failure → Bool
  | read _ _ | parse _ _ | unsupported _ | walk _ => true
  | io _ | grammar _ | exclude _ | json _ => false

/-- The fault behind a failure that ends a run, where there is one to tell. -/
def cause? : Failure → Option String
  | io fault => some fault.message
  | exclude fault => some fault.message
  | _ => none

end Failure

end TagIndex
