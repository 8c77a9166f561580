/-!
# Notices

What a run tells about itself while it works: log events and the state of the progress bar. Whether
and how they are shown is up to who runs it, and nothing in a run depends on it.
-/

namespace TagIndex

inductive Severity where
  | debug
  | info
  | warn
deriving DecidableEq, Repr

inductive Notice where
  | log (severity : Severity) (text : String)
  /-- The progress bar stands at `tried` of `total` files. -/
  | progress (tried total : Nat)
  /-- The progress bar is taken away. -/
  | progressCleared
deriving DecidableEq, Repr

end TagIndex
