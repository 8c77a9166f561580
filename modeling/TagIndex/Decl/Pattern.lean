import TagIndex.Decl.Name

/-!
# Patterns

The left-hand side of a value definition, as far as it binds names.
-/

namespace TagIndex

inductive Pattern where
  /-- A name that the pattern binds. -/
  | var (name : Name)
  | typed (inner : Pattern)
  | tuple (items : List Pattern)
  /-- An operator between two patterns, such as `head :: tail`. -/
  | operator (lhs : Pattern) (args : List Pattern)
  /-- An extractor applied to patterns, such as `Some(x)`. -/
  | extract (items : List Pattern)
  /-- A name for all that a pattern matches, `name @ inner`. -/
  | bind (name : Name) (inner : Pattern)
  /-- Binds nothing: literals, wildcards, references to existing values. -/
  | other
deriving Repr, Inhabited

namespace Pattern

mutual

def boundNames : Pattern → List Name
  | var n => [n]
  | typed p => p.boundNames
  | tuple ps => boundNamesAll ps
  | operator p ps => p.boundNames ++ boundNamesAll ps
  | extract ps => boundNamesAll ps
  | bind n p => n :: p.boundNames
  | other => []

def boundNamesAll : List Pattern → List Name
  | [] => []
  | p :: ps => p.boundNames ++ boundNamesAll ps

end

theorem boundNamesAll_eq_flatMap (ps : List Pattern) :
    boundNamesAll ps = ps.flatMap boundNames := by
  induction ps with
  | nil => rfl
  | cons p ps ih => simp [boundNamesAll, ih]

end Pattern

end TagIndex
