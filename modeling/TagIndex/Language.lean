import TagIndex.Path
import TagIndex.Tree.Basic

/-!
# Languages

A grammar turns sources into syntax trees. The registry finds the grammar of a file by its
extension. A registration takes over the extensions it declares and replaces an earlier grammar of
its name; extensions that the earlier one declared then lead to the new one.
-/

namespace TagIndex

structure Grammar where
  /-- The name that tag lines show. -/
  name : String
  extensions : List String
  /-- The tree of a source, or why the parser cannot be run. -/
  parse : String → Except String Tree

/-- Later registrations stand first. -/
structure Registry where
  grammars : List (String × Grammar)
  /-- The name that each extension belongs to. -/
  owners : List (String × String)

namespace Registry

def empty : Registry :=
  { grammars := [], owners := [] }

def register (r : Registry) (g : Grammar) : Registry :=
  { grammars := (g.name, g) :: r.grammars
    owners := g.extensions.map (·, g.name) ++ r.owners }

def byName? (r : Registry) (name : String) : Option Grammar :=
  r.grammars.lookup name

def byExtension? (r : Registry) (extension : String) : Option Grammar :=
  (r.owners.lookup extension).bind r.byName?

def forFile? (r : Registry) (path : String) : Option Grammar :=
  (Path.extension? path).bind r.byExtension?

def supports (r : Registry) (path : String) : Bool :=
  (r.forFile? path).isSome

end Registry

/-- The grammar of Scala sources and scripts, around a parser for them. -/
def Grammar.scala (parse : String → Except String Tree) : Grammar :=
  { name := "scala", extensions := ["scala", "sc"], parse }

def Registry.scala (parse : String → Except String Tree) : Registry :=
  Registry.empty.register (.scala parse)

end TagIndex
