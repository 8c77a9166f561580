import TagIndex.Decl.Name
import TagIndex.Text.Blank

/-!
# Modifiers

`Modifier.ofAccess` reads an access modifier from its source text, whatever blanks stand in it.
-/

namespace TagIndex

inductive Modifier where
  /-- Plain `private`, or `private[scope]`. -/
  | privateTo (scope : Option String)
  /-- Plain `protected`, or `protected[scope]`. -/
  | protectedTo (scope : Option String)
  /-- The mark `val` on a constructor parameter. -/
  | valParam
  /-- The mark `var` on a constructor parameter. -/
  | varParam
  | implicit
  /-- A parameter of a `using` group. -/
  | usingParam
  | abstract
  | final
  | sealed
  | override
  | lazy
  | other (text : String)
deriving DecidableEq, Repr, Inhabited

namespace Modifier

/-- The scope named by what follows the opening bracket of an access modifier. Closing brackets at
the end are not part of it. -/
def scopeOfBracketed (rest : List Char) : String :=
  String.ofList (Name.unquote (rest.reverse.dropWhile (· = ']')).reverse)

/-- Reads `private`, `protected[p]`, `private[this]` and the like. Any other word is kept as it
stands before the first bracket. -/
def ofAccess (text : List Char) : Modifier :=
  let compact := text.filter (!Text.isBlank ·)
  let word := String.ofList (compact.takeWhile (· ≠ '['))
  let scope :=
    match compact.dropWhile (· ≠ '[') with
    | [] => none
    | _ :: rest => some (scopeOfBracketed rest)
  if word = "private" then .privateTo scope
  else if word = "protected" then .protectedTo scope
  else .other word

def ofNode (src : List Char) (n : Node) : Modifier :=
  match n.kind with
  | "access_modifier" => ofAccess (n.text src)
  | "abstract" => .abstract
  | "final" => .final
  | "sealed" => .sealed
  | "implicit" => .implicit
  | "lazy" => .lazy
  | "override" => .override
  | kind => .other kind

end Modifier

end TagIndex
