import TagIndex.Decl.Pattern

/-!
# Patterns read off a syntax tree

At the top of a value definition every identifier binds. Inside a tuple, an operator, an extractor
or a capture only variable names do: a capitalised or quoted identifier refers to an existing value.
`top` says in which of the two places a pattern stands; types and parentheses do not change it.
-/

namespace TagIndex.Pattern

inductive Shape where
  | identifier
  | typed
  | parenthesized
  | tuple
  | operator
  | extractor
  | capture
  | other
deriving DecidableEq, Repr

def Shape.ofKind : String → Shape
  | "identifier" => .identifier
  | "typed_pattern" => .typed
  | "parenthesized_pattern" => .parenthesized
  | "tuple_pattern" => .tuple
  | "infix_pattern" => .operator
  | "case_class_pattern" => .extractor
  | "capture_pattern" => .capture
  | _ => .other

mutual

def ofTree (src : List Char) (top : Bool) : Tree → Pattern
  | .mk n cs =>
    match Shape.ofKind n.kind with
    | .identifier =>
      if top || Name.isVariable (n.text src) then .var (Name.ofNode src n) else .other
    | .typed =>
      match (inField? src top "pattern" cs).or (firstNamed? src top cs) with
      | some p => .typed p
      | none => .other
    | .parenthesized => (firstNamed? src top cs).getD .other
    | .tuple => .tuple (named src cs)
    | .operator =>
      .operator ((inField? src false "left" cs).getD .other) (inField? src false "right" cs).toList
    | .extractor =>
      match inField src "pattern" cs with
      | [] => .extract ((named src cs).drop 1)
      | ps => .extract ps
    | .capture =>
      match Tree.inField? "name" cs with
      | some name => .bind (Name.ofNode src name) ((inField? src false "pattern" cs).getD .other)
      | none => .other
    | .other => .other

def inField? (src : List Char) (top : Bool) (field : String) : List Tree → Option Pattern
  | [] => none
  | t :: ts =>
    if t.node.field == some field then some (ofTree src top t) else inField? src top field ts

def firstNamed? (src : List Char) (top : Bool) : List Tree → Option Pattern
  | [] => none
  | t :: ts => if t.node.isNamed then some (ofTree src top t) else firstNamed? src top ts

def named (src : List Char) : List Tree → List Pattern
  | [] => []
  | t :: ts => if t.node.isNamed then ofTree src false t :: named src ts else named src ts

def inField (src : List Char) (field : String) : List Tree → List Pattern
  | [] => []
  | t :: ts =>
    if t.node.field == some field then ofTree src false t :: inField src field ts
    else inField src field ts

end

theorem inField?_eq (src : List Char) (top : Bool) (field : String) (ts : List Tree) :
    inField? src top field ts =
      (ts.find? (·.node.field == some field)).map (ofTree src top) := by
  induction ts with
  | nil => simp [inField?]
  | cons t ts ih => by_cases h : t.node.field = some field <;> simp_all [inField?]

theorem firstNamed?_eq (src : List Char) (top : Bool) (ts : List Tree) :
    firstNamed? src top ts = (ts.find? (·.node.isNamed)).map (ofTree src top) := by
  induction ts with
  | nil => simp [firstNamed?]
  | cons t ts ih => by_cases h : t.node.isNamed <;> simp_all [firstNamed?]

theorem named_eq (src : List Char) (ts : List Tree) :
    named src ts = (Tree.named ts).map (ofTree src false) := by
  induction ts with
  | nil => simp [named, Tree.named]
  | cons t ts ih => by_cases h : t.node.isNamed <;> simp_all [named, Tree.named]

theorem inField_eq (src : List Char) (field : String) (ts : List Tree) :
    inField src field ts = (Tree.inField field ts).map (ofTree src false) := by
  induction ts with
  | nil => simp [inField, Tree.inField]
  | cons t ts ih => by_cases h : t.node.field = some field <;> simp_all [inField, Tree.inField]

end TagIndex.Pattern
