import TagIndex.Text.Places
import TagIndex.Text.Suffix

/-!
# Exclude globs

A glob is matched against the whole spelled path, character by character. `?` stands for any one
character and `*` for any number of them, slashes included. `[…]` is one character of a set and
`[!…]` one outside it. `**` has to be a whole path segment; it stands for any number of segments,
and at the end of a glob for everything that is left.

- `Glob.compile`: reads a glob or says what is wrong with it and where.
- `Glob.accepts`: the meaning of a glob, by what each token can leave of a text.
- `Glob.matches`: the same, found by following all ways through the text at once.
-/

namespace TagIndex

namespace Glob

structure Range where
  low : Char
  high : Char
deriving DecidableEq, Repr

def Range.contains (r : Range) (c : Char) : Bool :=
  r.low ≤ c && c ≤ r.high

inductive Token where
  | char (c : Char)
  | anyChar
  | anyText
  /-- Whole segments with the slash after each. -/
  | anySegments
  | oneOf (set : List Range)
  | noneOf (set : List Range)
deriving DecidableEq, Repr

inductive Cause where
  /-- A set has no closing bracket. -/
  | openSet
  /-- Three or more stars in a row. -/
  | manyStars
  /-- Two stars that share their segment with other text. -/
  | partialSegment
deriving DecidableEq, Repr

def Cause.message : Cause → String
  | .openSet => "invalid range pattern"
  | .manyStars => "wildcards are either regular `*` or recursive `**`"
  | .partialSegment => "recursive wildcards must form a single path component"

/-- What is wrong with a glob, and at which character, counted from zero. -/
structure Fault where
  position : Nat
  cause : Cause
deriving DecidableEq, Repr

def Fault.message (f : Fault) : String :=
  "Pattern syntax error near position " ++ f.position.repr ++ ": " ++ f.cause.message

/-- The members of a set. A dash between two characters makes a range, any other stands for
itself. -/
def ranges : List Char → List Range
  | a :: '-' :: b :: rest => ⟨a, b⟩ :: ranges rest
  | a :: rest => ⟨a, a⟩ :: ranges rest
  | [] => []

/-- Splits what follows the opening of a set into its members and the text after it. The first
character always is a member, so a set may contain the closing bracket. -/
def closeSet? : List Char → Option (List Char × List Char)
  | [] => none
  | c :: cs =>
    match cs.dropWhile (· ≠ ']') with
    | [] => none
    | _ :: rest => some (c :: cs.takeWhile (· ≠ ']'), rest)

theorem closeSet?_length {cs members rest : List Char} (h : closeSet? cs = some (members, rest)) :
    rest.length < cs.length := by
  cases cs with
  | nil => simp [closeSet?] at h
  | cons c cs =>
    have hle := (List.dropWhile_sublist (fun x => decide (x ≠ ']')) (l := cs)).length_le
    simp only [closeSet?] at h
    split at h
    · simp at h
    · next hd =>
      simp only [Option.some.injEq, Prod.mk.injEq] at h
      rw [hd, h.2] at hle
      simp only [List.length_cons] at hle ⊢
      omega

/-- Reads the glob `cs`, which starts at `position` after the character `before`. -/
def tokens (position : Nat) (before : Option Char) (cs : List Char) : Except Fault (List Token) :=
  match cs with
  | [] => .ok []
  | '?' :: rest => do return .anyChar :: (← tokens (position + 1) (some '?') rest)
  | '*' :: '*' :: '*' :: _ => .error ⟨position + 2, .manyStars⟩
  | '*' :: '*' :: rest =>
    if before = none ∨ before = some '/' then
      match rest with
      | [] => .ok [.anyText]
      | ['/'] => .ok [.anyText]
      | '/' :: rest => do return .anySegments :: (← tokens (position + 3) (some '/') rest)
      | _ => .error ⟨position + 2, .partialSegment⟩
    else .error ⟨position - 1, .partialSegment⟩
  | '*' :: rest => do return .anyText :: (← tokens (position + 1) (some '*') rest)
  | '[' :: '!' :: rest =>
    match h : closeSet? rest with
    | some (members, after) => do
      have := closeSet?_length h
      return .noneOf (ranges members) :: (← tokens (position + members.length + 3) (some ']') after)
    | none => .error ⟨position, .openSet⟩
  | '[' :: rest =>
    match h : closeSet? rest with
    | some (members, after) => do
      have := closeSet?_length h
      return .oneOf (ranges members) :: (← tokens (position + members.length + 2) (some ']') after)
    | none => .error ⟨position, .openSet⟩
  | c :: rest => do return .char c :: (← tokens (position + 1) (some c) rest)
termination_by cs.length

/-- What can be left of a text after a token has taken its part from the beginning. -/
def Token.rests : Token → List Char → List (List Char)
  | .anyText, cs => Text.suffixes cs
  | .anySegments, cs => cs :: Text.afterEach '/' cs
  | _, [] => []
  | .char c, d :: ds => if d = c then [ds] else []
  | .anyChar, _ :: ds => [ds]
  | .oneOf set, d :: ds => if set.any (·.contains d) then [ds] else []
  | .noneOf set, d :: ds => if set.any (·.contains d) then [] else [ds]

/-- Whether the tokens together take a whole text. -/
def accepts : List Token → List Char → Bool
  | [], cs => cs.isEmpty
  | t :: ts, cs => (t.rests cs).any (accepts ts)

/-- The places of a text after a token, coming from a set of places. -/
def Token.advance (cs : List Char) (places : List Bool) : Token → List Bool
  | .char c => Text.afterOne (· == c) cs places
  | .anyChar => Text.afterOne (fun _ => true) cs places
  | .anyText => Text.afterMany (fun _ => true) cs places
  | .anySegments =>
    Text.either places (Text.afterOne (· == '/') cs (Text.afterMany (fun _ => true) cs places))
  | .oneOf set => Text.afterOne (fun c => set.any (·.contains c)) cs places
  | .noneOf set => Text.afterOne (fun c => !set.any (·.contains c)) cs places

def advance (cs : List Char) (ts : List Token) (places : List Bool) : List Bool :=
  ts.foldl (Token.advance cs) places

theorem Token.mem_ends_advance (cs : List Char) (places : List Bool) (t : Token) (ds : List Char) :
    ds ∈ Text.ends cs (t.advance cs places) ↔ ∃ es ∈ Text.ends cs places, ds ∈ t.rests es := by
  have single (p : Char → Bool) (hnil : ds ∉ t.rests [])
      (hcons : ∀ e es, ds ∈ t.rests (e :: es) ↔ p e = true ∧ ds = es) :
      ds ∈ Text.ends cs (Text.afterOne p cs places) ↔
        ∃ es ∈ Text.ends cs places, ds ∈ t.rests es := by
    rw [Text.mem_ends_afterOne]
    constructor
    · rintro ⟨c, hp, hc⟩
      exact ⟨_, hc, (hcons c ds).2 ⟨hp, rfl⟩⟩
    · rintro ⟨es, hes, h⟩
      cases es with
      | nil => exact absurd h hnil
      | cons e es =>
        obtain ⟨hp, rfl⟩ := (hcons e es).1 h
        exact ⟨e, hp, hes⟩
  cases t with
  | anyText =>
    simp only [advance, rests, Text.mem_ends_afterMany, Text.mem_suffixes]
    constructor
    · rintro ⟨taken, -, h⟩
      exact ⟨_, h, taken, rfl⟩
    · rintro ⟨_, h, taken, rfl⟩
      exact ⟨taken, by simp, h⟩
  | anySegments =>
    simp only [advance, rests, Text.mem_ends_either, Text.mem_ends_afterOne,
      Text.mem_ends_afterMany, List.mem_cons, Text.mem_afterEach, beq_iff_eq]
    constructor
    · rintro (h | ⟨_, rfl, taken, -, h⟩)
      · exact ⟨ds, h, .inl rfl⟩
      · exact ⟨_, h, .inr ⟨taken, rfl⟩⟩
    · rintro ⟨es, h, rfl | ⟨taken, rfl⟩⟩
      · exact .inl h
      · exact .inr ⟨'/', rfl, taken, by simp, h⟩
  | _ =>
    apply single
    · simp [rests]
    · intro e es
      simp only [rests]
      first
        | split <;> simp [*]
        | simp

theorem mem_ends_advance (cs : List Char) (ts : List Token) (places : List Bool) :
    [] ∈ Text.ends cs (advance cs ts places) ↔
      ∃ es ∈ Text.ends cs places, accepts ts es = true := by
  induction ts generalizing places with
  | nil => simp [advance, accepts]
  | cons t ts ih =>
    rw [advance, List.foldl_cons]
    refine (ih (t.advance cs places)).trans ?_
    simp only [Token.mem_ends_advance, accepts, List.any_eq_true]
    constructor
    · rintro ⟨ds, ⟨es, hes, hds⟩, h⟩
      exact ⟨es, hes, ds, hds, h⟩
    · rintro ⟨es, hes, ds, hds, h⟩
      exact ⟨ds, ⟨es, hes, hds⟩, h⟩

end Glob

structure Glob where
  parts : List Glob.Token
deriving DecidableEq, Repr

def Glob.compile (text : String) : Except Glob.Fault Glob := do
  return ⟨← Glob.tokens 0 none text.toList⟩

def Glob.matches (g : Glob) (path : String) : Bool :=
  Text.atEnd path.toList (Glob.advance path.toList g.parts [true])

theorem Glob.matches_eq_accepts (g : Glob) (path : String) :
    g.matches path = Glob.accepts g.parts path.toList := by
  rw [Bool.eq_iff_iff, Glob.matches, Text.atEnd_iff, Glob.mem_ends_advance, Text.ends_start]
  simp

end TagIndex
