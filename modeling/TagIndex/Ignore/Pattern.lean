import TagIndex.Ignore.Token

/-!
# Reading the patterns of ignore files

`tokens?` turns the text of a pattern into tokens. A bracket that is never closed stands for
itself, and so does every bracket after it. A pattern is malformed if it ends in a backslash, leaves
a choice open or closes one that is not open, or has a range that goes backwards.
-/

namespace TagIndex.Ignore

/-! ### Sets of characters -/

inductive SetEnd where
  | closed (members : List (Char × Char)) (rest : List Char)
  | unclosed
  | backwards

/-- Reads the members of a set. `pending` are those read so far, the last one first; `afterDash`
says that a dash has been read that may make a range of the last member. A closing bracket is a
member only if it is the first. -/
def readSet (pending : List (Char × Char)) (afterDash : Bool) : List Char → SetEnd
  | [] => .unclosed
  | c :: cs =>
    match pending with
    | [] => readSet [(c, c)] false cs
    | (low, high) :: before =>
      if c = ']' then
        .closed ((if afterDash then ('-', '-') :: pending else pending).reverse) cs
      else if afterDash then
        if c < low then .backwards else readSet ((low, c) :: before) false cs
      else if c = '-' then readSet ((low, high) :: before) true cs
      else readSet ((c, c) :: (low, high) :: before) false cs

theorem readSet_length {pending : List (Char × Char)} {afterDash : Bool} {cs : List Char}
    {members : List (Char × Char)} {rest : List Char}
    (h : readSet pending afterDash cs = .closed members rest) : rest.length < cs.length := by
  induction cs generalizing pending afterDash with
  | nil => simp [readSet] at h
  | cons c cs ih =>
    cases pending with
    | nil =>
      have := ih h
      simp only [List.length_cons]; omega
    | cons p before =>
      obtain ⟨low, high⟩ := p
      simp only [readSet] at h
      split at h
      · simp only [SetEnd.closed.injEq] at h
        simp [h.2]
      · split at h
        · split at h
          · cases h
          · have := ih h
            simp only [List.length_cons]; omega
        · split at h <;>
          · have := ih h
            simp only [List.length_cons]; omega

/-- The bytes of a range of characters. A range between characters of several bytes joins the last
byte of the one to the first byte of the other. -/
def byteRanges (r : Char × Char) : List ByteRange :=
  let single (b : UInt8) : ByteRange := ⟨b, b⟩
  let low := String.utf8EncodeChar r.1
  let high := String.utf8EncodeChar r.2
  if r.1 = r.2 then low.map single
  else low.dropLast.map single ++ [⟨low.getLastD 0, high.headD 0⟩] ++ high.tail.map single

/-! ### Patterns -/

/-- A pattern that has been read in part. Token lists are kept with the last token first. -/
structure Draft where
  /-- The tokens of the branch that is being read. -/
  current : List Token
  /-- The finished branches of the choice that is being read. -/
  finished : List (List Token)
  /-- For each open choice the branch it stands in and the finished branches beside that. -/
  outer : List (List Token × List (List Token))

namespace Draft

def empty : Draft :=
  { current := [], finished := [], outer := [] }

def push (d : Draft) (t : Token) : Draft :=
  { d with current := t :: d.current }

def pushChar (d : Draft) (c : Char) : Draft :=
  d.push (.literal (String.utf8EncodeChar c))

def openChoice (d : Draft) : Draft :=
  { current := [], finished := [], outer := (d.current, d.finished) :: d.outer }

/-- A comma outside all choices is a character like any other. -/
def comma (d : Draft) : Draft :=
  if d.outer.isEmpty then d.pushChar ','
  else { d with current := [], finished := d.current.reverse :: d.finished }

/-- Branches that take nothing do not count. -/
def closeChoice? (d : Draft) : Option Draft :=
  match d.outer with
  | [] => none
  | (current, finished) :: outer =>
    let branches := (d.current.reverse :: d.finished).reverse.filter (!·.all Token.isEmptyChoice)
    some { current := .choice branches :: current, finished, outer }

/-- Whether two stars after the character `before` stand for directories. Inside a choice a quoted
comma or brace starts a segment as a slash does. -/
def startsSegment (d : Draft) (before : Option Char) : Bool :=
  before = some '/' || !d.outer.isEmpty && (before = some ',' || before = some '\x7b')

/-- Puts directories of any number in place of what starts their segment. Several in a row are
one. -/
def pushDirectories (d : Draft) (atEnd : Bool) : Draft :=
  match d.current with
  | .leading :: _ => d
  | .trailing :: _ => d
  | _ :: before => { d with current := (if atEnd then .trailing else .inner) :: before }
  | [] => d

end Draft

/-- Reads the rest `cs` of a pattern, which stands after the character `before`. `brackets` says
whether an opening bracket starts a set. -/
def readPattern (d : Draft) (before : Option Char) (brackets : Bool) (cs : List Char) :
    Option (List Token) :=
  match cs with
  | [] => if d.outer.isEmpty then some d.current.reverse else none
  | ['\\'] => none
  | '\\' :: c :: rest => readPattern (d.pushChar c) (some c) brackets rest
  | '?' :: rest => readPattern (d.push .anyByte) (some '?') brackets rest
  | '*' :: '*' :: rest =>
    let plain := (d.push .anyBytes).push .anyBytes
    if d.current.isEmpty then
      match rest with
      | [] => readPattern (d.push .leading) (some '*') brackets []
      | '/' :: rest => readPattern (d.push .leading) (some '/') brackets rest
      | rest => readPattern plain (some '*') brackets rest
    else if d.startsSegment before then
      match rest with
      | [] => readPattern (d.pushDirectories true) (some '*') brackets []
      | '/' :: rest => readPattern (d.pushDirectories false) (some '/') brackets rest
      | c :: rest =>
        if !d.outer.isEmpty && (c == ',' || c == '\x7d') then
          readPattern (d.pushDirectories true) (some '*') brackets (c :: rest)
        else readPattern plain (some '*') brackets (c :: rest)
    else readPattern plain (some '*') brackets rest
  | '*' :: rest => readPattern (d.push .anyBytes) (some '*') brackets rest
  | '\x7b' :: rest => readPattern d.openChoice (some '\x7b') brackets rest
  | '\x7d' :: rest =>
    match d.closeChoice? with
    | some d => readPattern d (some '\x7d') brackets rest
    | none => none
  | ',' :: rest => readPattern d.comma (some ',') brackets rest
  | c :: rest =>
    if c = '[' ∧ brackets = true then
      let negated := rest.head? = some '!' ∨ rest.head? = some '^'
      match h : readSet [] false (if negated then rest.tail else rest) with
      | .closed members after =>
        have : after.length < rest.length + 1 := by
          have := readSet_length h
          split at this
          · simp only [List.length_tail] at this; omega
          · omega
        let set := .set (decide negated) (members.flatMap byteRanges)
        readPattern (d.push set) (some ']') brackets after
      | .unclosed => readPattern (d.pushChar '[') (some '[') false rest
      | .backwards => none
    else readPattern (d.pushChar c) (some c) brackets rest
termination_by cs.length

def tokens? (pattern : List Char) : Option (List Token) :=
  readPattern .empty none true pattern

end TagIndex.Ignore
