import TagIndex.Tag.Basic

/-!
# Reading JSON

A reader for JSON text in general, and for the object of a tag line. It knows nothing of how this
library writes its objects: blanks may stand between the parts of a text, every escape is understood
(code points beyond the first plane are pairs of `\u` escapes), numbers may have a fraction and an
exponent, and members may come in any order.

Each part is read off the front of a text by a function that returns what follows it.

- `Json.chars?`: the characters of a string.
- `Json.number?`: a number, as the rational number that it writes.
- `Json.value?`, `Json.parse?`: any value, and a text that is one value.
- `TagLine.ofJson?`: the tag line that a text describes.
-/

namespace TagIndex

namespace Json

inductive Value where
  | null
  | bool (b : Bool)
  | number (n : Rat)
  | string (s : String)
  | array (items : List Value)
  /-- The members of an object in the order of the text. -/
  | object (members : List (String × Value))

def isBlank (c : Char) : Bool :=
  c = ' ' || c = '\t' || c = '\n' || c = '\r'

def skipBlanks (cs : List Char) : List Char :=
  cs.dropWhile isBlank

/-! ### Strings -/

def hexDigit? (c : Char) : Option Nat :=
  if '0' ≤ c ∧ c ≤ '9' then some (c.toNat - '0'.toNat)
  else if 'a' ≤ c ∧ c ≤ 'f' then some (c.toNat - 'a'.toNat + 10)
  else if 'A' ≤ c ∧ c ≤ 'F' then some (c.toNat - 'A'.toNat + 10)
  else none

def codeUnit? : List Char → Option (Nat × List Char)
  | a :: b :: c :: d :: rest => do
    let a ← hexDigit? a
    let b ← hexDigit? b
    let c ← hexDigit? c
    let d ← hexDigit? d
    return (((a * 16 + b) * 16 + c) * 16 + d, rest)
  | _ => none

/-- The second half of a pair of code units, after the first. -/
def lowSurrogate? : List Char → Option (Nat × List Char)
  | '\\' :: 'u' :: rest => (codeUnit? rest).filter fun (unit, _) => 0xdc00 ≤ unit ∧ unit < 0xe000
  | _ => none

/-- The character that a `\u` escape stands for, perhaps together with a second one. -/
def codePoint? (cs : List Char) : Option (Char × List Char) := do
  let (unit, rest) ← codeUnit? cs
  if 0xd800 ≤ unit ∧ unit < 0xdc00 then
    let (low, rest) ← lowSurrogate? rest
    return (Char.ofNat (0x10000 + (unit - 0xd800) * 0x400 + (low - 0xdc00)), rest)
  else if 0xdc00 ≤ unit ∧ unit < 0xe000 then none
  else return (Char.ofNat unit, rest)

/-- The character that an escape stands for, after the backslash. -/
def escape? : List Char → Option (Char × List Char)
  | '\x22' :: rest => some ('\x22', rest)
  | '\\' :: rest => some ('\\', rest)
  | '/' :: rest => some ('/', rest)
  | 'b' :: rest => some ('\x08', rest)
  | 'f' :: rest => some ('\x0c', rest)
  | 'n' :: rest => some ('\n', rest)
  | 'r' :: rest => some ('\r', rest)
  | 't' :: rest => some ('\t', rest)
  | 'u' :: rest => codePoint? rest
  | _ => none

theorem codeUnit?_length {cs rest : List Char} {unit : Nat}
    (h : codeUnit? cs = some (unit, rest)) : rest.length < cs.length := by
  unfold codeUnit? at h
  split at h
  next =>
    simp only [Option.bind_eq_bind, Option.bind_eq_some_iff] at h
    obtain ⟨_, -, _, -, _, -, _, -, h⟩ := h
    cases h
    simp only [List.length_cons]
    omega
  next => cases h

theorem lowSurrogate?_length {cs rest : List Char} {unit : Nat}
    (h : lowSurrogate? cs = some (unit, rest)) : rest.length < cs.length := by
  unfold lowSurrogate? at h
  split at h
  next =>
    have := codeUnit?_length (Option.filter_eq_some_iff.mp h).1
    simp only [List.length_cons]
    omega
  next => cases h

theorem codePoint?_length {cs rest : List Char} {c : Char}
    (h : codePoint? cs = some (c, rest)) : rest.length < cs.length := by
  simp only [codePoint?, Option.bind_eq_bind, Option.bind_eq_some_iff] at h
  obtain ⟨⟨unit, later⟩, hunit, h⟩ := h
  have hlater := codeUnit?_length hunit
  simp only at h
  split at h
  · simp only [Option.bind_eq_some_iff] at h
    obtain ⟨⟨low, last⟩, hlow, h⟩ := h
    have hlast := lowSurrogate?_length hlow
    obtain ⟨-, rfl⟩ := Prod.mk.inj (Option.some.inj h)
    exact Nat.lt_trans hlast hlater
  · split at h
    · cases h
    · obtain ⟨-, rfl⟩ := Prod.mk.inj (Option.some.inj h)
      exact hlater

theorem escape?_length {cs rest : List Char} {c : Char} (h : escape? cs = some (c, rest)) :
    rest.length < cs.length := by
  unfold escape? at h
  split at h
  case h_9 =>
    have := codePoint?_length h
    simp only [List.length_cons]
    omega
  case h_10 => cases h
  all_goals
    cases h
    simp

/-- The characters of a string up to its closing quote. Control characters are refused. -/
def chars? (cs : List Char) : Option (List Char × List Char) :=
  match cs with
  | [] => none
  | c :: rest =>
    if c = '\x22' then some ([], rest)
    else if c = '\\' then
      match _h : escape? rest with
      | some (escaped, later) => (chars? later).map fun (text, rest) => (escaped :: text, rest)
      | none => none
    else if c.toNat < 0x20 then none
    else (chars? rest).map fun (text, rest) => (c :: text, rest)
termination_by cs.length
decreasing_by
  · have := escape?_length _h
    simp only [List.length_cons]; omega
  · simp

theorem chars?_quote (rest : List Char) : chars? ('\x22' :: rest) = some ([], rest) := by
  simp [chars?]

theorem chars?_escape {cs later : List Char} {c : Char} (h : escape? cs = some (c, later)) :
    chars? ('\\' :: cs) = (chars? later).map fun (text, rest) => (c :: text, rest) := by
  rw [chars?, if_neg (by decide), if_pos rfl]
  split
  next hsome =>
    obtain ⟨rfl, rfl⟩ := Prod.mk.inj (Option.some.inj (h.symm.trans hsome))
    rfl
  next hnone => exact absurd (h.symm.trans hnone) (by simp)

theorem chars?_plain {c : Char} (hquote : c ≠ '\x22') (hbackslash : c ≠ '\\')
    (hcontrol : ¬ c.toNat < 0x20) (rest : List Char) :
    chars? (c :: rest) = (chars? rest).map fun (text, rest) => (c :: text, rest) := by
  rw [chars?, if_neg hquote, if_neg hbackslash, if_neg hcontrol]

/-! ### Numbers -/

def digits? (cs : List Char) : Option (List Char × List Char) :=
  if (cs.takeWhile Char.isDigit).isEmpty then none
  else some (cs.takeWhile Char.isDigit, cs.dropWhile Char.isDigit)

/-- A whole number. Only zero starts with the digit zero. -/
def whole? (cs : List Char) : Option (Rat × List Char) := do
  let (ds, rest) ← digits? cs
  if ds.head? = some '0' ∧ ds.length ≠ 1 then none else return (Nat.ofDigitChars 10 ds 0, rest)

def fraction? : List Char → Option (Rat × List Char)
  | '.' :: rest => do
    let (ds, rest) ← digits? rest
    return (Nat.ofDigitChars 10 ds 0 / 10 ^ ds.length, rest)
  | rest => some (0, rest)

/-- The digits of an exponent and the sign before them. -/
def signed? : List Char → Option (Int × List Char)
  | '+' :: rest => do
    let (ds, rest) ← digits? rest
    return (Nat.ofDigitChars 10 ds 0, rest)
  | '-' :: rest => do
    let (ds, rest) ← digits? rest
    return (-Nat.ofDigitChars 10 ds 0, rest)
  | rest => do
    let (ds, rest) ← digits? rest
    return (Nat.ofDigitChars 10 ds 0, rest)

def exponent? : List Char → Option (Int × List Char)
  | 'e' :: rest => signed? rest
  | 'E' :: rest => signed? rest
  | rest => some (0, rest)

def magnitude? (cs : List Char) : Option (Rat × List Char) := do
  let (whole, rest) ← whole? cs
  let (fraction, rest) ← fraction? rest
  let (exponent, rest) ← exponent? rest
  return ((whole + fraction) * 10 ^ exponent, rest)

def number? : List Char → Option (Rat × List Char)
  | '-' :: rest => (magnitude? rest).map fun (n, rest) => (-n, rest)
  | rest => magnitude? rest

/-! ### Values -/

def name? (cs : List Char) : Option (String × List Char) :=
  match skipBlanks cs with
  | '\x22' :: rest => do
    let (name, rest) ← chars? rest
    match skipBlanks rest with
    | ':' :: rest => return (String.ofList name, rest)
    | _ => none
  | _ => none

/-- The value `v`, if the text goes on with the rest of its name. -/
def word? (ending : List Char) (v : Value) (cs : List Char) : Option (Value × List Char) :=
  if ending.isPrefixOf cs then some (v, cs.drop ending.length) else none

mutual

/-- A value of at most `n` nested or consecutive parts. -/
def value? (n : Nat) (cs : List Char) : Option (Value × List Char) :=
  match n, skipBlanks cs with
  | 0, _ => none
  | _, [] => none
  | n + 1, c :: rest =>
    if c = '\x7b' then
      match skipBlanks rest with
      | '\x7d' :: rest => some (.object [], rest)
      | rest => (members? n rest).map fun (members, rest) => (.object members, rest)
    else if c = '[' then
      match skipBlanks rest with
      | ']' :: rest => some (.array [], rest)
      | rest => (items? n rest).map fun (items, rest) => (.array items, rest)
    else if c = '\x22' then (chars? rest).map fun (text, rest) => (.string (.ofList text), rest)
    else if c = 't' then word? ['r', 'u', 'e'] (.bool true) rest
    else if c = 'f' then word? ['a', 'l', 's', 'e'] (.bool false) rest
    else if c = 'n' then word? ['u', 'l', 'l'] .null rest
    else (number? (c :: rest)).map fun (n, rest) => (.number n, rest)

def members? (n : Nat) (cs : List Char) : Option (List (String × Value) × List Char) :=
  match n with
  | 0 => none
  | n + 1 => do
    let (name, rest) ← name? cs
    let (v, rest) ← value? n rest
    match skipBlanks rest with
    | '\x7d' :: rest => return ([(name, v)], rest)
    | ',' :: rest =>
      let (members, rest) ← members? n rest
      return ((name, v) :: members, rest)
    | _ => none

def items? (n : Nat) (cs : List Char) : Option (List Value × List Char) :=
  match n with
  | 0 => none
  | n + 1 => do
    let (v, rest) ← value? n cs
    match skipBlanks rest with
    | ']' :: rest => return ([v], rest)
    | ',' :: rest =>
      let (items, rest) ← items? n rest
      return (v :: items, rest)
    | _ => none

end

theorem members?_last {n : Nat} {cs rest later : List Char} {name : String} {v : Value}
    (hname : name? cs = some (name, rest)) (hv : value? n rest = some (v, '\x7d' :: later)) :
    members? (n + 1) cs = some ([(name, v)], later) := by
  rw [members?, hname]
  simp only [Option.bind_eq_bind, Option.bind_some, hv]
  rfl

theorem members?_more {n : Nat} {cs rest next later : List Char} {name : String} {v : Value}
    {members : List (String × Value)} (hname : name? cs = some (name, rest))
    (hv : value? n rest = some (v, ',' :: next)) (hs : members? n next = some (members, later)) :
    members? (n + 1) cs = some ((name, v) :: members, later) := by
  rw [members?, hname]
  simp only [Option.bind_eq_bind, Option.bind_some, hv]
  change (members? n next).bind _ = _
  rw [hs]
  rfl

/-- The value that a text writes. Every part takes at least one character, so the length of the
text is enough for its parts. -/
def parse? (text : List Char) : Option Value := do
  let (v, rest) ← value? (text.length + 1) text
  if (skipBlanks rest).isEmpty then return v else none

def text? (members : List (String × Value)) (name : String) : Option String :=
  match members.lookup name with
  | some (.string s) => some s
  | _ => none

/-- What the object with the given members says about `name`, if that is a 32-bit number. -/
def uint32? (members : List (String × Value)) (name : String) : Option UInt32 :=
  match members.lookup name with
  | some (.number n) =>
    if n.den = 1 ∧ 0 ≤ n.num ∧ n.num.toNat < UInt32.size then some (.ofNat n.num.toNat) else none
  | _ => none

/-- The qualifier: an object without a `scope` describes a tag that has none. -/
def qualifier? (members : List (String × Value)) : Option (Option String) :=
  match members.lookup "scope" with
  | some (.string q) => some (some q)
  | some _ => none
  | none => some none

/-- Whether the tag is file-local: an object without `fileLocal` describes one that is not. -/
def isLocal? (members : List (String × Value)) : Option Bool :=
  match members.lookup "fileLocal" with
  | some (.bool b) => some b
  | some _ => none
  | none => some false

end Json

namespace TagLine

/-- The tag line that a value describes. There is no agreed meaning for an object that has two
members of one name, so it is refused. -/
def ofValue? : Json.Value → Option TagLine
  | .object members =>
    if (members.Pairwise fun a b => a.1 ≠ b.1) ∧ Json.text? members "_type" = some "tag" then do
      let name ← Json.text? members "name"
      let file ← Json.text? members "path"
      let line ← Json.uint32? members "line"
      let column ← Json.uint32? members "column"
      let qualifier ← Json.qualifier? members
      let isLocal ← Json.isLocal? members
      let language ← Json.text? members "language"
      return { tag := { qualifier, name, isLocal, position := { line, column } }, file, language }
    else none
  | _ => none

theorem ofValue?_object {members : List (String × Json.Value)} {l : TagLine}
    (hdistinct : members.Pairwise fun a b => a.1 ≠ b.1)
    (htype : Json.text? members "_type" = some "tag")
    (hname : Json.text? members "name" = some l.tag.name)
    (hfile : Json.text? members "path" = some l.file)
    (hline : Json.uint32? members "line" = some l.tag.position.line)
    (hcolumn : Json.uint32? members "column" = some l.tag.position.column)
    (hqualifier : Json.qualifier? members = some l.tag.qualifier)
    (hlocal : Json.isLocal? members = some l.tag.isLocal)
    (hlanguage : Json.text? members "language" = some l.language) :
    ofValue? (.object members) = some l := by
  rw [ofValue?, if_pos ⟨hdistinct, htype⟩, hname, hfile, hline, hcolumn, hqualifier, hlocal,
    hlanguage]
  rfl

def ofJson? (text : List Char) : Option TagLine :=
  (Json.parse? text).bind ofValue?

end TagLine

end TagIndex
