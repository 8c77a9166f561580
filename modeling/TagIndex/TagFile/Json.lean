import TagIndex.Tag.Basic

/-!
# The JSON format

One object a line. A missing `scope` says that a tag has no qualifier, a missing `fileLocal` that it
is not file-local.
-/

namespace TagIndex.Json

/-- A character inside a JSON string. Only the quote, the backslash and control characters need an
escape. -/
def escapeChar (c : Char) : List Char :=
  if c = '\x22' then ['\\', '\x22']
  else if c = '\\' then ['\\', '\\']
  else if c = '\x08' then ['\\', 'b']
  else if c = '\x0c' then ['\\', 'f']
  else if c = '\n' then ['\\', 'n']
  else if c = '\r' then ['\\', 'r']
  else if c = '\t' then ['\\', 't']
  else if c.toNat < 0x20 then
    ['\\', 'u', '0', '0', Nat.digitChar (c.toNat / 16), Nat.digitChar (c.toNat % 16)]
  else [c]

def quote (s : String) : String :=
  "\"" ++ String.ofList (s.toList.flatMap escapeChar) ++ "\""

def record (l : TagLine) : String :=
  let scope :=
    match l.tag.qualifier with
    | some q => ",\"scope\":" ++ quote q
    | none => ""
  let isLocal := if l.tag.isLocal then ",\"fileLocal\":true" else ""
  "\x7b\"_type\":\"tag\",\"name\":" ++ quote l.tag.name ++ ",\"path\":" ++ quote l.file ++
    ",\"line\":" ++ l.tag.position.line.toNat.repr ++
    ",\"column\":" ++ l.tag.position.column.toNat.repr ++
    scope ++ isLocal ++ ",\"language\":" ++ quote l.language ++ "\x7d"

end TagIndex.Json
