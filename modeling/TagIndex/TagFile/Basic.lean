import TagIndex.Failure
import TagIndex.TagFile.Ctags
import TagIndex.TagFile.Json
import TagIndex.Text.Utf8

/-!
# Tags files

A tags file is written piece by piece. `render` gives all of it, `Sink.write` as much of it as fits
into a device of limited room.
-/

namespace TagIndex

inductive Format where
  | ctags
  | json
deriving DecidableEq, Repr, Inhabited

namespace Format

def all : List Format :=
  [ctags, json]

def names : Format → List String
  | ctags => ["ctags"]
  | json => ["json", "jsonl"]

/-- Whether two names are the same, perhaps up to the case of ASCII letters. -/
def sameName (ignoreCase : Bool) (a b : String) : Bool :=
  if ignoreCase then a.toList.map Char.toLower == b.toList.map Char.toLower else a == b

def ofName? (ignoreCase : Bool) (name : String) : Option Format :=
  all.find? fun f => f.names.any (sameName ignoreCase name)

def unknownMessage (name : String) : String :=
  "invalid variant: " ++ name

end Format

/-- How a tags file is written. Only the ctags format has a header. -/
structure TagFile where
  format : Format
  header : Bool
deriving DecidableEq, Repr, Inhabited

namespace TagFile

structure Piece where
  text : String
  /-- Whether the piece is a JSON record, without the line break after it. -/
  isRecord : Bool
deriving DecidableEq, Repr

def Piece.line (text : String) : Piece :=
  { text := text ++ "\n", isRecord := false }

/-- A record of the JSON format and the line break after it. -/
def Piece.record (text : String) : List Piece :=
  [{ text, isRecord := true }, { text := "\n", isRecord := false }]

def pieces (f : TagFile) (lines : List TagLine) : List Piece :=
  match f.format with
  | .ctags =>
    (if f.header then Ctags.header.map Piece.line else []) ++
      lines.map fun l => Piece.line (Ctags.line l)
  | .json => lines.flatMap fun l => Piece.record (Json.record l)

def render (f : TagFile) (lines : List TagLine) : String :=
  String.join ((f.pieces lines).map (·.text))

end TagFile

/-- A device with room for a number of bytes. It takes what fits and then fails with its fault. -/
structure Sink where
  room : Nat
  fault : IoFault
deriving DecidableEq, Repr

/-- What became of the writing: the bytes that the sink took, and the failure if it did not take
all. -/
structure Written where
  bytes : List UInt8
  failure : Option Failure
deriving DecidableEq, Repr

namespace Sink

def writePieces (s : Sink) : List TagFile.Piece → Written
  | [] => { bytes := [], failure := none }
  | p :: ps =>
    let bytes := Text.utf8 p.text.toList
    if bytes.length ≤ s.room then
      let later := writePieces { s with room := s.room - bytes.length } ps
      { later with bytes := bytes ++ later.bytes }
    else
      { bytes := bytes.take s.room
        failure := some (if p.isRecord then .json s.fault else .io s.fault) }

def write (s : Sink) (f : TagFile) (lines : List TagLine) : Written :=
  s.writePieces (f.pieces lines)

end Sink

end TagIndex
