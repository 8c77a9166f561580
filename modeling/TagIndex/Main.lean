import TagIndex.Run
import TagIndex.Tree.Listing

/-!
# The command

A run works on a copy of the file system around the working directory and the paths on the command
line; afterwards the files that it changed are written back. Sources are parsed beforehand: the
syntax tree of `A.scala` is listed in `A.scala.tree` beside it.
-/

namespace TagIndex.Command

def located (path : String) : Location :=
  (FileTree.names path).filter (!·.isEmpty)

def attempt {α : Type} (action : IO α) : IO (Option α) :=
  try some <$> action catch _ => pure none

/-- Where a path leads to in the end. -/
def target? (path : String) : IO (Option Location) := do
  return (← attempt (IO.FS.realPath path)).map fun p => located p.toString

/-- The entry at a location with all that is below it. Links are kept as links. -/
partial def copy? (l : Location) : IO (Option Entry) := do
  let some target ← attempt (IO.FS.realPath (FileTree.absolutePath l)) | return none
  if located target.toString ≠ l then return some (.link target.toString)
  match ← attempt target.readDir with
  | some inside =>
    let entries ← inside.toList.filterMapM fun e => do
      return (← copy? (l ++ [e.fileName])).map (e.fileName, ·)
    return some (.directory entries)
  | none => return (← attempt (IO.FS.readBinFile (FileTree.absolutePath l))).map .file

def add (t : FileTree) (l : Location) : IO FileTree := do
  if (t.entry? l).isSome then return t
  match ← copy? l with
  | some e => return t.insert l e
  | none => return t

/-- Adds the entry at a location, and the ignore files of the directories above it. -/
def addWithRules (t : FileTree) (l : Location) : IO FileTree := do
  let rules := (FileTree.above l).flatMap fun dir =>
    [".ignore", ".gitignore", ".git", ".jj"].map fun name => dir ++ [name]
  rules.foldlM add (← add t l)

def addPath (t : FileTree) (path : String) : IO FileTree := do
  match ← target? path with
  | some l => addWithRules t l
  | none => return t

/-- Adds what the `.git` file of a linked working tree leads to. -/
def addLinked (t : FileTree) (gitFile : ByteArray) : IO FileTree := do
  let some linked := Ignore.linkedDirectory? gitFile | return t
  let commondir := Path.join linked "commondir"
  let some bytes ← attempt (IO.FS.readBinFile commondir) | return t
  let some common := Ignore.commonDirectory? linked bytes | return t
  addPath (← addPath t commondir) (Path.join common "info/exclude")

/-- The part of the file system that a run with these arguments can reach. -/
def copyFor (args : List String) : IO FileTree := do
  let here := located (← IO.currentDir).toString
  let t ← addWithRules { FileTree.empty with workingDirectory := here } here
  let t ← args.foldlM addPath t
  let gitFiles := (t.top.files []).filter fun f => f.1.getLast? = some ".git"
  (gitFiles.map (·.2)).foldlM addLinked t

def parsedSources (t : FileTree) : List (String × Tree) :=
  (t.top.files []).filterMap fun (l, listing) => do
    let name ← l.getLast?
    let source := if name.endsWith ".tree" then (name.dropEnd 5).toString else ""
    let bytes ← (t.bytesAt (l.dropLast ++ [source])).toOption
    return (← String.fromUTF8? bytes, ← Tree.ofListing? (← String.fromUTF8? listing))

def parse (table : List (String × Tree)) (source : String) : Except String Tree :=
  match table.lookup source with
  | some tree => .ok tree
  | none => .error "Parser returned no tree"

/-- Writes the files that differ from what they were. -/
def writeBack (before after : FileTree) : IO Unit := do
  for (l, bytes) in after.top.files [] do
    if (before.bytesAt l).toOption.map (·.data) ≠ some bytes.data then
      IO.FS.writeBinFile (FileTree.absolutePath l) bytes

/-- How a notice is shown: log events that matter to the user, and no progress bar. -/
def shown : Notice → String
  | .log .info text => " INFO " ++ text ++ "\n"
  | .log .warn text => " WARN " ++ text ++ "\n"
  | _ => ""

end TagIndex.Command

def main (args : List String) : IO UInt32 := do
  let before ← TagIndex.Command.copyFor args
  let registry := TagIndex.Registry.scala
    (TagIndex.Command.parse (TagIndex.Command.parsedSources before))
  let out := TagIndex.run before registry args
  IO.eprint (out.stderrWith TagIndex.Command.shown)
  TagIndex.Command.writeBack before out.files
  IO.print out.stdout
  return out.result
