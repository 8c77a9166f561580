import TagIndex.Decl.OfTree
import TagIndex.Failure
import TagIndex.Language
import TagIndex.Notice
import TagIndex.Tag.OfDecl

/-!
# Indexing sources

`Indexer.source` gives the tag lines of one source in the order of its declarations. A source with
syntax errors is refused unless the indexer is tolerant; then what the parser recovered is indexed.
`Indexer.files` indexes many files: a file that fails is recorded and takes nothing from the others.
-/

namespace TagIndex

def Tag.ofTree (src : List Char) (root : Tree) : List Tag :=
  Tag.ofSource (Decl.ofSource src root)

structure Indexer where
  registry : Registry
  tolerant : Bool

/-- What came out of indexing some files. -/
structure Batch where
  /-- The lines of all files that were indexed, sorted. -/
  lines : List TagLine
  /-- The failures of the other files, in the order of the files. -/
  failures : List Failure
  filesIndexed : Nat

namespace Batch

def hasFailures (b : Batch) : Bool :=
  !b.failures.isEmpty

def filesTried (b : Batch) : Nat :=
  b.filesIndexed + b.failures.length

end Batch

namespace Indexer

/-- The tag lines of a source of `file` in the language of `grammar`. -/
def parsed (ix : Indexer) (grammar : Grammar) (file source : String) :
    Except Failure (List TagLine) := do
  let root ← (grammar.parse source).mapError Failure.grammar
  let lines := (Tag.ofTree source.toList root).map fun tag =>
    { tag, file, language := grammar.name : TagLine }
  match root.diagnostic? source.toList with
  | some diagnostic => if ix.tolerant then return lines else throw (.parse file diagnostic)
  | none => return lines

def source (ix : Indexer) (file source : String) : Except Failure (List TagLine) :=
  match ix.registry.forFile? file with
  | some grammar => ix.parsed grammar file source
  | none => .error (.unsupported file)

/-- What comes of a source that the parser gives a tree for. -/
theorem parsed_eq {ix : Indexer} {grammar : Grammar} {source : String} {root : Tree}
    (h : grammar.parse source = .ok root) (file : String) :
    ix.parsed grammar file source =
      (if ix.tolerant then none else (root.diagnostic? source.toList).map (Failure.parse file)).elim
        (.ok ((Tag.ofTree source.toList root).map fun tag =>
          { tag, file, language := grammar.name })) .error := by
  have hroot : (grammar.parse source).mapError Failure.grammar = .ok root := by
    rw [h]
    rfl
  rw [parsed, hroot]
  simp only [bind, Except.bind]
  cases root.diagnostic? source.toList <;> cases ix.tolerant <;> rfl

theorem source_eq {ix : Indexer} {file : String} {grammar : Grammar}
    (h : ix.registry.forFile? file = some grammar) (source : String) :
    ix.source file source = ix.parsed grammar file source := by
  rw [Indexer.source, h]

/-- The tag lines of a file. It is read only if its language is known. -/
def file (ix : Indexer) (read : String → Except IoFault String) (path : String) :
    Except Failure (List TagLine) :=
  match ix.registry.forFile? path with
  | some grammar =>
    match read path with
    | .ok source => ix.parsed grammar path source
    | .error fault => .error (.read path fault)
  | none => .error (.unsupported path)

def collect (outcomes : List (Except Failure (List TagLine))) : Batch :=
  let indexed := outcomes.filterMap Except.toOption
  { lines := TagLine.sort indexed.flatten
    failures := outcomes.filterMap fun
      | .error f => some f
      | .ok _ => none
    filesIndexed := indexed.length }

def files (ix : Indexer) (read : String → Except IoFault String) (paths : List String) : Batch :=
  collect (paths.map (ix.file read))

/-! ### What indexing tells -/

/-- The log events of a file. One that fails has none: it is among the failures. -/
def fileNotices (ix : Indexer) (read : String → Except IoFault String) (path : String) :
    List Notice :=
  match ix.registry.forFile? path, read path with
  | some grammar, .ok source =>
    match grammar.parse source, ix.parsed grammar path source with
    | .ok root, .ok lines =>
      let recovered := (root.diagnostic? source.toList).map fun diagnostic =>
        .log .warn ((Failure.parse path diagnostic).message ++ "; indexing recovered tree")
      recovered.toList ++ [.log .debug (path ++ ": " ++ lines.length.repr ++ " tags")]
    | _, _ => []
  | _, _ => []

/-- What is told while some files are indexed, of which `batch` comes out. They are listed in their
order here; the program works on several at once and may finish a later one first. -/
def notices (ix : Indexer) (read : String → Except IoFault String) (progress : Bool)
    (paths : List String) (batch : Batch) : List Notice :=
  let perFile := (paths.zipIdx 1).flatMap fun (path, tried) =>
    ix.fileNotices read path ++ if progress then [.progress tried paths.length] else []
  let summary := "Indexed " ++ batch.lines.length.repr ++ " tags from " ++
    batch.filesIndexed.repr ++ " files (" ++ batch.failures.length.repr ++ " failed)"
  perFile ++ [.log .info summary] ++ if progress then [.progressCleared] else []

end Indexer

end TagIndex
