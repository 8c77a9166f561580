import TagIndex.Tag.Basic

/-!
# The ctags format

One line a tag, fields separated by tabs, after four lines of pseudo-tags that describe the file.
-/

namespace TagIndex.Ctags

def programName : String := "scala-ctags"

def programVersion : String := "0.1.0"

def header : List String :=
  ["!_TAG_FILE_FORMAT\t2\t/extended format; --format=1 will not append ;\" to lines/",
   "!_TAG_FILE_SORTED\t1\t/0=unsorted, 1=sorted, 2=foldcase/",
   "!_TAG_PROGRAM_NAME\t" ++ programName ++ "\t//",
   "!_TAG_PROGRAM_VERSION\t" ++ programVersion ++ "\t//"]

/-- The place of a tag: the command that takes an editor there, and the end of the command. -/
def address (p : Position) : String :=
  p.line.toNat.repr ++ "G" ++ p.column.toNat.repr ++ "|;\""

/-- The line of a tag. A file-local tag repeats its file. -/
def line (l : TagLine) : String :=
  let file := if l.tag.isLocal then "file:" ++ l.file ++ "\t" else ""
  l.fullName ++ "\t" ++ l.file ++ "\t" ++ address l.tag.position ++ "\t" ++ file ++
    "language:" ++ l.language

end TagIndex.Ctags
