import TagIndex.CommandLine
import TagIndex.FileTree.Edit
import TagIndex.Index
import TagIndex.Walk

/-!
# Runs of the program

`generate` does what the options ask for on a file tree: it walks the paths, indexes the files and
writes one tags file. Paths and files that fail are reported and left out. A failure that does not
concern a single file ends the run before anything is written.

`run` goes from the arguments to the exit code. On the standard error there are the reports and,
before and after them, whatever a logger and a progress bar show of the run's notices; how they show
it is left open, and so are log events of the libraries.
-/

namespace TagIndex

/-- What a run tells the user: notices, which may be shown or not, and lines of its own on the
standard error. -/
inductive Message where
  | notice (n : Notice)
  | report (line : String)

def Message.shown (display : Notice → String) : Message → String
  | notice n => display n
  | report line => line

/-- What a run leaves behind. -/
structure Outcome (α : Type) where
  result : α
  stdout : String
  messages : List Message
  files : FileTree

namespace Outcome

variable {α : Type}

/-- The standard error where notices are shown there, each as `display` says. -/
def stderrWith (display : Notice → String) (out : Outcome α) : String :=
  String.join (out.messages.map (Message.shown display))

/-- The standard error where no notice is shown. -/
def stderr (out : Outcome α) : String :=
  out.stderrWith fun _ => ""

end Outcome

def Options.writesToStdout (o : Options) : Bool :=
  Path.same o.output "-"

def Failure.report (f : Failure) : String :=
  "error: " ++ f.message ++ "\n"

/-- Creates or replaces a file, if that is allowed. -/
def View.write (v : View) (t : FileTree) (path : String) (bytes : ByteArray) :
    Except IoFault FileTree :=
  match v.forbids path with
  | some fault => .error fault
  | none => t.write path bytes

def writeOutput (v : View) (t : FileTree) (o : Options) (messages : List Message)
    (lines : List TagLine) (failed : Nat) : Outcome (Except Failure Nat) :=
  let text := TagFile.render { format := o.format, header := !o.noHeader } lines
  let written : Message :=
    .notice (.log .debug ("Wrote " ++ lines.length.repr ++ " tags to " ++ o.output))
  if o.writesToStdout then
    { result := .ok failed, stdout := text, messages := messages ++ [written], files := t }
  else
    match v.write t o.output text.toUTF8 with
    | .ok files => { result := .ok failed, stdout := "", messages := messages ++ [written], files }
    | .error fault => { result := .error (.io fault), stdout := "", messages, files := t }

/-- Tells the failures and writes the tag lines, unless a failure ends the run. -/
def finish (v : View) (t : FileTree) (o : Options) (notices : List Notice)
    (failures : List Failure) (lines : List TagLine) : Outcome (Except Failure Nat) :=
  let told := notices.map Message.notice
  match failures.find? (!·.isPerFile) with
  | some f => { result := .error f, stdout := "", messages := told, files := t }
  | none =>
    writeOutput v t o (told ++ failures.map fun f => .report f.report) lines failures.length

/-- Indexes the paths of the options, where the file system is seen as `v` says. The result is the
number of paths and files that failed. -/
def generateBy (v : View) (t : FileTree) (registry : Registry) (o : Options) :
    Outcome (Except Failure Nat) :=
  match Walker.make registry o.excludes (!o.noIgnore) with
  | .error f => { result := .error f, stdout := "", messages := [], files := t }
  | .ok walker =>
    let walked := walker.walkAll v o.paths
    let found := "Found " ++ walked.files.length.repr ++ " files to index"
    let ix : Indexer := { registry, tolerant := o.tolerant }
    let batch := ix.files v.read walked.files
    let notices := walked.notices ++
      .log .debug found :: ix.notices v.read o.progress walked.files batch
    finish v t o notices (walked.failures ++ batch.failures) batch.lines

def generate (t : FileTree) (registry : Registry) (o : Options) : Outcome (Except Failure Nat) :=
  generateBy t.view t registry o

/-! ### The program -/

def usage : String :=
  "Usage: " ++ Ctags.programName ++ " [OPTIONS] <PATHS>...\n"

def helpText : String :=
  "Generate a ctags index of Scala declarations\n\n" ++ usage ++
  "\nArguments:\n  <PATHS>...  Files or directories to index\n\nOptions:\n" ++
  "  -f, --output <OUTPUT>  Tags file to write, `-` for stdout [default: tags]\n" ++
  "      --format <FORMAT>  Output format [default: ctags] [possible values: ctags, json]\n" ++
  "      --no-header        Omit the !_TAG_ pseudo-tag header\n" ++
  "      --exclude <GLOB>   Skip paths matching this glob (repeatable)\n" ++
  "      --no-ignore        Also index hidden and git-ignored files\n" ++
  "      --tolerant         Index files with syntax errors instead of failing them\n" ++
  "      --progress         Show a progress bar on stderr\n" ++
  "  -h, --help             Print help\n" ++
  "  -V, --version          Print version\n"

def CommandLine.Refusal.message : CommandLine.Refusal → String
  | .help => helpText
  | .version => Ctags.programName ++ " " ++ Ctags.programVersion ++ "\n"
  | .missingPath => "error: a path is required\n\n" ++ usage
  | .invalidValue => "error: invalid or missing value\n\n" ++ usage
  | .unknownArgument => "error: unexpected argument\n\n" ++ usage
  | .repeated => "error: an option cannot be used multiple times\n\n" ++ usage
  | .unwantedValue => "error: unexpected value for an option\n\n" ++ usage

/-- Ends the program without a run: help and version are answers, anything else is an error. -/
def refuse (t : FileTree) (r : CommandLine.Refusal) : Outcome UInt32 :=
  match r with
  | .help | .version => { result := 0, stdout := r.message, messages := [], files := t }
  | _ => { result := 2, stdout := "", messages := [.report r.message], files := t }

/-- What is told about the failure that ended a run. -/
def Failure.finalReport (f : Failure) : String :=
  match f.cause? with
  | some cause => "Error: " ++ f.message ++ "\n\nCaused by:\n    " ++ cause ++ "\n"
  | none => "Error: " ++ f.message ++ "\n"

/-- The program. The result is the exit code. -/
def run (t : FileTree) (registry : Registry) (args : List String) : Outcome UInt32 :=
  match CommandLine.parse args with
  | .error r => refuse t r
  | .ok o =>
    let out := generate t registry o
    match out.result with
    | .ok 0 => { out with result := 0 }
    | .ok failed =>
      let last := "Error: " ++ failed.repr ++ " file(s) could not be indexed\n"
      { out with result := 1, messages := out.messages ++ [.report last] }
    | .error f =>
      { out with result := 1, messages := out.messages ++ [.report f.finalReport] }

end TagIndex
