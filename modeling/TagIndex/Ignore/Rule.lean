import TagIndex.Ignore.Pattern
import TagIndex.Text.Blank
import TagIndex.Text.Fields

/-!
# Rules of ignore files

Each line of an ignore file is a rule, a comment or blank. A rule ignores the paths it matches, or
keeps them if it starts with an exclamation mark, and of the rules that match a path the last one
decides. A pattern with a slash that is not its last character is tied to the directory of its file,
any other matches at every depth. A slash at the end restricts a rule to directories.
-/

namespace TagIndex.Ignore

inductive Verdict where
  | ignore
  | keep
deriving DecidableEq, Repr

structure Rule where
  verdict : Verdict
  onlyDirectories : Bool
  pattern : List Token

namespace Rule

/-- Two stars at the beginning already stand for every depth. -/
def startsAnywhere : List Char → Bool
  | ['*', '*'] => true
  | '*' :: '*' :: '/' :: _ => true
  | _ => false

/-- The full pattern of a rule: it matches at every depth unless it is anchored, and two stars at
the end match what is in a directory but not the directory itself. -/
def completePattern (anchored : Bool) (cs : List Char) : List Char :=
  let cs := if !anchored && !cs.contains '/' && !startsAnywhere cs then "**/".toList ++ cs else cs
  if "/**".toList.isSuffixOf cs then cs ++ "/*".toList else cs

/-- Takes away the slash at the end of a rule for directories, together with a backslash that quotes
it. -/
def dropFinalSlash (cs : List Char) : List Char :=
  let cs := cs.dropLast
  if cs.getLast? = some '\\' then cs.dropLast else cs

/-- The rule for a verdict and the text after all marks at the beginning. -/
def ofPattern? (verdict : Verdict) (anchored : Bool) (cs : List Char) : Option Rule := do
  let onlyDirectories := cs.getLast? = some '/'
  let cs := if onlyDirectories then dropFinalSlash cs else cs
  return { verdict, onlyDirectories, pattern := ← tokens? (completePattern anchored cs) }

/-- The rule of a pattern after its exclamation mark, if any. A slash at the beginning only anchors
the pattern. -/
def ofUnmarked? (verdict : Verdict) : List Char → Option Rule
  | '/' :: cs => ofPattern? verdict true cs
  | cs => ofPattern? verdict false cs

/-- The rule on a line. Blanks at its end do not count unless a backslash quotes the last. A
malformed rule is passed over. -/
def ofLine? (line : List Char) : Option Rule :=
  if line.head? = some '#' then none
  else
    match if "\\ ".toList.isSuffixOf line then line else Text.trimRight line with
    | [] => none
    | '\\' :: '!' :: cs => ofPattern? .ignore false ('!' :: cs)
    | '\\' :: '#' :: cs => ofPattern? .ignore false ('#' :: cs)
    | '!' :: cs => ofUnmarked? .keep cs
    | cs => ofUnmarked? .ignore cs

/-- The lines of a file up to the first that is not UTF-8. -/
def textLines (bytes : List UInt8) : List (List Char) :=
  ((Text.lines bytes).map fun l => String.fromUTF8? ⟨l.toArray⟩).takeWhile Option.isSome
    |>.filterMap fun l => l.map String.toList

/-- The rules of an ignore file. Byte order marks at its beginning do not count. -/
def ofFile (bytes : List UInt8) : List Rule :=
  match textLines bytes with
  | [] => []
  | first :: later => (first.dropWhile (· = '\uFEFF') :: later).filterMap ofLine?

def applies (r : Rule) (isDirectory : Bool) (path : List UInt8) : Bool :=
  (!r.onlyDirectories || isDirectory) && matchesPath r.pattern path

def judge (rules : List Rule) (isDirectory : Bool) (path : List UInt8) : Option Verdict :=
  (rules.reverse.find? (·.applies isDirectory path)).map verdict

end Rule

end TagIndex.Ignore
