import TagIndex.TagFile.Basic

/-!
# The command line

Arguments are read from left to right. An option that takes a value and has none attached waits for
the next argument, and paths are collected; what waits is settled, and only then checked, when the
next option comes or the arguments end. An argument that is not known ends the reading at once.
-/

namespace TagIndex

structure Options where
  paths : List String
  output : String
  format : Format
  noHeader : Bool
  excludes : List String
  noIgnore : Bool
  tolerant : Bool
  progress : Bool
deriving DecidableEq, Repr, Inhabited

namespace CommandLine

inductive Refusal where
  | help
  | version
  | missingPath
  | invalidValue
  | unknownArgument
  | repeated
  /-- A value attached to an option that takes none. -/
  | unwantedValue
deriving DecidableEq, Repr

/-- Options that take no value. -/
inductive Switch where
  | noHeader
  | noIgnore
  | tolerant
  | progress
deriving DecidableEq, Repr

/-- Options that take a value. -/
inductive Setting where
  | output
  | format
  | exclude
deriving DecidableEq, Repr

inductive Opt where
  | switch (s : Switch)
  | setting (s : Setting)
  | help
  | version
deriving DecidableEq, Repr

def longOption? : String → Option Opt
  | "output" => some (.setting .output)
  | "format" => some (.setting .format)
  | "exclude" => some (.setting .exclude)
  | "no-header" => some (.switch .noHeader)
  | "no-ignore" => some (.switch .noIgnore)
  | "tolerant" => some (.switch .tolerant)
  | "progress" => some (.switch .progress)
  | "help" => some .help
  | "version" => some .version
  | _ => none

def shortOption? : Char → Option Opt
  | 'f' => some (.setting .output)
  | 'h' => some .help
  | 'V' => some .version
  | _ => none

/-- What has been read but not checked yet. -/
inductive Waiting where
  | nothing
  /-- A setting, with its value if that has come. -/
  | setting (s : Setting) (value : Option String)
  | paths (paths : List String)
deriving DecidableEq, Repr

structure State where
  options : Options
  /-- The options that must not come again. -/
  given : List Opt
  waiting : Waiting
deriving DecidableEq, Repr

namespace State

def start : State :=
  { options :=
      { paths := [], output := "tags", format := .ctags, noHeader := false, excludes := []
        noIgnore := false, tolerant := false, progress := false }
    given := []
    waiting := .nothing }

/-- Notes that an option has come. All but excludes come at most once. -/
def note (s : State) (o : Opt) : Except Refusal State :=
  if s.given.contains o then .error .repeated
  else if o = .setting .exclude then .ok s
  else .ok { s with given := o :: s.given }

def set (s : State) (setting : Setting) (value : String) : Except Refusal State := do
  let s ← s.note (.setting setting)
  match setting with
  | .output =>
    if value.isEmpty then throw .invalidValue
    else return { s with options := { s.options with output := value } }
  | .format =>
    match Format.ofName? false value with
    | some format => return { s with options := { s.options with format } }
    | none => throw .invalidValue
  | .exclude =>
    return { s with options := { s.options with excludes := s.options.excludes ++ [value] } }

def turnOn (s : State) (switch : Switch) : Except Refusal State := do
  let s ← s.note (.switch switch)
  let options :=
    match switch with
    | .noHeader => { s.options with noHeader := true }
    | .noIgnore => { s.options with noIgnore := true }
    | .tolerant => { s.options with tolerant := true }
    | .progress => { s.options with progress := true }
  return { s with options }

def settle (s : State) : Except Refusal State :=
  let s' := { s with waiting := .nothing }
  match s.waiting with
  | .nothing => .ok s'
  | .setting _ none => .error .invalidValue
  | .setting setting (some value) => s'.set setting value
  | .paths paths =>
    if paths.any String.isEmpty then .error .invalidValue
    else .ok { s' with options := { s'.options with paths := s'.options.paths ++ paths } }

def addPath (s : State) (path : String) : Except Refusal State :=
  match s.waiting with
  | .paths paths => .ok { s with waiting := .paths (paths ++ [path]) }
  | _ => do
    let s ← s.settle
    return { s with waiting := .paths [path] }

/-- Reads an argument that is no option: the value of a setting that waits for one, else a path. -/
def addPlain (s : State) (arg : String) : Except Refusal State :=
  match s.waiting with
  | .setting setting none => .ok { s with waiting := .setting setting (some arg) }
  | _ => s.addPath arg

def addOption (s : State) (o : Opt) (attached : Option String) : Except Refusal State :=
  match o, attached with
  | .setting setting, some value => do (← s.settle).set setting value
  | .setting setting, none => do return { ← s.settle with waiting := .setting setting none }
  | _, some _ => .error .unwantedValue
  | .switch switch, none => do (← s.settle).turnOn switch
  | .help, none => do let _ ← s.settle; throw .help
  | .version, none => do let _ ← s.settle; throw .version

/-- Reads an option after its two dashes. A value is attached with an equals sign. -/
def addLong (s : State) (body : List Char) : Except Refusal State :=
  let attached :=
    match body.dropWhile (· ≠ '=') with
    | [] => none
    | _ :: value => some (String.ofList value)
  match longOption? (String.ofList (body.takeWhile (· ≠ '='))) with
  | some o => s.addOption o attached
  | none => .error .unknownArgument

/-- Reads an option of one letter and what follows the letter: nothing, or the value of a setting,
perhaps after an equals sign. -/
def addShort (s : State) (letter : Char) (body : List Char) : Except Refusal State :=
  match shortOption? letter with
  | some (.setting setting) =>
    let attached :=
      match body with
      | [] => none
      | '=' :: value => some (String.ofList value)
      | value => some (String.ofList value)
    s.addOption (.setting setting) attached
  | some o => s.addOption o none
  | none => .error .unknownArgument

/-- Reads all arguments. After two dashes alone every argument is a path. -/
def addAll (s : State) (onlyPaths : Bool) : List String → Except Refusal State
  | [] => s.settle
  | arg :: args => do
    if onlyPaths then (← s.addPath arg).addAll true args
    else
      match arg.toList with
      | ['-', '-'] => s.addAll true args
      | '-' :: '-' :: body => (← s.addLong body).addAll false args
      | '-' :: letter :: body => (← s.addShort letter body).addAll false args
      | _ => (← s.addPlain arg).addAll false args

end State

/-- What the arguments ask for. There has to be a path. -/
def parse (args : List String) : Except Refusal Options := do
  let s ← State.start.addAll false args
  if s.options.paths.isEmpty then throw .missingPath else return s.options

end CommandLine

end TagIndex
