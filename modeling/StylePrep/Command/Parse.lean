import StylePrep.Command.Line
import StylePrep.Text.Number

/-!
# Reading command lines

Arguments are read from left to right on two levels: those in front of the name of
a command, and those behind it. `--name` and `-n` are options; short ones can be
joined, as in `-vq`. The value of an option is the argument behind it, or is
attached: `--name=value`, `-nvalue` or `-n=value`. Behind `--` there are no
options.

A value is looked at when it is known to be complete: when the next option or
another kind of argument starts, or at the end. An argument that is not understood
is reported right away, and so hides a fault of the value in front of it.
-/

namespace StylePrep

open Text

inductive CommandOption where
  | verbose
  | quiet
  | help
  | version
  | map
  | lookup
  | includes
  | dir
  | gen
  | build
  | spacing
  | function
  | manifest
  deriving DecidableEq, Repr

/-- Where arguments stand: before the command, or behind one. -/
inductive Level where
  | top
  | build
  | preprocess
  | completions
  deriving DecidableEq, Repr

namespace CommandOption

def takesValue : CommandOption → Bool
  | verbose | quiet | help | version | map => false
  | _ => true

/-- The long and the short name of an option. -/
def names : CommandOption → String × Option Char
  | verbose => ("verbose", some 'v')
  | quiet => ("quiet", some 'q')
  | help => ("help", some 'h')
  | version => ("version", some 'V')
  | map => ("map", none)
  | lookup => ("lookup", none)
  | includes => ("includes", some 'p')
  | dir => ("dir", some 'd')
  | gen => ("gen", none)
  | build => ("build", some 'b')
  | spacing => ("spacing", none)
  | function => ("function", none)
  | manifest => ("manifest", none)

end CommandOption

namespace Level

def ofName? (name : Text) : Option Level :=
  match name.asString with
  | "build" => some build
  | "preprocess" => some preprocess
  | "completions" => some completions
  | _ => none

/-- Whether a name is that of a command, the one for help included. -/
def isCommandName (name : Text) : Bool := (ofName? name).isSome || name = "help".toList

def options (level : Level) : List CommandOption :=
  let everywhere : List CommandOption := [.verbose, .quiet, .help]
  let project : List CommandOption :=
    [.includes, .dir, .gen, .build, .spacing, .function, .manifest]
  match level with
  | top => .version :: everywhere
  | build => everywhere ++ project
  | preprocess => .map :: .lookup :: everywhere ++ project
  | completions => everywhere

def long? (level : Level) (name : Text) : Option CommandOption :=
  level.options.find? fun o => o.names.1.toList = name

def short? (level : Level) (c : Char) : Option CommandOption :=
  level.options.find? fun o => o.names.2 = some c

/-- Whether `n` arguments that are no options can be given on a level. -/
def admits (level : Level) (n : Nat) : Bool :=
  match level with
  | top => n = 0
  | build => true
  | preprocess | completions => n ≤ 1

end Level

structure Given where
  verbosity : Verbosity := {}
  map : Bool := false
  lookup : Option Nat := none
  flags : Flags := {}
  shell : Option Shell := none
  files : List Path := []
  deriving DecidableEq, Repr

/-- A value that is being read: that of an option, or arguments that are none. -/
inductive Pending where
  | option (o : CommandOption) (value : Option Text)
  | plain (values : List Text)
  deriving DecidableEq, Repr

structure Progress where
  given : Given := {}
  pending : Option Pending := none
  /-- Whether `--` has been met. -/
  literal : Bool := false
  deriving DecidableEq, Repr

namespace Given

/-- Refuse what is given twice. -/
def once {α : Type} (before : Option α) : Except UsageError Unit :=
  if before.isSome then .error .conflict else .ok ()

def onceFlag (before : Bool) : Except UsageError Unit :=
  if before then .error .conflict else .ok ()

/-- A path must not be empty. -/
def pathValue (value : Text) : Except UsageError Path :=
  if value = [] then .error .noValue else .ok ⟨value⟩

/-- A number of pixels has 32 bits. -/
def spacingValue (value : Text) : Except UsageError Nat :=
  match (int64? value).filter fun (i : Int) => 0 ≤ i && i < bound32 with
  | some i => .ok i.toNat
  | none => .error .malformedValue

def lineValue (value : Text) : Except UsageError Nat :=
  match (nat? value).filter (· < bound64) with
  | some n => .ok n
  | none => .error .malformedValue

def addFlag (given : Given) : CommandOption → Except UsageError Given
  | .help => .error .help
  | .version => .error .version
  | .verbose => do
    onceFlag given.verbosity.verbose
    return { given with verbosity.verbose := true }
  | .quiet => do
    onceFlag given.verbosity.quiet
    return { given with verbosity.quiet := true }
  | .map => do
    onceFlag given.map
    return { given with map := true }
  | _ => .error .noValue

def addOption (given : Given) (o : CommandOption) (value : Text) : Except UsageError Given :=
  match o with
  | .lookup => do
    once given.lookup
    return { given with lookup := some (← lineValue value) }
  | .includes => do
    return { given with
      flags.includePaths := given.flags.includePaths ++ [← pathValue value] }
  | .dir => do
    once given.flags.imageDir
    return { given with flags.imageDir := some (← pathValue value) }
  | .gen => do
    once given.flags.genDir
    return { given with flags.genDir := some (← pathValue value) }
  | .build => do
    once given.flags.buildDir
    return { given with flags.buildDir := some (← pathValue value) }
  | .spacing => do
    once given.flags.spacing
    return { given with flags.spacing := some (← spacingValue value) }
  | .function => .ok { given with flags.functions := given.flags.functions ++ [value] }
  | .manifest => do
    once given.flags.manifest
    return { given with flags.manifest := some (← pathValue value) }
  | _ => .error .needlessValue

/-- What is given with one more argument that is no option. -/
def addPlain (level : Level) (given : Given) (value : Text) : Except UsageError Given :=
  match level with
  | .completions =>
    match Shell.ofName? value with
    | some shell => .ok { given with shell := some shell }
    | none => .error .unknownChoice
  | _ => do return { given with files := given.files ++ [← pathValue value] }

end Given

namespace Progress

/-- Look at the value that is being read. -/
def settle (level : Level) (p : Progress) : Except UsageError Progress :=
  match p.pending with
  | none => .ok p
  | some (.option _ none) => .error .noValue
  | some (.option o (some value)) => do
    return { p with given := ← p.given.addOption o value, pending := none }
  | some (.plain values) => do
    return { p with given := ← values.foldlM (Given.addPlain level) p.given, pending := none }

def flag (level : Level) (p : Progress) (o : CommandOption) : Except UsageError Progress := do
  let p ← p.settle level
  return { p with given := ← p.given.addFlag o }

/-- Read an option that takes a value, which may be attached to it. -/
def option (level : Level) (p : Progress) (o : CommandOption) (attached : Option Text) :
    Except UsageError Progress := do
  let p ← p.settle level
  match attached with
  | some value => return { p with given := ← p.given.addOption o value }
  | none => return { p with pending := some (.option o none) }

def long (level : Level) (p : Progress) (arg : Text) : Except UsageError Progress :=
  let (name, attached) := match splitOnce? '=' arg with
    | some (name, value) => (name, some value)
    | none => (arg, none)
  match level.long? name with
  | none => .error .unknownArgument
  | some o =>
    if o.takesValue then p.option level o attached
    else if attached.isSome then .error .needlessValue
    else p.flag level o

def shorts (level : Level) (p : Progress) : Text → Except UsageError Progress
  | [] => .ok p
  | c :: rest =>
    match level.short? c with
    | none => .error .unknownArgument
    | some o =>
      if o.takesValue then
        p.option level o (match rest with
          | [] => none
          | '=' :: value => some value
          | value => some value)
      else do shorts level (← p.flag level o) rest

def plainCount (p : Progress) : Nat :=
  p.given.files.length + p.given.shell.toList.length + match p.pending with
    | some (.plain values) => values.length
    | _ => 0

def plain (level : Level) (p : Progress) (arg : Text) : Except UsageError Progress :=
  if !level.admits (p.plainCount + 1) then
    .error (if level = .top ∧ !(p.literal ∧ Level.isCommandName arg) then .unknownCommand
      else .unknownArgument)
  else match p.pending with
    | some (.plain values) => .ok { p with pending := some (.plain (values ++ [arg])) }
    | _ => do return { ← p.settle level with pending := some (.plain [arg]) }

def step (level : Level) (p : Progress) (arg : Text) : Except UsageError Progress :=
  if p.literal then p.plain level arg
  else match arg with
    | ['-', '-'] => .ok { p with literal := true }
    | '-' :: '-' :: rest => p.long level rest
    | '-' :: c :: rest => p.shorts level (c :: rest)
    | _ =>
      match p.pending with
      | some (.option o none) => .ok { p with pending := some (.option o (some arg)) }
      | _ => p.plain level arg

end Progress

namespace CommandLine

/-- What is given on a level once all its arguments are read. -/
def finish (p : Progress) (level : Level) : Except UsageError Given := do
  let p ← p.settle level
  if p.given.verbosity.verbose ∧ p.given.verbosity.quiet then .error .conflict
  else .ok p.given

def commandOf (level : Level) (given : Given) : Except UsageError Command :=
  match level with
  | .top => .error .noCommand
  | .build => .ok (.build given.files given.flags)
  | .preprocess =>
    let view : View := match given.lookup with
      | some line => .origin line
      | none => if given.map then .lineMap else .output
    .ok (.preprocess given.files.head? view given.flags)
  | .completions =>
    match given.shell with
    | some shell => .ok (.completions shell)
    | none => .error .noArgument

def behindName (level : Level) (args : List Text) : Except UsageError CommandLine := do
  let given ← finish (← args.foldlM (Progress.step level) {}) level
  return ⟨given.verbosity, ← commandOf level given⟩

def helpOn : List Text → UsageError
  | [] => .help
  | [name] => if Level.isCommandName name then .help else .unknownCommand
  | _ => .unknownCommand

/-- Read a command line from its top level on. -/
def parseFrom (p : Progress) : List Text → Except UsageError CommandLine
  | [] =>
    .error (if p.given = {} then .nothingGiven else .noCommand)
  | arg :: args =>
    if !p.literal ∧ arg = "help".toList then .error (helpOn args)
    else match if p.literal then none else Level.ofName? arg with
      | some level => do
        let line ← behindName level args
        let given ← finish p .top
        let verbosity : Verbosity :=
          { verbose := given.verbosity.verbose || line.verbosity.verbose
            quiet := given.verbosity.quiet || line.verbosity.quiet }
        return { line with verbosity }
      | none => do parseFrom (← p.step .top arg) args

/-- Read a command line, without the name of the program. -/
def parse (args : List Text) : Except UsageError CommandLine := parseFrom {} args

end CommandLine

end StylePrep
