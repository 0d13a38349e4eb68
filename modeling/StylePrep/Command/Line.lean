import StylePrep.Project.Settings

/-!
# Command lines

What a command line asks for, and what can be wrong with one.
-/

namespace StylePrep

/-- How much a command tells about its work. -/
structure Verbosity where
  /-- Tell details as well. -/
  verbose : Bool := false
  /-- Tell errors only. -/
  quiet : Bool := false
  deriving DecidableEq, Repr

/-- What the preprocess command prints: the assembled output, its line map, or the
origin of one of its lines. -/
inductive View where
  | output
  | lineMap
  | origin (line : Nat)
  deriving DecidableEq, Repr

inductive Shell where
  | bash
  | elvish
  | fish
  | powershell
  | zsh
  deriving DecidableEq, Repr

def Shell.ofName? (name : Text) : Option Shell :=
  match name.asString with
  | "bash" => some bash
  | "elvish" => some elvish
  | "fish" => some fish
  | "powershell" => some powershell
  | "zsh" => some zsh
  | _ => none

inductive Command where
  /-- Build the style sheets that `files` names, or the sources of the project. -/
  | build (files : List Path) (flags : Flags)
  /-- Preprocess one style sheet, or the standard input. -/
  | preprocess (file : Option Path) (view : View) (flags : Flags)
  | completions (shell : Shell)
  deriving DecidableEq, Repr

/-- A whole command line. -/
structure CommandLine where
  verbosity : Verbosity
  command : Command
  deriving DecidableEq, Repr

/-- Why a command line is not carried out. -/
inductive UsageError where
  /-- It asks for help. -/
  | help
  /-- It asks for the version. -/
  | version
  /-- Nothing is given at all. -/
  | nothingGiven
  /-- No command is given. -/
  | noCommand
  | unknownCommand
  | unknownArgument
  /-- Two arguments exclude one another, or one is given twice. -/
  | conflict
  /-- An option or argument has no value. -/
  | noValue
  /-- A value is none of those that can be chosen from. -/
  | unknownChoice
  /-- A flag is given a value. -/
  | needlessValue
  /-- A value is no number, or out of range. -/
  | malformedValue
  /-- An argument that has to be given is not. -/
  | noArgument
  deriving DecidableEq, Repr

end StylePrep
