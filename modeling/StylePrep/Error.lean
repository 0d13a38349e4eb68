import StylePrep.Balance
import StylePrep.Glob.Pattern
import StylePrep.Signature
import StylePrep.Tree.Basic

/-!
# Errors

Everything that can go wrong, by cause. An error has at most one location, the
`path:line` of the directive it was raised at: `locate` attaches one and leaves a
location that is there alone, so the innermost file keeps it.

The wording, the diagnostic code and the advice of an error are functions of its
cause.
-/

namespace StylePrep

/-- Why a source file cannot be read. -/
inductive FileError where
  | notFound (path : Path)
  | notPermitted (path : Path)
  | unreadable (path : Path) (fault : Fault)
  deriving DecidableEq, Repr

/-- Why an import cannot be resolved. -/
inductive ImportError where
  | notFound (target : Text) (searched : List Path)
  | cyclic (path : Path) (chain : List Path)
  deriving DecidableEq, Repr

/-- Why images cannot be packed or measured. -/
inductive PackFault where
  | badPattern (error : GlobError)
  | noDirectory (path : Path) (fault : Fault)
  | undecodable
  | unwritable
  deriving DecidableEq, Repr

/-- Why a sprite or image function fails. -/
inductive SpriteError where
  | missingImage (name : Text)
  | packFailure (name : Text) (fault : PackFault)
  deriving DecidableEq, Repr

inductive ConfigError where
  | signature (error : SignatureError)
  | invalidManifest
  | excludePattern (error : GlobError)
  | noInputs
  deriving DecidableEq, Repr

/-- What was being done when the file system refused. -/
inductive Attempt where
  | readManifest
  | readInput
  | createBuildDir
  | createOutputDir
  | writeCss
  deriving DecidableEq, Repr

inductive Cause where
  | file (error : FileError)
  | imports (error : ImportError)
  | sprite (error : SpriteError)
  | scan (error : ScanError)
  | io (path : Path) (attempt : Attempt) (fault : Fault)
  | config (error : ConfigError)
  | compile (place : Text) (fault : BalanceFault)
  | buildFailed (failed total : Nat)
  deriving DecidableEq, Repr

/-- An error and the directive it was raised at, if that is known. -/
structure Error where
  cause : Cause
  location : Option Text
  deriving DecidableEq, Repr

namespace FileError

def message : FileError → String
  | notFound path => "file not found: " ++ path.asString
  | notPermitted path => path.asString ++ " is outside the permitted include directories"
  | unreadable path fault => "failed to read " ++ path.asString ++ ": " ++ match fault with
    | .notText => "file is not valid UTF-8"
    | fault => fault.message

end FileError

namespace ImportError

def message : ImportError → String
  | notFound target _ => "could not find import \"" ++ target.asString ++ "\""
  | cyclic path chain =>
    "cyclic import of " ++ path.asString ++ ": " ++
      (Text.join " -> ".toList (chain.map Path.text)).asString

end ImportError

namespace SpriteError

def message : SpriteError → String
  | missingImage name => "missing image: " ++ name.asString
  | packFailure name fault => "failed to process " ++ name.asString ++ match fault with
    | .badPattern error => ": " ++ error.message
    | .noDirectory path fault =>
      ": failed to create " ++ path.asString ++ ": " ++ fault.message
    | .undecodable => ""
    | .unwritable => ""

end SpriteError

namespace ConfigError

def message : ConfigError → String
  | signature error => error.message
  | invalidManifest => "Invalid manifest"
  | excludePattern error =>
    "invalid exclude pattern '" ++ error.pattern.asString ++ "': " ++ error.message
  | noInputs => "no input files"

def help : ConfigError → Option String
  | signature _ => some SignatureError.help
  | invalidManifest => some "Check wt.yaml syntax"
  | excludePattern _ => none
  | noInputs =>
    some "Pass style sheets to build, or list them under `sources` in wt.yaml"

end ConfigError

namespace Attempt

def message (fault : Fault) : Attempt → String
  | readManifest => "Failed to read manifest: " ++ fault.message
  | readInput => fault.message
  | createBuildDir => "Failed to create build directory: " ++ fault.message
  | createOutputDir => "Failed to create output directory: " ++ fault.message
  | writeCss => "Failed to write CSS: " ++ fault.message

end Attempt

namespace Cause

def message : Cause → String
  | file error => error.message
  | imports error => error.message
  | sprite error => error.message
  | scan error => error.message
  | io path attempt fault => "IO error with " ++ path.asString ++ ": " ++ attempt.message fault
  | config error => "Config error: " ++ error.message
  | compile place fault => "Compile error: " ++ place.asString ++ ": " ++ fault.message
  | buildFailed failed total => s!"{failed} of {total} inputs failed to build"

def code : Cause → String
  | file _ => "wt::file"
  | imports _ => "wt::import"
  | sprite _ => "wt::sprite"
  | scan _ => "wt::scan"
  | io .. => "wt::io"
  | config _ => "wt::config"
  | compile .. => "wt::compile"
  | buildFailed .. => "wt::build"

def help : Cause → Option String
  | file _ => some "check the include paths (-p) and file permissions"
  | sprite _ => some "check the image directory (-d)"
  | config error => error.help
  | compile place _ => some ("error at " ++ place.asString)
  | _ => none

end Cause

namespace Error

def of (cause : Cause) : Error := ⟨cause, none⟩

/-- The error at a location, unless it has one. -/
def locate (e : Error) (location : Text) : Error :=
  match e.location with
  | some _ => e
  | none => { e with location := some location }

/-- The wording of an error, its location in front. -/
def message (e : Error) : String :=
  match e.location with
  | some location => location.asString ++ ": " ++ e.cause.message
  | none => e.cause.message

/-- The diagnostic code: that of the cause, or that of errors in a directive. -/
def code (e : Error) : String :=
  if e.location.isSome then "wt::directive" else e.cause.code

/-- Advice that goes with the error. Errors in a directive have none. -/
def help (e : Error) : Option String :=
  if e.location.isSome then none else e.cause.help

end Error

end StylePrep
