import StylePrep.Text.Basic

/-!
# Complaints about a directive

A directive can be malformed in its own spelling, in the way its arguments bind
to a registered signature, or in what a sprite function finds in its arguments.
Each way is a cause of its own; the wording is given once, by `message`.
-/

namespace StylePrep

/-- Why the arguments of a registered function do not bind to its parameters. -/
inductive BindingFault where
  | noParameter (keyword : Text)
  | repeated (keyword : Text)
  | positionalAfterKeyword
  | tooMany (takes given : Nat)
  | missing (parameter : Text)
  | notRegistered
  deriving DecidableEq, Repr

/-- Why a sprite function cannot use the arguments it is given. -/
inductive ArgumentFault where
  | arity (least most given : Nat)
  | missing (position : Nat)
  | undefinedVariable (name : Text)
  | tooDeep
  | notSpriteMap (argument : Text)
  | badSpacing (text : Text)
  | badOffset (text : Text)
  | offsetOutOfRange (offset : Int)
  | notSpriteFunction
  deriving DecidableEq, Repr

/-- What is wrong with a directive. -/
inductive Complaint where
  | unterminatedString
  | unterminatedComment
  | unterminatedInterpolation
  | unterminatedUrl
  | unterminatedImportString
  | unterminatedImportUrl
  | importWithoutName
  | assignmentWithoutValue
  | unterminatedCall (function : Text)
  | unboundSpriteMap
  | unmatchedBrace
  | binding (function : Text) (cause : BindingFault)
  | argument (function : Text) (cause : ArgumentFault)
  /-- A complaint worded by the caller. -/
  | worded (message : Text)
  deriving DecidableEq, Repr

/-- A malformed directive and the line it is reported on. -/
structure ScanError where
  line : Nat
  complaint : Complaint
  deriving DecidableEq, Repr

namespace BindingFault

def message (function : Text) : BindingFault → String
  | noParameter keyword =>
    function.asString ++ "() has no parameter $" ++ keyword.asString
  | repeated keyword =>
    function.asString ++ "() got $" ++ keyword.asString ++ " more than once"
  | positionalAfterKeyword =>
    function.asString ++ "(): positional argument after keyword argument"
  | tooMany takes given =>
    s!"{function.asString}() takes {takes} argument(s) but {given} were given"
  | missing parameter =>
    function.asString ++ "() missing argument $" ++ parameter.asString
  | notRegistered => function.asString ++ "() is not registered"

end BindingFault

namespace ArgumentFault

def message (function : Text) (fault : ArgumentFault) : String :=
  function.asString ++ "(): " ++ match fault with
    | arity least most given =>
      if least = most then s!"expected {least} arguments, got {given}"
      else s!"expected {least} to {most} arguments, got {given}"
    | missing position => s!"missing argument {position}"
    | undefinedVariable name => "undefined variable $" ++ name.asString
    | tooDeep => "arguments nest too deeply"
    | notSpriteMap argument => argument.asString ++ " is not a sprite map"
    | badSpacing text => "invalid spacing `" ++ text.asString ++ "`"
    | badOffset text => "invalid offset `" ++ text.asString ++ "`"
    | offsetOutOfRange offset => s!"offset {offset}px is out of range"
    | notSpriteFunction => function.asString ++ " is not a sprite function"

end ArgumentFault

namespace Complaint

def message : Complaint → String
  | unterminatedString => "unterminated string"
  | unterminatedComment => "unterminated comment"
  | unterminatedInterpolation => "unterminated interpolation"
  | unterminatedUrl => "unterminated url()"
  | unterminatedImportString => "unterminated string in @import"
  | unterminatedImportUrl => "unterminated url() in @import"
  | importWithoutName => "@import expects a quoted file name"
  | assignmentWithoutValue => "assignment without a value"
  | unterminatedCall function => "unterminated call to " ++ function.asString ++ "()"
  | unboundSpriteMap => "sprite-map() must be assigned to a variable"
  | unmatchedBrace => "unmatched '\x7d'"
  | binding function cause => cause.message function
  | argument function cause => cause.message function
  | worded message => message.asString

end Complaint

namespace ScanError

def message (e : ScanError) : String :=
  s!"malformed directive on line {e.line}: {e.complaint.message}"

end ScanError

end StylePrep
