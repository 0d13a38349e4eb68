import StylePrep.Glob.Pattern

/-!
# Sets of exclude patterns

A path is excluded when one pattern of the set accepts its spelling. Patterns
that are decided by the file name, such as `**/name`, `*.ext` or any other one
ending in a literal extension, skip paths without one: a path that ends in a dot
has no file name, so these never exclude it.
-/

namespace StylePrep.Glob

namespace Token

/-- The character a part stands for, if it is a literal. -/
def char? : Token → Option Char
  | literal c => some c
  | _ => none

end Token

def literal? (tokens : List Token) : Option Text := tokens.mapM Token.char?

/-- `**/name`, the name being literal. -/
def isNamePattern (g : Glob) : Bool :=
  match g.tokens with
  | .dirsBefore :: rest => match literal? rest with
    | some name => name ≠ [] && !name.contains '/'
    | none => false
  | _ => false

/-- `*.ext` or `**/*.ext`, the extension being literal and without a dot. -/
def isExtensionPattern (g : Glob) : Bool :=
  let rest := match g.tokens with
    | .dirsBefore :: rest => rest
    | tokens => tokens
  match rest with
  | .anyText :: .literal '.' :: ext => match literal? ext with
    | some ext => !ext.contains '.' && !ext.contains '/'
    | none => false
  | _ => false

/-- Literal text, with a star or all that is below at its end, or a star or any
directories in front of it. -/
def isPlain (g : Glob) : Bool :=
  let front := match g.tokens.getLast? with
    | some .anyText => g.tokens.dropLast
    | some .dirsAfter => g.tokens.dropLast
    | _ => g.tokens
  let back := match g.tokens with
    | .dirsBefore :: .anyText :: rest => rest
    | .dirsBefore :: rest => rest
    | .anyText :: rest => rest
    | tokens => tokens
  (literal? front).isSome || (literal? back).isSome

/-- Whether the last parts are a dot and literal text without a dot or slash. -/
def endsInExtension (g : Glob) : Bool :=
  let tail := g.tokens.reverse.takeWhile fun token => match token with
    | .literal c => c ≠ '.' && c ≠ '/'
    | _ => false
  g.tokens.reverse[tail.length]? = some (.literal '.')

/-- Whether a pattern is decided by the file name of a path. -/
def isByName (g : Glob) : Bool :=
  g.isNamePattern ||
    !(literal? g.tokens).isSome && (g.isExtensionPattern || !g.isPlain && g.endsInExtension)

def excludes (g : Glob) (path : Text) : Bool :=
  g.accepts path && !(g.isByName && path.getLast? = some '.')

/-- Read exclude patterns. Their wild cards reach across slashes. -/
def parseExcludes : List Text → Except GlobError (List Glob) :=
  List.mapM (parse .acrossSlashes)

def anyExcludes (globs : List Glob) (path : Text) : Bool := globs.any (·.excludes path)

end StylePrep.Glob
