import StylePrep.Error

/-!
# Finding imported files

An import names its target as the style sheet spells it. In each directory of the
search order the exact name is tried first, then the name of a partial, which has
an underscore in front; if the target has no extension, both are tried again with
the extension of style sheets. The first file found wins.

The import stack holds the files that are being read, outermost first. Pushing a
file that is on it already closes a cycle, and is refused.
-/

namespace StylePrep

namespace Import

def extension : Text := "scss".toList

/-- Whether a path names a partial, a file that is only meant to be imported. -/
def isPartial (p : Path) : Bool :=
  match p.fileName? with
  | some name => name.head? = some '_'
  | none => false

/-- The names tried for a target, in order. -/
def candidates (target : Text) : List Path :=
  let exact : Path := ⟨target⟩
  let names := match exact.fileName? with
    | some name =>
      if name.head? = some '_' then [exact] else [exact, exact.withFileName ('_' :: name)]
    | none => [exact]
  if exact.extension?.isSome then names
  else names ++ names.map fun p => ⟨p.text ++ '.' :: extension⟩

/-- The paths tried for a target, in order: all names in one directory before
the next directory. -/
def searchPaths (target : Text) (dir : Path) (includes : List Path) : List Path :=
  (dir :: includes).flatMap fun dir => (candidates target).map dir.join

/-- The canonical path of the first file found for a target. -/
def resolve (tree : Tree) (target : Text) (dir : Path) (includes : List Path) :
    Except ImportError Path :=
  let paths := searchPaths target dir includes
  match paths.find? tree.isFile with
  | some p => match tree.canonical p with
    | .ok canonical => .ok canonical
    | .error _ => .ok p
  | none => .error (.notFound target paths)

end Import

/-- The files being read, outermost first. -/
structure ImportStack where
  paths : List Path
  deriving DecidableEq, Repr

namespace ImportStack

def empty : ImportStack := ⟨[]⟩

def contains (stack : ImportStack) (p : Path) : Bool := stack.paths.any (·.same p)

/-- Start reading a file. If it is being read, the chain of files from there on
is a cycle. -/
def push (stack : ImportStack) (p : Path) : Except ImportError ImportStack :=
  match stack.paths.dropWhile (!·.same p) with
  | [] => .ok ⟨stack.paths ++ [p]⟩
  | cycle => .error (.cyclic p (cycle ++ [p]))

def pop (stack : ImportStack) : ImportStack := ⟨stack.paths.dropLast⟩

def last? (stack : ImportStack) : Option Path := stack.paths.getLast?

end ImportStack

end StylePrep
