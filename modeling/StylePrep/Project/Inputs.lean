import StylePrep.Glob.Excludes
import StylePrep.Import.Resolve
import StylePrep.Tree.Walk

/-!
# Inputs of a build

The style sheets to build are named one by one or by a directory, which stands
for all style sheets below it. Partials and excluded files are no inputs, however
they are named. Inputs come sorted by path, each path once.

The path of an input as seen from the directory it was found in decides where its
output goes, so that sheets of the same name in different directories keep
apart.
-/

namespace StylePrep

/-- A style sheet to build: its path, and the path below the directory it was
found in; just the file name if it was named directly. -/
structure Input where
  path : Path
  relative : Path
  deriving DecidableEq, Repr

namespace Input

/-- Inputs are ordered by path. -/
instance : Ord Input where
  compare a b := (compare a.path b.path).then (compare a.relative b.relative)

def cssPath (input : Input) : Path := input.relative.withExtension "css".toList

def isWanted (excludes : List Glob) (p : Path) : Bool :=
  !Import.isPartial p && !Glob.anyExcludes excludes p.text

def named (tree : Tree) (excludes : List Glob) (p : Path) : List Input :=
  if tree.isDir p then
    let files := (tree.walk p).filter fun file =>
      file.extension? = some Import.extension && isWanted excludes file
    files.map fun file => ⟨file, (file.below? p).getD file⟩
  else if isWanted excludes p then
    [⟨p, (p.fileName?.map Path.mk).getD p⟩]
  else []

/-- A list without the inputs whose path is that of the input before them. -/
def dropRepeats : List Input → List Input
  | [] => []
  | input :: inputs =>
    match dropRepeats inputs with
    | [] => [input]
    | next :: rest => if next.path.same input.path then input :: rest else input :: next :: rest

/-- The inputs that paths name, sorted by path, each path once. -/
def find (tree : Tree) (excludes : List Glob) (paths : List Path) : List Input :=
  dropRepeats ((paths.flatMap (named tree excludes)).mergeSort fun a b => (compare a b).isLE)

end Input

end StylePrep
