import StylePrep.Import.Resolve

/-!
# Reading source files

Sources are read only from permitted directories. A path is made canonical
first, links included, and has to lie inside one of the permitted directories by
its components; only then is the file read.
-/

namespace StylePrep

/-- The canonical paths of the directories sources may be read from. -/
structure Loader where
  permitted : List Path
  deriving DecidableEq, Repr

namespace Loader

/-- Permit the directories that exist. Each is listed once. -/
def ofDirs (tree : Tree) (dirs : List Path) : Loader :=
  ⟨dirs.foldl (fun permitted dir => match tree.canonical dir with
    | .ok p => if permitted.any (·.same p) then permitted else permitted ++ [p]
    | .error _ => permitted) []⟩

def permits (loader : Loader) (p : Path) : Bool := loader.permitted.any p.startsWith

/-- A fault met at `p`, as an error about a source file. -/
def refusal (p : Path) : Fault → FileError
  | .notFound => .notFound p
  | fault => .unreadable p fault

/-- Read a source file: its canonical path, and its text with plain line
feeds. -/
def load (loader : Loader) (tree : Tree) (p : Path) : Except FileError (Path × Text) := do
  let canonical ← (tree.canonical p).mapError (refusal p)
  if loader.permits canonical then
    let text ← (tree.readText canonical).mapError (refusal canonical)
    pure (canonical, text.normalizeNewlines)
  else .error (.notPermitted canonical)

end Loader

end StylePrep
