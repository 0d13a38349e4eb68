import StylePrep.Error
import StylePrep.LineMap
import StylePrep.Text.Number

/-!
# Compilations

The result of preprocessing one root file: the assembled output with the origin
of each line, and the files that were read, the root first. Every file but the
root knows the file that imported it, which was read earlier.
-/

namespace StylePrep

/-- A file that was read: its path, its text, and the file that imported it. -/
structure SourceFile where
  path : Path
  text : Text
  parent : Option FileId
  deriving DecidableEq, Repr

structure Compilation where
  map : LineMap
  files : List SourceFile
  deriving DecidableEq, Repr

namespace Compilation

open Text

def output (c : Compilation) : Text := c.map.buffer

def file? (c : Compilation) (id : FileId) : Option SourceFile := c.files[id]?

def root? (c : Compilation) : Option SourceFile := c.files.head?

/-- The file and the line that an output line came from. -/
def lookupFile? (c : Compilation) (line : Nat) : Option (Path × Nat) :=
  match c.map.lookup line with
  | .ok origin => (c.file? origin.file).map fun file => (file.path, origin.line)
  | .error _ => none

/-- `path:line` for a place in a file. -/
def place (path : Path) (line : Nat) : Text := path.text ++ ':' :: ofNat line

/-- `path:line` for an output line. -/
def describeLine (c : Compilation) (line : Nat) : Text :=
  match c.lookupFile? line with
  | some (path, line) => place path line
  | none => "unknown".toList

/-- The files that lead to a file by imports, the root first. -/
def importChain (c : Compilation) (id : FileId) : List Path :=
  (go c.files.length (c.file? id)).reverse
where
  go : Nat → Option SourceFile → List Path
    | 0, _ => []
    | _, none => []
    | fuel + 1, some file => file.path :: go fuel (file.parent.bind c.file?)

/-- The output as far as it is balanced, or the error at the source line it came
from. -/
def compile (c : Compilation) : Except Error Text :=
  match Balance.passThrough c.output with
  | .ok css => .ok css
  | .error e => .error (Error.of (.compile (c.describeLine e.line) e.fault))

end Compilation

end StylePrep
