import StylePrep.Text.Basic

/-!
# Output with the provenance of its lines

A line map is an output text together with one origin for each of its lines: the
file and the line the text was taken from. Text is only ever added at the end. A
line gets its origin when its first piece is added, and what is added to a line
that is not finished yet does not change it.

An imported file is assembled into a map of its own and then spliced in as a
whole. It starts on a fresh line and the line behind it is fresh too, so its
origins carry over unchanged.

Lines are numbered by natural numbers. A counter of 32 bits gives the same numbers as
long as none of them overflows it.
-/

namespace StylePrep

abbrev FileId := Nat

/-- A line of a source file, counted from 1. -/
structure Origin where
  file : FileId
  line : Nat
  deriving DecidableEq, Repr

/-- An output text with one origin for each line. `isOpen` tells whether the
last line still lacks its line feed. -/
structure LineMap where
  buffer : Text
  entries : List Origin
  isOpen : Bool
  deriving DecidableEq, Repr

/-- A line number that no output line has. -/
structure OutOfRange where
  line : Nat
  lineCount : Nat
  deriving DecidableEq, Repr

namespace OutOfRange

def message (e : OutOfRange) : String :=
  s!"output line {e.line} is out of range (buffer has {e.lineCount} lines)"

end OutOfRange

namespace LineMap

def empty : LineMap := ⟨[], [], false⟩

/-- Add a piece of one line. The piece is not empty, and a line feed can only be
its last character. -/
def push (m : LineMap) (piece : Text) (origin : Origin) : LineMap where
  buffer := m.buffer ++ piece
  entries := if m.isOpen then m.entries else m.entries ++ [origin]
  isOpen := piece.getLast? ≠ some '\n'

/-- Add text that stands at `line` of `file`. Each output line it starts has the
origin of the source line it starts on. -/
def append (m : LineMap) (t : Text) (file : FileId) (line : Nat) : LineMap :=
  (t.lines.zipIdx line).foldl (fun m (piece, line) => m.push piece ⟨file, line⟩) m

/-- Add generated text. Each line it starts has the origin `line` of `file`. -/
def generate (m : LineMap) (t : Text) (file : FileId) (line : Nat) : LineMap :=
  t.lines.foldl (fun m piece => m.push piece ⟨file, line⟩) m

def closeLine (m : LineMap) : LineMap :=
  if m.isOpen then { m with buffer := m.buffer ++ ['\n'], isOpen := false } else m

/-- Add a whole map between line ends. An empty one adds nothing, not even a
line end. -/
def splice (m child : LineMap) : LineMap :=
  if child.buffer = [] then m
  else
    let m := m.closeLine
    closeLine ⟨m.buffer ++ child.buffer, m.entries ++ child.entries, child.isOpen⟩

def lineCount (m : LineMap) : Nat := m.entries.length

def isEmpty (m : LineMap) : Bool := m.entries.isEmpty

/-- The origin of an output line, counted from 1. -/
def lookup (m : LineMap) (line : Nat) : Except OutOfRange Origin :=
  match line with
  | 0 => .error ⟨0, m.lineCount⟩
  | i + 1 => match m.entries[i]? with
    | some origin => .ok origin
    | none => .error ⟨i + 1, m.lineCount⟩

@[simp] theorem push_buffer (m : LineMap) (piece : Text) (origin : Origin) :
    (m.push piece origin).buffer = m.buffer ++ piece := rfl

@[simp] theorem append_nil (m : LineMap) (file : FileId) (line : Nat) :
    m.append [] file line = m := rfl

@[simp] theorem generate_nil (m : LineMap) (file : FileId) (line : Nat) :
    m.generate [] file line = m := rfl

@[simp] theorem splice_empty (m : LineMap) : m.splice empty = m := rfl

end LineMap

end StylePrep
