import StylePrep.Text.Basic

/-!
# Places in a source text

A place is a byte offset together with the line and column a reader would name.
Both follow from the text before the place: `Location.advance` moves a place over
a piece of text, and moving over two pieces in turn is moving over both at once.

Offset, line and column are natural numbers. Counters of fixed width, 32 bits for lines
and columns, agree with them as long as they do not overflow.
-/

namespace StylePrep

/-- A point in a source text: offset in bytes, line and column counted from 1,
columns in characters. -/
structure Location where
  offset : Nat
  line : Nat
  column : Nat
  deriving DecidableEq, Repr

namespace Location

/-- The first place of a text whose lines are numbered from `line`. -/
def start (line : Nat) : Location := ⟨0, line, 1⟩

/-- The place one character further. -/
def next (l : Location) (c : Char) : Location :=
  if c = '\n' then ⟨l.offset + c.utf8Size, l.line + 1, 1⟩
  else ⟨l.offset + c.utf8Size, l.line, l.column + 1⟩

/-- The place behind `t` when `t` stands at `l`. -/
def advance (l : Location) (t : Text) : Location := t.foldl next l

@[simp] theorem advance_nil (l : Location) : l.advance [] = l := rfl

@[simp] theorem advance_append (l : Location) (s t : Text) :
    l.advance (s ++ t) = (l.advance s).advance t := List.foldl_append

@[simp] theorem next_offset (l : Location) (c : Char) :
    (l.next c).offset = l.offset + c.utf8Size := by
  unfold next
  split <;> rfl

/-- Moving over a text adds its size. -/
@[simp] theorem advance_offset (l : Location) (t : Text) :
    (l.advance t).offset = l.offset + t.utf8Size := by
  induction t generalizing l with
  | nil => rfl
  | cons c t ih =>
    have := ih (l.next c)
    simp only [advance, List.foldl_cons] at this ⊢
    rw [this]
    simp [Text.utf8Size, Nat.add_assoc]

/-- Moving over a text adds its line feeds. -/
@[simp] theorem advance_line (l : Location) (t : Text) :
    (l.advance t).line = l.line + t.newlines := by
  induction t generalizing l with
  | nil => rfl
  | cons c t ih =>
    have := ih (l.next c)
    simp only [advance, List.foldl_cons] at this ⊢
    rw [this]
    by_cases h : c = '\n' <;>
      simp [next, h, Text.newlines, Nat.add_assoc, Nat.add_comm 1]

/-- A place as a reader names it. -/
def render (l : Location) : String := s!"{l.line}:{l.column}"

end Location

/-- The text between two places, the second one excluded. -/
structure Span where
  start : Location
  stop : Location
  deriving DecidableEq, Repr

namespace Span

/-- Whether the text ends on a later line than it starts on. -/
def isMultiline (s : Span) : Bool := s.start.line < s.stop.line

def render (s : Span) : String := s.start.render ++ ".." ++ s.stop.render

end Span

end StylePrep
