import StylePrep.Text.Basic

/-!
# Reading positions in a YAML text

A cursor is the text that is left with the column it starts in, since the nesting
of a YAML document shows in its columns. A line ends with a line feed or with one
of the separators of Unicode: `prepare` turns the other line ends into line feeds
and refuses characters that a document must not hold.
-/

namespace StylePrep.Yaml

open Text

/-- Whether a character may stand in a document. -/
def isAllowed (c : Char) : Bool :=
  let n := c.toNat
  c = '\t' || c = '\n' || (0x20 ≤ n && n ≤ 0x7e) || n = 0x85 || (0xa0 ≤ n && n ≤ 0xfffd) ||
    0x10000 ≤ n

/-- A text with plain line feeds at its line ends. -/
def plainLineEnds : Text → Text
  | [] => []
  | '\r' :: '\n' :: t => '\n' :: plainLineEnds t
  | c :: t => (if c = '\r' ∨ c = '\x85' then '\n' else c) :: plainLineEnds t

/-- The text of a document ready to be read: without other line ends than the ones
below, and with allowed characters only. -/
def prepare (t : Text) : Option Text :=
  let t := plainLineEnds t
  if t.all isAllowed then some t else none

/-- Whether a line ends with a character: a line feed, or a line or paragraph
separator. -/
def isLineEnd (c : Char) : Bool := c = '\n' || c = '\u2028' || c = '\u2029'

/-- The mark that may stand in front of a line without being a part of it. -/
def byteOrderMark : Char := '\ufeff'

/-- The text that is left, the column it starts in, the number of line ends before
it, and whether nothing but indentation stands before it on its line. -/
structure Cursor where
  rest : Text
  column : Nat
  line : Nat
  isIndented : Bool
  deriving DecidableEq, Repr

namespace Cursor

def start (t : Text) : Cursor := ⟨t, 0, 0, true⟩

def next (cur : Cursor) : Cursor :=
  match cur.rest with
  | [] => cur
  | c :: rest =>
    if isLineEnd c then ⟨rest, 0, cur.line + 1, true⟩
    else
      let isIndent := isBlank c || c = byteOrderMark && cur.column = 0
      ⟨rest, cur.column + 1, cur.line, cur.isIndented && isIndent⟩

/-- The cursor behind `t`, which the text left starts with. -/
def past (cur : Cursor) (t : Text) : Cursor := t.foldl (fun cur _ => cur.next) cur

def skip (cur : Cursor) (n : Nat) : Cursor := cur.past (cur.rest.take n)

/-- The cursor at `rest`, which the text left ends with. -/
def skipTo (cur : Cursor) (rest : Text) : Cursor := cur.skip (cur.rest.length - rest.length)

def head? (cur : Cursor) : Option Char := cur.rest.head?

end Cursor

/-- Whether nothing follows, or a blank or a line end. -/
def isBreakOrEnd (c : Option Char) : Bool :=
  match c with
  | none => true
  | some c => isBlank c || isLineEnd c

/-- Whether a marker between documents stands here. -/
def isMarker (cur : Cursor) (marker : Text) : Bool :=
  cur.column = 0 && marker.isPrefixOf cur.rest && isBreakOrEnd cur.rest[marker.length]?

/-- Whether any marker between documents stands here. -/
def atMarker (cur : Cursor) : Bool :=
  isMarker cur ['-', '-', '-'] || isMarker cur ['.', '.', '.']

/-- The text that stands between two tokens at the start of `t`: blanks, line
ends and comments, and a byte order mark at the start of a line. In block structure
a tab cannot indent a line, so `tabs` tells whether tabs count before the first line
end, and `inFlow` whether they count behind it. `atStart` is set at the start of a
line and `inComment` inside a comment. -/
def gap (tabs inFlow atStart inComment : Bool) : Text → Text
  | [] => []
  | c :: t =>
    if isLineEnd c then c :: gap inFlow inFlow true false t
    else if inComment then c :: gap tabs inFlow false true t
    else if c = '#' then c :: gap tabs inFlow false true t
    else if c = ' ' ∨ c = '\t' ∧ tabs ∨ c = byteOrderMark ∧ atStart then
      c :: gap tabs inFlow false false t
    else []

def toToken (tabs inFlow : Bool) (cur : Cursor) : Cursor :=
  cur.past (gap tabs inFlow (cur.column = 0) false cur.rest)

end StylePrep.Yaml
