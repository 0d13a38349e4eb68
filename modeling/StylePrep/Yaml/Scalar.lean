import StylePrep.Yaml.Tag

/-!
# Scalars of a YAML document

The ways to write a text: plain, in single or double quotes, and as a block of
lines. A scalar may run over several lines. Between its lines a single line feed
counts as a space and each further line end as itself, except in a literal block,
where all line ends stay.
-/

namespace StylePrep.Yaml

open Text

inductive Style where
  | plain
  | quoted
  | literal
  | folded
  deriving DecidableEq, Repr

/-- What line ends in a row stand for when lines are folded. -/
def fold : Text → Text
  | ['\n'] => [' ']
  | '\n' :: ends => ends
  | ends => ends

/-! ### Plain scalars -/

def isFlowIndicator (c : Char) : Bool := [',', '[', ']', '{', '}'].contains c

/-- Whether a colon stands here right before an indicator of flow structure. -/
def isStrayColon (inFlow : Bool) (t : Text) : Bool :=
  inFlow && t.head? = some ':' && t[1]?.any fun c => isFlowIndicator c || c = '?'

/-- The part of a plain scalar up to a blank, a line end or an indicator. -/
def plainChunk (inFlow : Bool) : Text → Text
  | [] => []
  | c :: t =>
    if isBreakOrEnd (some c) ∨ c = ':' ∧ isBreakOrEnd t.head? ∨ inFlow ∧ isFlowIndicator c ∨
        isStrayColon inFlow (c :: t) then []
    else c :: plainChunk inFlow t

/-- Whether a tab stands in the first `least` columns of a line of `space` behind
its first line. `column` counts the columns from the start of such a line. -/
def tabIndents (least : Nat) (column : Option Nat) : Text → Bool
  | [] => false
  | c :: space =>
    if isLineEnd c then tabIndents least (some 0) space
    else c = '\t' && column.any (· < least) || tabIndents least (column.map (· + 1)) space

/-- Whether a plain scalar can start with the text `t`. -/
def startsPlain (inFlow : Bool) (t : Text) : Bool :=
  match t with
  | [] => false
  | c :: t =>
    if c = '-' then !isBreakOrEnd t.head?
    else if c = '?' ∨ c = ':' then !inFlow && !isBreakOrEnd t.head?
    else !(isBreakOrEnd (some c) || isFlowIndicator c ||
      ['#', '&', '*', '!', '|', '>', '\'', '"', '%', '@', '\x60'].contains c)

/-- Read a plain scalar whose further lines are indented by `least` columns or
more, with the space behind it. `fuel` bounds the number of its words. -/
def readPlain (inFlow : Bool) (least : Nat) : Nat → Cursor → Option (Text × Cursor)
  | 0, _ => none
  | fuel + 1, cur =>
    let chunk := plainChunk inFlow cur.rest
    let cur := cur.past chunk
    let space := cur.rest.takeWhile fun c => isBlank c || isLineEnd c
    let next := cur.past space
    let ends := space.filter isLineEnd
    let more := plainChunk inFlow next.rest
    if isStrayColon inFlow cur.rest ∨ tabIndents least none space then none
    else if space = [] ∨ next.head? = some '#' ∨
        ends ≠ [] ∧ (atMarker next ∨ !inFlow ∧ next.column < least) then
      some (chunk, next)
    else if isStrayColon inFlow next.rest then none
    else if more = [] then some (chunk, next)
    else do
      let (text, cur) ← readPlain inFlow least fuel next
      some (chunk ++ (if ends = [] then space else fold ends) ++ text, cur)

/-! ### Quoted scalars -/

/-- What a quoted scalar consists of: characters that stand for themselves,
blanks and line ends that folding may change, and line ends that a backslash
takes away. -/
inductive Piece where
  | char (c : Char)
  | blank (c : Char)
  | lineEnd (c : Char)
  | joined
  deriving DecidableEq, Repr

namespace Piece

def ofChar (c : Char) : Piece :=
  if isBlank c then blank c else if isLineEnd c then lineEnd c else char c

def blank? : Piece → Option Char
  | blank c => some c
  | _ => none

def lineEnd? : Piece → Option Char
  | lineEnd c => some c
  | _ => none

end Piece

/-- The text of a gap between characters: blanks stay if no line ends in it. Line
ends behind one that a backslash took away are not folded. -/
def gapText (pieces : List Piece) : Text :=
  let ends := pieces.filterMap Piece.lineEnd?
  if pieces.head? = some .joined then ends
  else if ends = [] then pieces.filterMap Piece.blank?
  else fold ends

/-- The text of pieces. `pending` is the gap before them. -/
def piecesText (pending : List Piece) : List Piece → Text
  | [] => gapText pending
  | .char c :: pieces => gapText pending ++ c :: piecesText [] pieces
  | .joined :: pieces => gapText pending ++ piecesText [.joined] pieces
  | piece :: pieces => piecesText (pending ++ [piece]) pieces

/-- The pieces of a scalar in single quotes and the text behind it. -/
def singleQuoted : Text → Option (List Piece × Text)
  | [] => none
  | '\'' :: t => match t with
    | '\'' :: t => (singleQuoted t).map fun (pieces, rest) => (.char '\'' :: pieces, rest)
    | t => some ([], t)
  | c :: t => (singleQuoted t).map fun (pieces, rest) => (.ofChar c :: pieces, rest)

def escapes : List (Char × Char) :=
  [('0', '\x00'), ('a', '\x07'), ('b', '\x08'), ('t', '\t'), ('\t', '\t'), ('n', '\n'),
    ('v', '\x0b'), ('f', '\x0c'), ('r', '\r'), ('e', '\x1b'), (' ', ' '), ('"', '"'), ('/', '/'),
    ('\\', '\\'), ('N', '\x85'), ('_', '\xa0'), ('L', '\u2028'), ('P', '\u2029')]

/-- The character whose code these hexadecimal digits give. -/
def charOfHex? (digits : Text) : Option Char := do
  let n ← digits.foldlM (fun n c => (hexValue? c).map (n * 16 + ·)) 0
  if n.isValidChar then some (Char.ofNat n) else none

def hexLength? (c : Char) : Option Nat :=
  if c = 'x' then some 2 else if c = 'u' then some 4 else if c = 'U' then some 8 else none

/-- The pieces of a scalar in double quotes and the text behind it. -/
def doubleQuoted : Text → Option (List Piece × Text)
  | [] => none
  | '"' :: t => some ([], t)
  | '\\' :: c :: t =>
    if isLineEnd c then (doubleQuoted t).map fun (pieces, rest) => (.joined :: pieces, rest)
    else match hexLength? c with
      | some n =>
        if t.length < n then none
        else match charOfHex? (t.take n) with
          | none => none
          | some d =>
            (doubleQuoted (t.drop n)).map fun (pieces, rest) => (.char d :: pieces, rest)
      | none =>
        match escapes.lookup c with
        | none => none
        | some d => (doubleQuoted t).map fun (pieces, rest) => (.char d :: pieces, rest)
  | c :: t => (doubleQuoted t).map fun (pieces, rest) => (.ofChar c :: pieces, rest)
termination_by t => t.length
decreasing_by all_goals simp only [List.length_drop, List.length_cons]; omega

/-- Whether one of the lines of `t` is a marker between documents. `atStart` is set
at the start of a line. -/
def hasMarkerLine (atStart : Bool) : Text → Bool
  | [] => false
  | c :: t => atStart && atMarker (.start (c :: t)) || hasMarkerLine (isLineEnd c) t

def readQuoted (cur : Cursor) : Option (Text × Cursor) := do
  let (pieces, rest) ← match cur.rest with
    | '\'' :: t => singleQuoted t
    | '"' :: t => doubleQuoted t
    | _ => none
  let spelling := cur.rest.take (cur.rest.length - rest.length)
  if hasMarkerLine false spelling then none
  else some (piecesText [] pieces, cur.past spelling)

/-! ### Block scalars -/

/-- What happens to the line ends behind a block: none stays, one does, or all. -/
inductive Chomping where
  | strip
  | clip
  | keep
  deriving DecidableEq, Repr

/-- How a block is to be read: literally or folded, which line ends stay behind
it, and its indentation if the header gives it. -/
structure BlockHeader where
  isLiteral : Bool
  chomping : Chomping
  indent : Option Nat
  deriving DecidableEq, Repr

/-- The marks of a block header behind its first character. -/
def headerMarks (header : BlockHeader) : Text → Option BlockHeader
  | [] => some header
  | c :: t =>
    if (c = '+' ∨ c = '-') ∧ header.chomping = .clip then
      headerMarks { header with chomping := if c = '+' then .keep else .strip } t
    else if '1' ≤ c ∧ c ≤ '9' ∧ header.indent = none then
      headerMarks { header with indent := some (c.toNat - 48) } t
    else none

def readHeader (cur : Cursor) : Option (BlockHeader × Cursor) := do
  let line := cur.rest.takeWhile (!isLineEnd ·)
  let marks := (line.drop 1).takeWhile fun c => !isBlank c && c != '#'
  let comment := (line.drop (1 + marks.length)).dropWhile isBlank
  if comment ≠ [] ∧ comment.head? ≠ some '#' then none
  else
    let header ← headerMarks ⟨cur.head? = some '|', .clip, none⟩ marks
    some (header, cur.skip (line.length + 1))

/-- The empty lines at the start of a text and the indentation behind them. -/
structure EmptyLines where
  ends : Text
  /-- The widest indentation met. -/
  widest : Nat
  /-- The column that the text behind starts in. -/
  column : Nat
  rest : Text
  deriving DecidableEq, Repr

/-- Read empty lines. Indentation stops at `indent` columns if that is given, and up
to there no tab may stand. -/
def emptyLines (indent : Option Nat) : Nat → Text → Option EmptyLines
  | 0, _ => none
  | fuel + 1, t =>
    let spaces := (t.takeWhile (· = ' ')).length
    let width := (indent.map (min · spaces)).getD spaces
    let rest := t.drop width
    if rest.head? = some '\t' ∧ indent.all (width < ·) then none
    else if rest.head?.any isLineEnd then
      (emptyLines indent fuel (rest.drop 1)).map fun lines =>
        { lines with ends := rest.take 1 ++ lines.ends, widest := max width lines.widest }
    else some ⟨[], width, width, rest⟩

/-- A line of a block: its text, the line end behind it unless the document ends
there, and those of the empty lines that follow. -/
structure BlockLine where
  text : Text
  lineEnd : Text
  empties : Text
  deriving DecidableEq, Repr

/-- Whether a line of a block has a blank in front. -/
def BlockLine.startsBlank (line : BlockLine) : Bool := line.text.head?.any isBlank

/-- The lines of a block indented by `indent`, of which the first one starts in
`column`, and the text that is left. -/
def blockLines (indent : Nat) : Nat → Nat → Text → Option (List BlockLine × Text)
  | 0, _, _ => none
  | fuel + 1, column, t =>
    if column ≠ indent ∨ t = [] then some ([], t)
    else do
      let text := t.takeWhile (!isLineEnd ·)
      let behind := t.drop text.length
      let empty ← emptyLines (some indent) fuel (behind.drop 1)
      let (lines, rest) ← blockLines indent fuel empty.column empty.rest
      some (⟨text, behind.take 1, empty.ends⟩ :: lines, rest)

/-- The text of the lines of a block. A folded block joins two lines that do not
start with a blank. -/
def blockText (header : BlockHeader) : List BlockLine → Text
  | [] => []
  | [line] =>
    line.text ++ match header.chomping with
      | .strip => []
      | .clip => line.lineEnd
      | .keep => line.lineEnd ++ line.empties
  | line :: next :: lines =>
    let ends := line.lineEnd ++ line.empties
    line.text ++ (if header.isLiteral ∨ line.startsBlank ∨ next.startsBlank then ends else fold ends)
      ++ blockText header (next :: lines)

/-- Read a block scalar whose lines are indented by `least` columns or more. -/
def readBlock (least : Nat) (cur : Cursor) : Option (Text × Cursor) := do
  let (header, body) ← readHeader cur
  let fuel := cur.rest.length + 2
  let fixed := header.indent.map fun n => (least - 1) + n
  let empty ← emptyLines fixed fuel body.rest
  let indent := fixed.getD (max empty.widest (max least 1))
  let (lines, rest) ← blockLines indent fuel empty.column empty.rest
  let lead := if lines = [] ∧ header.chomping ≠ .keep then [] else empty.ends
  some (lead ++ blockText header lines, body.skipTo rest)

end StylePrep.Yaml
