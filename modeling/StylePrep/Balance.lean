import StylePrep.Delimited

/-!
# Balanced style sheets

The check that the output of preprocessing goes through before it is handed on:
every block is closed, every comment ends, and no string runs over the end of its
line. A string may run to the end of the text. There are no escapes here: a
string ends at the first quote of its kind.

The first fault from the left is reported, on the line it stands on; a block that
is never closed is reported last, the innermost one on the line it opens.
-/

namespace StylePrep

inductive BalanceFault where
  | unterminatedString
  | unterminatedComment
  | unexpectedBrace
  | unclosedBlock
  deriving DecidableEq, Repr

namespace BalanceFault

def message : BalanceFault → String
  | unterminatedString => "unterminated string"
  | unterminatedComment => "unterminated comment"
  | unexpectedBrace => "unexpected '\x7d'"
  | unclosedBlock => "unclosed block"

end BalanceFault

structure BalanceError where
  line : Nat
  fault : BalanceFault
  deriving DecidableEq, Repr

namespace Balance

open Text Delimited

/-- The rest of a string through its closing quote, or to the end of the text;
nothing if a line ends first. -/
def lineString (quote : Char) : Text → Option Text
  | [] => some []
  | c :: t =>
    if c = quote then some [c]
    else if c = '\n' then none
    else (lineString quote t).map (c :: ·)

/-- Check a text from a point on `line` where the blocks opened on the lines
`opened`, innermost first, are open. -/
def checkFrom (opened : List Nat) (line : Nat) : Text → Except BalanceError Unit
  | [] => match opened with
    | [] => .ok ()
    | last :: _ => .error ⟨last, .unclosedBlock⟩
  | c :: t =>
    if c = '\n' then checkFrom opened (line + 1) t
    else if isQuote c then
      match lineString c t with
      | none => .error ⟨line, .unterminatedString⟩
      | some body => checkFrom opened line (t.drop body.length)
    else if c = '/' ∧ t.head? = some '*' then
      match commentTail t.tail with
      | none => .error ⟨line, .unterminatedComment⟩
      | some body => checkFrom opened (line + body.newlines) (t.tail.drop body.length)
    else if c = '/' ∧ t.head? = some '/' then
      checkFrom opened line (t.dropWhile (· != '\n'))
    else if c = '{' then checkFrom (line :: opened) line t
    else if c = '}' then
      match opened with
      | [] => .error ⟨line, .unexpectedBrace⟩
      | _ :: opened => checkFrom opened line t
    else checkFrom opened line t
termination_by t => t.length
decreasing_by
  all_goals
    have := (List.dropWhile_suffix (· != '\n') (l := t)).length_le
    grind

def check (t : Text) : Except BalanceError Unit := checkFrom [] 1 t

/-- The checked text, unchanged. -/
def passThrough (t : Text) : Except BalanceError Text := (check t).map fun _ => t

end Balance

end StylePrep
