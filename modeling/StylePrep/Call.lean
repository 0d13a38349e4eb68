import StylePrep.Delimited
import StylePrep.Text.Space

/-!
# Calls and their arguments

A call is a name followed by an argument list in parentheses. The list splits at
its top-level commas: a comma inside a string, in parentheses or in square
brackets belongs to the argument it stands in. Arguments are trimmed, and a last
argument that is empty does not count, so a trailing comma is harmless.
-/

namespace StylePrep

/-- A function name with the arguments it is called on. -/
structure Call where
  name : Text
  args : List Text
  deriving DecidableEq, Repr

namespace Call

open Text Delimited

/-- The pieces of an argument list between its top-level commas, the first one
apart from the others. `depth` counts the open brackets; a closing bracket too
many is an ordinary character. A string that never ends reaches to the end of
the list. -/
def pieces (depth : Nat) : Text → Text × List Text
  | [] => ([], [])
  | c :: t =>
    if isQuote c then
      match stringTail c t with
      | none => (c :: t, [])
      | some body =>
        let (first, others) := pieces depth (t.drop body.length)
        (c :: body ++ first, others)
    else if c = ',' ∧ depth = 0 then
      let (first, others) := pieces depth t
      ([], first :: others)
    else if c = '(' ∨ c = '[' then
      let (first, others) := pieces (depth + 1) t
      (c :: first, others)
    else if c = ')' ∨ c = ']' then
      let (first, others) := pieces (depth - 1) t
      (c :: first, others)
    else
      let (first, others) := pieces depth t
      (c :: first, others)
termination_by t => t.length
decreasing_by all_goals simp; try omega

def splitArgs (t : Text) : List Text :=
  let (first, others) := pieces 0 t
  let args := (first :: others).map trim
  if args.getLast? = some [] then args.dropLast else args

/-- Read a text that is exactly one call, apart from white space around it. -/
def parse? (t : Text) : Option Call :=
  let t := trim t
  if (t.head?.map isWordStart).getD false then
    match t.dropWhile isWordChar with
    | '(' :: rest =>
      match parenTail rest with
      | some body =>
        if body = rest then some ⟨t.takeWhile isWordChar, splitArgs body.dropLast⟩ else none
      | none => none
    | _ => none
  else none

/-- Write a call: the arguments in order, separated by a comma and a space. -/
def render (c : Call) : Text :=
  c.name ++ '(' :: join [',', ' '] c.args ++ [')']

end Call

namespace Text

/-- The text between two equal quotes at both ends, if there are such; else the
text itself. White space around it is dropped first. -/
def unquote (t : Text) : Text :=
  let t := trim t
  let between (quote : Char) : Option Text := do before? [quote] (← after? [quote] t)
  ((between '"').orElse fun _ => between '\'').getD t

end Text

end StylePrep
