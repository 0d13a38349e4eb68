import StylePrep.Command.Line
import StylePrep.Error
import StylePrep.Text.Number
import StylePrep.Tree.Basic

/-!
# Status lines

While a command works it tells what it does, one line for each step: a verb,
aligned to the right, and what the verb is about. Status lines go to the error
stream, so that the output of a command stays clean.
-/

namespace StylePrep

open Text

/-- What a status line tells. -/
inductive Verb where
  | preprocessing
  | assembled
  | inputs
  | compiled
  | finished
  | warning
  | error
  deriving DecidableEq, Repr

namespace Verb

def word : Verb → String
  | preprocessing => "Preprocessing"
  | assembled => "Assembled"
  | inputs => "Inputs"
  | compiled => "Compiled"
  | finished => "Finished"
  | warning => "Warning"
  | error => "Error"

def isDetail : Verb → Bool
  | assembled | inputs => true
  | _ => false

/-- Whether lines with a verb are shown. Errors always are. -/
def isShown (verb : Verb) (verbosity : Verbosity) : Bool :=
  verb = .error || !verbosity.quiet && (verbosity.verbose || !verb.isDetail)

end Verb

/-- A verb and what it is about, with the error that it reports, if it does. -/
structure Status where
  verb : Verb
  message : Text
  error? : Option Error := none
  deriving DecidableEq, Repr

namespace Status

def verbWidth : Nat := 12

def render (s : Status) : Text :=
  let word := s.verb.word.toList
  List.replicate (verbWidth - word.length) ' ' ++ word ++ ' ' :: s.message

end Status

def plural (n : Nat) (one many : Text) : Text :=
  ofNat n ++ ' ' :: (if n = 1 then one else many)

/-- How a path is shown: as seen from the working directory if it is below it. -/
def displayPath (tree : Tree) (p : Path) : Text :=
  match p.below? tree.workingPath with
  | some below => if below.text = [] then ['.'] else below.text
  | none => p.text

end StylePrep
