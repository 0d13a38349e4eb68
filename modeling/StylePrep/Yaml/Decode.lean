import StylePrep.Text.Number
import StylePrep.Yaml.Document

/-!
# Values of YAML nodes

What a node stands for where a value of some kind is expected. Any scalar stands
for its text. A plain scalar can stand for a number, or for no value unless its tag
says otherwise.
-/

namespace StylePrep.Yaml

open Text

def text? : Yaml → Option Text
  | scalar _ _ t => some t
  | _ => none

/-- The texts of a sequence of scalars. A value that was left out is an empty
sequence. -/
def texts? : Yaml → Option (List Text)
  | seq items => items.mapM text?
  | scalar .plain _ [] => some []
  | _ => none

def standardTag (name : String) : Bytes := utf8 ("tag:yaml.org,2002:" ++ name).toList

def isNull (t : Text) : Bool := ["~", "null", "Null", "NULL"].contains t.asString

/-- The value of a node that may stand for none. A plain scalar does so if it is
empty or says so; with a tag it does only if the tag says so as well, and then it
has to be spelled out. -/
def optional {α : Type} (value? : Yaml → Option α) (node : Yaml) : Option (Option α) :=
  match node with
  | scalar .plain none t =>
    if t = [] ∨ isNull t then some none else (value? node).map some
  | scalar .plain (some tag) t =>
    if tag ≠ standardTag "null" then (value? node).map some
    else if isNull t then some none
    else none
  | _ => (value? node).map some

def digitsInBase? (base : Nat) (t : Text) : Option Nat :=
  if t = [] then none
  else t.foldlM (fun n c => ((hexValue? c).filter (· < base)).map (n * base + ·)) 0

/-- The natural number a plain scalar spells: in decimal without idle zeros in
front, or behind `0x`, `0o` or `0b` in the base these stand for. -/
def natOfPlain? (t : Text) : Option Nat :=
  match (after? ['+'] t).getD t with
  | '0' :: 'x' :: digits => digitsInBase? 16 digits
  | '0' :: 'o' :: digits => digitsInBase? 8 digits
  | '0' :: 'b' :: digits => digitsInBase? 2 digits
  | digits => if 1 < digits.length ∧ digits.head? = some '0' then none else digits? digits

/-- The natural number below `bound` that a node stands for. A literal block can
stand for one if its tag says so. -/
def nat? (bound : Nat) : Yaml → Option Nat
  | scalar style tag t =>
    if style = .plain ∨ style = .literal ∧ tag = some (standardTag "int") then
      (natOfPlain? t).filter (· < bound)
    else none
  | _ => none

/-- The entries of a mapping with their keys as texts. A document without content
is an empty mapping. -/
def fields? : Yaml → Option (List (Text × Yaml))
  | map entries => entries.mapM fun (key, value) => key.text?.map (·, value)
  | scalar .plain _ [] => some []
  | _ => none

/-- The value under a key, or `default` if there is none. A key that is there more
than once is no good. -/
def field? {α : Type} (fields : List (Text × Yaml)) (key : String) (default : α)
    (value? : Yaml → Option α) : Option α :=
  match fields.filter (·.1 = key.toList) with
  | [] => some default
  | [(_, node)] => value? node
  | _ => none

end StylePrep.Yaml
