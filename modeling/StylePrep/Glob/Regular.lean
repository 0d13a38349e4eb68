import StylePrep.Text.Basic

/-!
# Regular expressions over bytes

File name patterns are matched on the bytes of a path. A pattern becomes a
regular expression, and a path matches when the expression left after taking all
its bytes accepts the empty sequence. Taking a byte is a derivative of the expression:
every step is a plain recursion on the expression.

Alternatives are kept without repetition, which keeps derivatives small.
-/

namespace StylePrep

/-- A regular expression over bytes. -/
inductive Regular where
  | never
  | empty
  /-- One byte inside the given closed ranges, or outside of them all. -/
  | byte (outside : Bool) (ranges : List (UInt8 × UInt8))
  | seq (first second : Regular)
  | alt (left right : Regular)
  | star (body : Regular)
  deriving DecidableEq, Repr

namespace Regular

/-- Any one byte. -/
def anyByte : Regular := byte true []

def exactly (b : UInt8) : Regular := byte false [(b, b)]

def anyBut (b : UInt8) : Regular := byte true [(b, b)]

/-- One expression after another, simplified where one of them is trivial. -/
def andThen : Regular → Regular → Regular
  | never, _ => never
  | empty, s => s
  | r, never => if r = never then r else never
  | r, empty => r
  | r, s => seq r s

/-- Whether `r` is one of the alternatives of an expression. -/
def isAlternative (r : Regular) : Regular → Bool
  | alt left right => r = left || isAlternative r right
  | s => r = s

/-- Either of two expressions, each alternative listed once. -/
def orElse : Regular → Regular → Regular
  | never, s => s
  | alt left right, s => left.orElse (right.orElse s)
  | r, s => if s = never then r else if isAlternative r s then s else alt r s

def all : List Regular → Regular := List.foldr andThen empty

def any : List Regular → Regular := List.foldr orElse never

def literal (bytes : Bytes) : Regular := all (bytes.map exactly)

/-- Whether the empty sequence is accepted. -/
def nullable : Regular → Bool
  | never => false
  | empty => true
  | byte _ _ => false
  | seq first second => first.nullable && second.nullable
  | alt left right => left.nullable || right.nullable
  | star _ => true

/-- What has to follow the byte `b`. -/
def derive (b : UInt8) : Regular → Regular
  | never => never
  | empty => never
  | byte outside ranges =>
    if (ranges.any fun (first, last) => first ≤ b && b ≤ last) != outside then empty else never
  | seq first second =>
    let taken := (first.derive b).andThen second
    if first.nullable then taken.orElse (second.derive b) else taken
  | alt left right => (left.derive b).orElse (right.derive b)
  | star body => (body.derive b).andThen (star body)

def accepts (r : Regular) (bytes : Bytes) : Bool := (bytes.foldl (fun r b => r.derive b) r).nullable

@[simp] theorem accepts_nil (r : Regular) : r.accepts [] = r.nullable := rfl

@[simp] theorem accepts_cons (r : Regular) (b : UInt8) (bytes : Bytes) :
    r.accepts (b :: bytes) = (r.derive b).accepts bytes := rfl

end Regular

end StylePrep
