import StylePrep.Text.Basic

/-!
# Numbers in texts

Decimal spellings of whole numbers: how they are written, and which of them are
read. A sign is allowed in front where negative numbers are, a plus sign
everywhere; digits are the ASCII ones.
-/

namespace StylePrep.Text

def ofNat (n : Nat) : Text := (toString n).toList

def ofInt (i : Int) : Text := (toString i).toList

def digits? (t : Text) : Option Nat :=
  if t ≠ [] ∧ t.all Char.isDigit then
    some (t.foldl (fun n c => n * 10 + (c.toNat - 48)) 0)
  else none

/-- The natural number a text spells, a plus sign in front allowed. -/
def nat? (t : Text) : Option Nat :=
  match t with
  | '+' :: t => digits? t
  | t => digits? t

def int? (t : Text) : Option Int :=
  match t with
  | '-' :: t => (digits? t).map fun n => -(n : Int)
  | t => (nat? t).map Int.ofNat

def bound32 : Nat := 4294967296

def bound64 : Nat := 18446744073709551616

def minInt64 : Int := -9223372036854775808

def int64? (t : Text) : Option Int :=
  (int? t).filter fun i => minInt64 ≤ i && i < -minInt64

end StylePrep.Text
