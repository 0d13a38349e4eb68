import StylePrep.Encoding.Bytes

/-!
# Bits

Compressed data is a sequence of bits, of which each byte holds eight, the lowest
first. Numbers are written with their lowest bit first as well.
-/

namespace StylePrep.Encoding

abbrev Bits := List Bool

namespace Bits

/-- The `width` lowest bits of a number, the lowest first. -/
def ofNat : Nat → Nat → Bits
  | 0, _ => []
  | width + 1, n => (n % 2 = 1) :: ofNat width (n / 2)

/-- The number with these bits, the lowest first. -/
def toNat (bits : Bits) : Nat := bits.foldr (fun bit n => 2 * n + bit.toNat) 0

def ofBytes (bytes : Bytes) : Bits := bytes.flatMap fun b => ofNat 8 b.toNat

/-- The bytes that hold bits, the last one filled up with zeros. -/
def toBytes (bits : Bits) : Bytes := (pieces 7 bits).map fun piece => UInt8.ofNat (toNat piece)

/-- The next `width` bits as a number, and the bits behind them. -/
def read (width : Nat) (bits : Bits) : Option (Nat × Bits) :=
  if bits.length < width then none else some (toNat (bits.take width), bits.drop width)

/-- The bits from the next full byte on. The sequence ends with a full byte. -/
def align (bits : Bits) : Bits := bits.drop (bits.length % 8)

@[simp] theorem length_ofNat (width n : Nat) : (ofNat width n).length = width := by
  induction width generalizing n with
  | zero => rfl
  | succ width ih => simp [ofNat, ih]

end Bits

end StylePrep.Encoding
