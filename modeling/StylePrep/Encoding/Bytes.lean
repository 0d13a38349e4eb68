import StylePrep.Text.Basic

/-!
# Numbers as bytes

Numbers of a fixed width in bytes, in both byte orders, and the hexadecimal
spelling of bytes.
-/

namespace StylePrep.Encoding

/-- The `width` lowest bytes of a number, the lowest first. -/
def littleEndian : Nat → Nat → Bytes
  | 0, _ => []
  | width + 1, n => UInt8.ofNat n :: littleEndian width (n / 256)

/-- The `width` lowest bytes of a number, the highest first. -/
def bigEndian (width n : Nat) : Bytes := (littleEndian width n).reverse

/-- The number with these bytes, the highest first. -/
def ofBigEndian (bytes : Bytes) : Nat := bytes.foldl (fun n b => n * 256 + b.toNat) 0

@[simp] theorem length_littleEndian (width n : Nat) : (littleEndian width n).length = width := by
  induction width generalizing n with
  | zero => rfl
  | succ width ih => simp [littleEndian, ih]

def hexDigit (n : Nat) : Char := if n < 10 then Char.ofNat (48 + n) else Char.ofNat (87 + n)

/-- Two hexadecimal digits for each byte. -/
def hex (bytes : Bytes) : Text :=
  bytes.flatMap fun b => [hexDigit (b.toNat / 16), hexDigit (b.toNat % 16)]

/-- A list cut into pieces of `n + 1` elements; the last one may be shorter. -/
def pieces (n : Nat) : List α → List (List α)
  | [] => []
  | a :: as => (a :: as.take n) :: pieces n (as.drop n)
termination_by l => l.length
decreasing_by simp only [List.length_drop, List.length_cons]; omega

end StylePrep.Encoding
