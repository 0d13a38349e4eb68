import StylePrep.Encoding.Bytes

/-!
# Base 64

The text form of bytes with the standard alphabet and padding: three bytes
become four characters, and a last group that is shorter is filled up with
equals signs.
-/

namespace StylePrep.Encoding.Base64

/-- The character of a number below 64. -/
def symbol (n : Nat) : Char :=
  if n < 26 then Char.ofNat (65 + n)
  else if n < 52 then Char.ofNat (71 + n)
  else if n < 62 then Char.ofNat (n - 4)
  else if n = 62 then '+'
  else '/'

/-- The four characters of a group of up to three bytes. -/
def group : Bytes → Text
  | [a, b, c] =>
    let n := ofBigEndian [a, b, c]
    [symbol (n / 262144), symbol (n / 4096 % 64), symbol (n / 64 % 64), symbol (n % 64)]
  | [a, b] =>
    let n := ofBigEndian [a, b, 0]
    [symbol (n / 262144), symbol (n / 4096 % 64), symbol (n / 64 % 64), '=']
  | [a] =>
    let n := ofBigEndian [a, 0, 0]
    [symbol (n / 262144), symbol (n / 4096 % 64), '=', '=']
  | _ => []

def encode (bytes : Bytes) : Text := (pieces 2 bytes).flatMap group

end StylePrep.Encoding.Base64
