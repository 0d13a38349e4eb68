import StylePrep.Encoding.Bytes

/-!
# Checksums

The two checksums of image files: CRC-32 for their chunks and Adler-32 for
their compressed data.
-/

namespace StylePrep.Encoding

/-- Divide one bit further by the reversed polynomial of CRC-32. -/
def crcBit (r : UInt32) : UInt32 :=
  if r &&& 1 = 1 then (r >>> 1) ^^^ 0xedb88320 else r >>> 1

def crcByte (r : UInt32) (b : UInt8) : UInt32 := Nat.repeat crcBit 8 (r ^^^ b.toUInt32)

def crc32 (bytes : Bytes) : UInt32 := bytes.foldl crcByte 0xffffffff ^^^ 0xffffffff

def adler32 (bytes : Bytes) : Nat :=
  let (a, b) := bytes.foldl (fun (a, b) byte =>
    let a := (a + byte.toNat) % 65521
    (a, (b + a) % 65521)) (1, 0)
  b * 65536 + a

end StylePrep.Encoding
