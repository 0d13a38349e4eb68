import StylePrep.Encoding.Huffman

/-!
# Reading compressed data

Compressed data is a sequence of blocks. A block holds bytes as they are, or
symbols of Huffman codes: a byte, the end of the block, or a length, behind which
a distance follows; then as many bytes as the length says are repeated from that
far back. The codes are fixed ones or are described at the start of the block.
-/

namespace StylePrep.Encoding.Inflate

/-- The shortest length of each length symbol and the number of bits that are
added to it. -/
def lengthClasses : List (Nat × Nat) :=
  [(3, 0), (4, 0), (5, 0), (6, 0), (7, 0), (8, 0), (9, 0), (10, 0), (11, 1), (13, 1), (15, 1),
    (17, 1), (19, 2), (23, 2), (27, 2), (31, 2), (35, 3), (43, 3), (51, 3), (59, 3), (67, 4),
    (83, 4), (99, 4), (115, 4), (131, 5), (163, 5), (195, 5), (227, 5), (258, 0)]

/-- The shortest distance of each distance symbol and the number of bits that are
added to it. -/
def distanceClasses : List (Nat × Nat) :=
  [(1, 0), (2, 0), (3, 0), (4, 0), (5, 1), (7, 1), (9, 2), (13, 2), (17, 3), (25, 3), (33, 4),
    (49, 4), (65, 5), (97, 5), (129, 6), (193, 6), (257, 7), (385, 7), (513, 8), (769, 8),
    (1025, 9), (1537, 9), (2049, 10), (3073, 10), (4097, 11), (6145, 11), (8193, 12), (12289, 12),
    (16385, 13), (24577, 13)]

def endSymbol : Nat := 256

def firstLength : Nat := 257

/-- The two codes of a block: for bytes and lengths, and for distances. -/
structure Codes where
  symbols : Huffman.Tree
  distances : Huffman.Tree
  deriving DecidableEq, Repr

/-- The member of a class that the next bits tell. -/
def readMember (classes : List (Nat × Nat)) (symbol : Nat) (bits : Bits) :
    Option (Nat × Bits) := do
  let (least, width) ← classes[symbol]?
  let (more, bits) ← Bits.read width bits
  return (least + more, bits)

/-- Repeat `length` bytes from `distance` back. Bytes are held with the latest
first. -/
def repeatBack (distance : Nat) : Nat → Bytes → Option Bytes
  | 0, out => some out
  | length + 1, out => do repeatBack distance length ((← out[distance - 1]?) :: out)

/-- Read the symbols of a block up to its end. Each symbol takes a bit or more, so
`fuel` can be the number of bits. -/
def readSymbols (codes : Codes) : Nat → Bits → Bytes → Option (Bytes × Bits)
  | 0, _, _ => none
  | fuel + 1, bits, out => do
    let (symbol, bits) ← codes.symbols.read bits
    if symbol < endSymbol then readSymbols codes fuel bits (UInt8.ofNat symbol :: out)
    else if symbol = endSymbol then return (out, bits)
    else
      let (length, bits) ← readMember lengthClasses (symbol - firstLength) bits
      let (symbol, bits) ← codes.distances.read bits
      let (distance, bits) ← readMember distanceClasses symbol bits
      readSymbols codes fuel bits (← repeatBack distance length out)

/-! ### Blocks -/

/-- The order in which the lengths of the code for lengths are given. -/
def lengthOrder : List Nat :=
  [16, 17, 18, 0, 8, 7, 9, 6, 10, 5, 11, 4, 12, 3, 13, 2, 14, 1, 15]

/-- Read `count` numbers of three bits. -/
def readTriples : Nat → Bits → Option (List Nat × Bits)
  | 0, bits => some ([], bits)
  | count + 1, bits => do
    let (n, bits) ← Bits.read 3 bits
    let (rest, bits) ← readTriples count bits
    return (n :: rest, bits)

/-- Read word lengths until there are `count`, the latest first. Three symbols
repeat the last length or zeros. -/
def readLengths (code : Huffman.Tree) (count : Nat) :
    Nat → Bits → List Nat → Option (List Nat × Bits)
  | 0, _, _ => none
  | fuel + 1, bits, found =>
    if count ≤ found.length then
      if found.length = count then some (found.reverse, bits) else none
    else do
      let (symbol, bits) ← code.read bits
      if symbol < 16 then readLengths code count fuel bits (symbol :: found)
      else
        let (repeated, least, width) ←
          if symbol = 16 then found.head?.map (·, 3, 2)
          else if symbol = 17 then some (0, 3, 3)
          else some (0, 11, 7)
        let (more, bits) ← Bits.read width bits
        readLengths code count fuel bits (List.replicate (least + more) repeated ++ found)

/-- Read the description of the codes of a block: the word lengths of both. -/
def readCodeLengths (bits : Bits) : Option ((List Nat × List Nat) × Bits) := do
  let (symbols, bits) ← Bits.read 5 bits
  let (distances, bits) ← Bits.read 5 bits
  let (given, bits) ← Bits.read 4 bits
  let (triples, bits) ← readTriples (given + 4) bits
  let lengths := (List.range 19).map fun symbol =>
    ((lengthOrder.zip triples).lookup symbol).getD 0
  let count := symbols + 257 + (distances + 1)
  let (found, bits) ← readLengths (.ofLengths lengths) count (count + 1) bits []
  return ((found.take (symbols + 257), found.drop (symbols + 257)), bits)

def Codes.ofLengths (symbols distances : List Nat) : Codes :=
  ⟨.ofLengths symbols, .ofLengths distances⟩

def fixedCodes : Codes :=
  .ofLengths (List.replicate 144 8 ++ List.replicate 112 9 ++ List.replicate 24 7 ++
    List.replicate 8 8) (List.replicate 30 5)

/-- Read a block of bytes as they are, onto the bytes read before. -/
def readStored (bits : Bits) (out : Bytes) : Option (Bytes × Bits) := do
  let (length, bits) ← Bits.read 16 bits.align
  let (complement, bits) ← Bits.read 16 bits
  if length + complement ≠ 65535 ∨ bits.length < 8 * length then none
  else return ((Bits.toBytes (bits.take (8 * length))).reverse ++ out, bits.drop (8 * length))

/-- Read blocks up to the last one, onto the bytes read before. -/
def readBlocks : Nat → Bits → Bytes → Option Bytes
  | 0, _, _ => none
  | fuel + 1, bits, out => do
    let (last, bits) ← Bits.read 1 bits
    let (kind, bits) ← Bits.read 2 bits
    let (out, bits) ←
      if kind = 0 then readStored bits out
      else if kind = 1 then readSymbols fixedCodes bits.length bits out
      else if kind = 2 then do
        let ((symbols, distances), bits) ← readCodeLengths bits
        readSymbols (.ofLengths symbols distances) bits.length bits out
      else none
    if last = 1 then return out.reverse else readBlocks fuel bits out

/-- The data of a compressed stream. Its two bytes of header and its checksum are
not looked at. -/
def inflate (stream : Bytes) : Option Bytes :=
  let bits := Bits.ofBytes (stream.drop 2)
  readBlocks bits.length bits []

end StylePrep.Encoding.Inflate
