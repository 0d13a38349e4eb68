import StylePrep.Encoding.Checksum
import StylePrep.Encoding.Inflate

/-!
# Compressing data

Data comes in rows. It is written as one block with a code that never changes: it
has short words for small differences, positive and negative, which is what the
rows of a filtered image consist of. Nothing is repeated but zeros. If the block
gets longer than the data as it is, blocks of bytes as they are can be written
instead.
-/

namespace StylePrep.Encoding.Deflate

/-- What a block consists of: bytes, and repetitions of the byte before. -/
inductive Token where
  | byte (b : UInt8)
  | again (count : Nat)
  deriving DecidableEq, Repr

/-- The longest repetition that has a symbol. -/
def maxRepeat : Nat := 258

/-- Zeros behind a zero. A few of them are cheaper as they are. -/
def moreZeros (count : Nat) : List Token :=
  List.replicate (count / maxRepeat) (.again maxRepeat) ++
    let rest := count % maxRepeat
    if 4 < rest then [.again rest] else List.replicate rest (.byte 0)

def zeros : Nat → List Token
  | 0 => []
  | count + 1 => .byte 0 :: moreZeros count

/-- The size of the groups in which a row is searched for zeros. -/
def groupSize : Nat := 8

/-- The tokens of a row that is cut into groups, behind `run` zeros. A run starts
with zeros at the end of a group and goes on with those at the start of the next
one. The last group may be shorter, and is written as it is. -/
def groupTokens (run : Nat) : List Bytes → List Token
  | [] => zeros run
  | group :: groups =>
    if group.length < groupSize then zeros run ++ group.map .byte
    else if group.all (· = 0) then groupTokens (run + groupSize) groups
    else
      let front := if run = 0 then 0 else (group.takeWhile (· = 0)).length
      let back := (group.reverse.takeWhile (· = 0)).length
      zeros (run + front) ++ ((group.take (groupSize - back)).drop front).map .byte ++
        groupTokens back groups

def rowTokens (row : Bytes) : List Token := groupTokens 0 (pieces (groupSize - 1) row)

/-- The start of the block, with the description of the code. -/
def blockStart : Bits :=
  (Bits.ofBytes
    [0xed, 0xc0, 0x03, 0xa0, 0x24, 0x59, 0x96, 0xc6, 0xf1, 0xff, 0x77, 0xee, 0x8d, 0xc8, 0xcc,
      0xa7, 0x72, 0x4b, 0x63, 0xae, 0x6d, 0xdb, 0xb6, 0x6d, 0xdb, 0xb6, 0x6d, 0xdb, 0xb6, 0x6d,
      0x69, 0x8c, 0x9e, 0x96, 0x4a, 0xaf, 0x9e, 0x32, 0x33, 0x22, 0xee, 0xf9, 0x76, 0xb7, 0x6a,
      0x7a, 0xa6, 0x87, 0x3b, 0x6b, 0xd5, 0xaf]).take 413

/-- The words of the code, as the start of the block describes them. -/
def codeWords : List (Nat × Bits) :=
  match Inflate.readCodeLengths (blockStart.drop 3) with
  | some ((symbols, _), _) => Huffman.words symbols
  | none => []

def word (symbol : Nat) : Bits := (codeWords.lookup symbol).getD []

/-- The place of a length among the classes of lengths, and its place within its
class with the bits that takes. -/
def classOf (count : Nat) : Nat × Bits :=
  let index := (Inflate.lengthClasses.filter (·.1 ≤ count)).length - 1
  let (least, width) := Inflate.lengthClasses.getD index (0, 0)
  (index, Bits.ofNat width (count - least))

/-- The bits of a token. The only distance there is takes one bit. -/
def tokenBits : Token → Bits
  | .byte b => word b.toNat
  | .again count =>
    let (index, more) := classOf count
    word (Inflate.firstLength + index) ++ more ++ [false]

/-- A compressed stream: the header, the blocks and the checksum of the data. -/
def stream (blocks data : Bytes) : Bytes := [0x78, 0x01] ++ blocks ++ bigEndian 4 (adler32 data)

def deflate (rows : List Bytes) : Bytes :=
  let bits := blockStart ++ (rows.flatMap rowTokens).flatMap tokenBits ++ word Inflate.endSymbol
  stream (Bits.toBytes bits) rows.flatten

/-! ### Data as it is -/

/-- The most bytes that one block can hold as they are. -/
def maxStored : Nat := 65535

def storedBlock (isLast : Bool) (data : Bytes) : Bytes :=
  (if isLast then 1 else 0) ::
    littleEndian 2 data.length ++ littleEndian 2 (maxStored - data.length) ++ data

/-- The blocks of data, the last one marked. -/
def storedBlocks : List Bytes → Bytes
  | [] => storedBlock true []
  | [block] => storedBlock true block
  | block :: blocks => storedBlock false block ++ storedBlocks blocks

def store (data : Bytes) : Bytes := stream (storedBlocks (pieces (maxStored - 1) data)) data

/-- The size that an uncompressed stream of `n` bytes is taken to have. The bytes
of a last block that is full do not count. -/
def storedSize (n : Nat) : Nat := (n - 1) / maxStored * (maxStored + 5) + n % maxStored + 11

end StylePrep.Encoding.Deflate
