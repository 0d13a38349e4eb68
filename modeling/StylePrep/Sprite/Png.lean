import StylePrep.Encoding.Deflate
import StylePrep.Sprite.Filter
import StylePrep.Sprite.Raster

/-!
# PNG files

Writing an image as a PNG file and reading one back. Files are written with
eight bits for each of red, green, blue and opacity. Rows are filtered and
compressed, or left as they are if that takes less space. Reading takes the same
and also grey images and images without opacity, all of eight bits a sample and
not interlaced; chunks have to pass their checksum. PNG files of other kinds are
refused here. A library that reads them as well is an `ImageLibrary` of its own.
-/

namespace StylePrep.Png

open Encoding

def signature : Bytes := [0x89, 0x50, 0x4e, 0x47, 0x0d, 0x0a, 0x1a, 0x0a]

def letters (name : String) : Bytes := Text.utf8 name.toList

/-! ### Writing -/

/-- A chunk: length, name, data and checksum. -/
def chunk (name : String) (data : Bytes) : Bytes :=
  bigEndian 4 data.length ++ letters name ++ data ++
    bigEndian 4 (crc32 (letters name ++ data)).toNat

def header (size : Size) : Bytes :=
  bigEndian 4 size.width ++ bigEndian 4 size.height ++ [8, 6, 0, 0, 0]

def compress (rows : List Bytes) : Bytes :=
  let deflated := Deflate.deflate (Filter.filterRows 4 [] rows)
  let plain := rows.flatMap (Filter.plain.code :: ·)
  if Deflate.storedSize plain.length < deflated.length then Deflate.store plain else deflated

/-- The most bytes that are written into one data chunk. -/
def maxChunk : Nat := 2147483647

def encode (r : Raster) : Bytes :=
  let rows := r.rows.map fun row => row.flatMap Pixel.bytes
  signature ++ chunk "IHDR" (header r.size) ++
    (pieces (maxChunk - 1) (compress rows)).flatMap (chunk "IDAT") ++ chunk "IEND" []

/-! ### Reading -/

inductive Layout where
  | grey
  | rgb
  | greyAlpha
  | rgba
  deriving DecidableEq, Repr

namespace Layout

/-- The layout with this number in the header. -/
def ofCode? (code : UInt8) : Option Layout :=
  if code = 0 then some grey
  else if code = 2 then some rgb
  else if code = 4 then some greyAlpha
  else if code = 6 then some rgba
  else none

def samples : Layout → Nat
  | grey => 1
  | rgb => 3
  | greyAlpha => 2
  | rgba => 4

def pixel : Layout → Bytes → Pixel
  | grey, [v] => ⟨v, v, v, 255⟩
  | rgb, [r, g, b] => ⟨r, g, b, 255⟩
  | greyAlpha, [v, a] => ⟨v, v, v, a⟩
  | rgba, [r, g, b, a] => ⟨r, g, b, a⟩
  | _, _ => .clear

end Layout

structure Header where
  size : Size
  layout : Layout
  deriving DecidableEq, Repr

def readHeader (data : Bytes) : Option Header :=
  let size : Size := ⟨ofBigEndian (data.take 4), ofBigEndian ((data.drop 4).take 4)⟩
  match data.drop 8 with
  | [8, code, 0, 0, 0] =>
    if size.width = 0 ∨ size.height = 0 then none
    else (Layout.ofCode? code).map fun layout => ⟨size, layout⟩
  | _ => none

/-- A chunk of a file and what follows it, its checksum tested. -/
def readChunk (bytes : Bytes) : Option (Bytes × Bytes × Bytes) :=
  let length := ofBigEndian (bytes.take 4)
  let body := (bytes.drop 4).take (4 + length)
  let check := (bytes.drop (8 + length)).take 4
  if body.length = 4 + length ∧ check.length = 4 ∧ ofBigEndian check = (crc32 body).toNat then
    some (body.take 4, body.drop 4, bytes.drop (12 + length))
  else none

/-- The header of a file and what follows its chunk. -/
def readStart (file : Bytes) : Option (Header × Bytes) := do
  if file.take 8 ≠ signature then none
  else
    let (name, data, rest) ← readChunk (file.drop 8)
    if name = letters "IHDR" then (readHeader data).map fun header => (header, rest) else none

/-- The data of all data chunks, up to the end mark. Other chunks are skipped.
`fuel` bounds the number of chunks. -/
def readData : Nat → Bytes → Option Bytes
  | 0, _ => none
  | fuel + 1, bytes => do
    let (name, data, rest) ← readChunk bytes
    if name = letters "IEND" then some []
    else
      let more ← readData fuel rest
      some (if name = letters "IDAT" then data ++ more else more)

def readRows (header : Header) (data : Bytes) : Option (List (Array Pixel)) := do
  let samples := header.layout.samples
  let stride := header.size.width * samples
  let rows := (pieces stride data).take header.size.height
  if rows.length < header.size.height ∨ rows.any (·.length ≠ stride + 1) then none
  else
    let rows ← Filter.readRows? samples [] rows
    return rows.map fun row => ((pieces (samples - 1) row).map header.layout.pixel).toArray

def decode (file : Bytes) : Option Raster := do
  let (header, rest) ← readStart file
  let data ← Inflate.inflate (← readData rest.length rest)
  let rows ← readRows header data
  some (.ofRows header.size rows.toArray)

/-- The size given in a PNG file whose image data starts somewhere. -/
def dimensions (file : Bytes) : Option Size := do
  let (header, rest) ← readStart file
  if startsData rest.length rest then some header.size else none
where
  /-- Whether a data chunk follows. -/
  startsData : Nat → Bytes → Bool
    | 0, _ => false
    | fuel + 1, bytes =>
      if bytes.length < 8 then false
      else if (bytes.drop 4).take 4 = letters "IDAT" then true
      else match readChunk bytes with
        | some (_, _, rest) => startsData fuel rest
        | none => false

end StylePrep.Png
