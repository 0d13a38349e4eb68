import StylePrep.Sprite.Sheet

/-!
# Pixel images

An image is its size and the colour of each pixel. Pictures are composed by
placing images on a transparent ground; where two of them overlap, the later one
shows.
-/

namespace StylePrep

structure Pixel where
  red : UInt8
  green : UInt8
  blue : UInt8
  alpha : UInt8
  deriving DecidableEq, Repr

namespace Pixel

/-- No colour at all. -/
def clear : Pixel := ⟨0, 0, 0, 0⟩

def bytes (p : Pixel) : Bytes := [p.red, p.green, p.blue, p.alpha]

end Pixel

/-- An image: its size, and the pixel in each column and row inside it. -/
structure Raster where
  size : Size
  pixel : Nat → Nat → Pixel

namespace Raster

def row (r : Raster) (y : Nat) : List Pixel := (List.range r.size.width).map (r.pixel · y)

def rows (r : Raster) : List (List Pixel) := (List.range r.size.height).map r.row

def ofRows (size : Size) (rows : Array (Array Pixel)) : Raster where
  size := size
  pixel x y := (rows.getD y #[]).getD x .clear

structure Placed where
  image : Raster
  corner : Corner

namespace Placed

def covers (p : Placed) (x y : Nat) : Bool :=
  p.corner.x ≤ x && x < p.corner.x + p.image.size.width &&
    p.corner.y ≤ y && y < p.corner.y + p.image.size.height

end Placed

/-- The picture of the placed images on a transparent ground. -/
def compose (size : Size) (placed : List Placed) : Raster where
  size := size
  pixel x y := match placed.reverse.find? (·.covers x y) with
    | some p => p.image.pixel (x - p.corner.x) (y - p.corner.y)
    | none => .clear

end Raster

end StylePrep
