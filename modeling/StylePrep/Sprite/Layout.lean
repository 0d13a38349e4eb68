import StylePrep.Sprite.Sheet
import StylePrep.Text.Number

/-!
# Shelf layout

Images are placed on shelves from left to right, the tallest first; a new shelf
starts where the next image would not fit any more. The width of the sheet is the
power of two that holds the widest image and would hold all of them in a square.

Pixels are counted in words of 32 bits, and the area of the images in one of 64. A
sum that is too large for its word loses its carry, so a spacing of nearly `2 ^ 32`
can place an image on another; a build that checks its sums stops there instead.
The square root of the area is found in floating-point numbers.
-/

namespace StylePrep.Layout

open Text

/-! ### The width of the sheet -/

/-- The greatest number whose square is at most `n`, one binary digit after
another. -/
def floorSqrt (n : Nat) : Nat :=
  if n = 0 then 0
  else
    let root := 2 * floorSqrt (n / 4)
    if (root + 1) * (root + 1) ≤ n then root + 1 else root

/-- The floating-point number nearest to `n`, which has 53 binary digits. Of two
that are as near it is the one whose last digit is zero. -/
def nearestFloat (n : Nat) : Nat :=
  let unit := Nat.pow 2 (n.log2 - 52)
  let low := n / unit
  let rest := 2 * (n % unit)
  if unit < rest ∨ rest = unit ∧ low % 2 = 1 then (low + 1) * unit else low * unit

/-- The square root of a floating-point number that is whole, rounded to 53 binary
digits and then up. The whole number below the root is the nearest one if the root
is less than half a unit of its last digit above it. -/
def ceilSqrt (n : Nat) : Nat :=
  let root := floorSqrt n
  let halves := Nat.pow 2 (53 - root.log2)
  if (n - root * root) * halves * halves ≤ 2 * root * halves then root else root + 1

/-- The least power of two that is at least `n`. -/
def powerOfTwo (n : Nat) : Nat := if n ≤ 1 then 1 else Nat.pow 2 ((n - 1).log2 + 1)

theorem le_powerOfTwo (n : Nat) : n ≤ powerOfTwo n := by
  unfold powerOfTwo
  split
  · assumption
  · have : n - 1 < Nat.pow 2 ((n - 1).log2 + 1) := Nat.lt_log2_self
    omega

/-- The sum of two words. -/
def sum (m n : Nat) : Nat := (m + n) % bound32

/-- The area that images of these sizes take, each with the spacing on two sides. -/
def area (sizes : List Size) (spacing : Nat) : Nat :=
  sizes.foldl (fun n s => (n + sum s.width spacing * sum s.height spacing) % bound64) 0

/-- The width of the widest image, or that of a square of the area if it is wider. -/
def estimate (sizes : List Size) (spacing : Nat) : Nat :=
  max ((sizes.map Size.width).foldl max 0)
    (min (ceilSqrt (nearestFloat (area sizes spacing))) (bound32 - 1))

def sheetWidth (sizes : List Size) (spacing : Nat) : Nat :=
  powerOfTwo (estimate sizes spacing) % bound32

/-! ### Shelves -/

/-- Where the next image goes, how tall the shelf is so far, and how wide the
widest shelf. -/
structure Shelf where
  x : Nat
  y : Nat
  height : Nat
  used : Nat
  deriving DecidableEq, Repr

namespace Shelf

def first : Shelf := ⟨0, 0, 0, 0⟩

/-- The shelf the next image of this size goes on: this one if it fits or
nothing is on it yet, else a new one below. -/
def fitting (shelf : Shelf) (width spacing : Nat) (size : Size) : Shelf :=
  if width < sum shelf.x size.width ∧ 0 < shelf.x then
    { shelf with x := 0, y := sum shelf.y (sum shelf.height spacing), height := 0 }
  else shelf

def add (shelf : Shelf) (spacing : Nat) (size : Size) : Shelf where
  x := sum shelf.x (sum size.width spacing)
  y := shelf.y
  height := max shelf.height size.height
  used := max shelf.used (sum shelf.x size.width)

end Shelf

/-- Place numbered images one after another. The result has the corner of each
with its number, and the last shelf. -/
def place (width spacing : Nat) (shelf : Shelf) :
    List (Size × Nat) → List (Nat × Corner) × Shelf
  | [] => ([], shelf)
  | (size, i) :: rest =>
    let shelf := shelf.fitting width spacing size
    let (placed, last) := place width spacing (shelf.add spacing size) rest
    ((i, ⟨shelf.x, shelf.y⟩) :: placed, last)

/-- The order in which images are placed: by falling height, those of one height
as they came. -/
def placingOrder (sizes : List Size) : List (Size × Nat) :=
  sizes.zipIdx.mergeSort fun a b => b.1.height ≤ a.1.height

/-- The corner of each image, in the order given, and the size of the sheet. -/
def layout (sizes : List Size) (spacing : Nat) : List Corner × Size :=
  let (placed, last) := place (sheetWidth sizes spacing) spacing .first (placingOrder sizes)
  let corners := (List.range sizes.length).map fun i => (placed.lookup i).getD ⟨0, 0⟩
  (corners, ⟨last.used, sum last.y last.height⟩)

end StylePrep.Layout
