import StylePrep.Text.Basic

/-!
# Row filters

Before the rows of an image are compressed, each sample is replaced by its
difference from a prediction, which a filter makes from three neighbours: the same
sample of the pixel to the left, of the pixel above, and of the one above and to
the left. Neighbours outside the image are zero. From the differences the samples
are found again, since the neighbours of a sample are known before it.
-/

namespace StylePrep

inductive Filter where
  | plain
  | left
  | up
  | mean
  | nearest
  deriving DecidableEq, Repr

namespace Filter

def all : List Filter := [plain, left, up, mean, nearest]

def code : Filter → UInt8
  | plain => 0
  | left => 1
  | up => 2
  | mean => 3
  | nearest => 4

def ofCode? (code : UInt8) : Option Filter := all.find? (·.code = code)

/-- The neighbour that is nearest to `a + b - c`. Of two that are as near, `a` goes
before `b` and `b` before `c`. -/
def nearestOf (a b c : UInt8) : UInt8 :=
  let (x, y, z) := ((a.toNat : Int), (b.toNat : Int), (c.toNat : Int))
  let (da, db, dc) := ((y - z).natAbs, (x - z).natAbs, (x + y - 2 * z).natAbs)
  if da ≤ db ∧ da ≤ dc then a else if db ≤ dc then b else c

/-- The prediction of a filter from the neighbours to the left, above, and above to
the left. -/
def predict (a b c : UInt8) : Filter → UInt8
  | plain => 0
  | left => a
  | up => b
  | mean => UInt8.ofNat ((a.toNat + b.toNat) / 2)
  | nearest => nearestOf a b c

/-- The differences of the samples of a row. `above` is the row above, and `behind`
holds for each sample of the pixel to the left that sample and the one above
it. -/
def apply (f : Filter) : List (UInt8 × UInt8) → Bytes → Bytes → Bytes
  | _, _, [] => []
  | behind, above, sample :: row =>
    let (a, c) := behind.headD (0, 0)
    let b := above.headD 0
    (sample - f.predict a b c) ::
      f.apply (behind.drop 1 ++ [(sample, b)]) (above.drop 1) row

/-- The samples of a row with these differences, the arguments as for `apply`. -/
def undo (f : Filter) : List (UInt8 × UInt8) → Bytes → Bytes → Bytes
  | _, _, [] => []
  | behind, above, difference :: row =>
    let (a, c) := behind.headD (0, 0)
    let b := above.headD 0
    let sample := difference + f.predict a b c
    sample :: f.undo (behind.drop 1 ++ [(sample, b)]) (above.drop 1) row

/-- Filtering loses nothing. -/
theorem undo_apply (f : Filter) (behind : List (UInt8 × UInt8)) (above row : Bytes) :
    f.undo behind above (f.apply behind above row) = row := by
  induction row generalizing behind above with
  | nil => rfl
  | cons sample row ih => simp [apply, undo, ih]

/-- The neighbours outside the image for `samples` samples a pixel. -/
def outside (samples : Nat) : List (UInt8 × UInt8) := List.replicate samples (0, 0)

/-- How far differences are from zero in total, each taken as a signed number. -/
def cost (differences : Bytes) : Nat :=
  differences.foldl (fun n d => n + if d.toNat < 128 then d.toNat else 256 - d.toNat) 0

/-- The filter whose differences for a row are smallest, and the differences. Of
several it is the last, and rows are always filtered. -/
def best (samples : Nat) (above row : Bytes) : Filter × Bytes :=
  let tried := [left, up, mean, nearest].map fun f =>
    (f, f.apply (outside samples) above row)
  tried.foldl (fun best next => if cost next.2 ≤ cost best.2 then next else best)
    (left, left.apply (outside samples) above row)

/-- Rows behind the codes of their filters, each filtered as suits it best. -/
def filterRows (samples : Nat) (above : Bytes) : List Bytes → List Bytes
  | [] => []
  | row :: rows =>
    let (f, differences) := best samples above row
    (f.code :: differences) :: filterRows samples row rows

def readRows? (samples : Nat) (above : Bytes) : List Bytes → Option (List Bytes)
  | [] => some []
  | [] :: _ => none
  | (code :: differences) :: rows => do
    let f ← ofCode? code
    let row := f.undo (outside samples) above differences
    return row :: (← readRows? samples row rows)

end Filter

end StylePrep
