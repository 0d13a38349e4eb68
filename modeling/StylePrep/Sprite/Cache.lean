import StylePrep.Error
import StylePrep.Sprite.Sheet

/-!
# The sheet cache

Sheets are kept under a key that covers everything their packing depends on. A
key is packed at most once successfully: as long as it has no sheet, a request
packs, and a failure leaves it without one, so that the next request tries again.
-/

namespace StylePrep

structure SheetCache where
  sheets : List (Text × Sheet)
  deriving DecidableEq, Repr

namespace SheetCache

def empty : SheetCache := ⟨[]⟩

def get? (cache : SheetCache) (key : Text) : Option Sheet := cache.sheets.lookup key

def size (cache : SheetCache) : Nat := cache.sheets.length

/-- The sheet kept under a key, or else the one that `pack` makes from the state
`s`. -/
def getOrPack {σ : Type} (cache : SheetCache) (key : Text)
    (pack : σ → Except SpriteError Sheet × σ) (s : σ) :
    Except SpriteError Sheet × SheetCache × σ :=
  match cache.get? key with
  | some sheet => (.ok sheet, cache, s)
  | none =>
    match pack s with
    | (.ok sheet, s) => (.ok sheet, ⟨cache.sheets ++ [(key, sheet)]⟩, s)
    | (.error e, s) => (.error e, cache, s)

/-- A key that has a sheet is not packed. -/
theorem getOrPack_of_get?_eq_some {σ : Type} {cache : SheetCache} {key : Text} {sheet : Sheet}
    (h : cache.get? key = some sheet) (pack : σ → Except SpriteError Sheet × σ) (s : σ) :
    cache.getOrPack key pack s = (.ok sheet, cache, s) := by
  simp [getOrPack, h]

end SheetCache

end StylePrep
