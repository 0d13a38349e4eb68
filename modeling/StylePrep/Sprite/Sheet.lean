import StylePrep.Path

/-!
# Sprite sheets

A sheet is an image file into which several images were packed. Each of them is
a frame: a rectangle of the sheet under the name of the image.
-/

namespace StylePrep

/-- An image to be packed, under the name it is asked for by. -/
structure SpriteSource where
  name : Text
  path : Path
  deriving DecidableEq, Repr

structure Size where
  width : Nat
  height : Nat
  deriving DecidableEq, Repr

structure Corner where
  x : Nat
  y : Nat
  deriving DecidableEq, Repr

structure Frame where
  source : SpriteSource
  corner : Corner
  size : Size
  deriving DecidableEq, Repr

/-- A packed sheet: its file, the size of its layout and its frames. -/
structure Sheet where
  path : Path
  size : Size
  frames : List Frame
  deriving DecidableEq, Repr

namespace Sheet

def frame? (sheet : Sheet) (name : Text) : Option Frame :=
  sheet.frames.find? (·.source.name = name)

end Sheet

end StylePrep
