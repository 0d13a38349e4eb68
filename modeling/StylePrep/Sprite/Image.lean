import StylePrep.Sprite.Png
import StylePrep.Tree.Change

/-!
# Image files

What reads and writes image files is a library, and sheets are packed with any of them. The
extension of a path names the format of a file, so a library is given the path beside the
contents. Unless another one is at hand, it is the library for PNG files.
-/

namespace StylePrep

/-- A library for image files: the image that a file holds, the size of an image by what
stands in front of it in its file, and the file for an image. -/
class ImageLibrary where
  decode? : Path → Bytes → Option Raster
  dimensions? : Path → Bytes → Option Size
  encode? : Path → Raster → Option Bytes

namespace Image

/-- Whether a path names a PNG file by its extension. A path without one, such as `.png`,
does not. -/
def isPng (p : Path) : Bool :=
  match p.extension? with
  | some ext => ["png".toList, "apng".toList].contains ext.asciiLower
  | none => false

instance pngLibrary : ImageLibrary where
  decode? p file := if isPng p then Png.decode file else none
  dimensions? p file := if isPng p then Png.dimensions file else none
  encode? p image := if isPng p then some (Png.encode image) else none

section Library

variable [ImageLibrary]

def open? (tree : Tree) (p : Path) : Option Raster :=
  (tree.read p).toOption.bind (ImageLibrary.decode? p)

def size? (tree : Tree) (p : Path) : Option Size :=
  (tree.read p).toOption.bind (ImageLibrary.dimensions? p)

/-- Write an image at a path. -/
def save? (tree : Tree) (p : Path) (image : Raster) : Option Tree :=
  (ImageLibrary.encode? p image).bind fun file => (tree.write p file).toOption

end Library

/-- An image is saved as a PNG file. -/
theorem save?_eq (tree : Tree) (p : Path) (image : Raster) :
    save? tree p image = if isPng p then (tree.write p (Png.encode image)).toOption else none := by
  simp only [save?, ImageLibrary.encode?]
  split <;> rfl

end Image

end StylePrep
