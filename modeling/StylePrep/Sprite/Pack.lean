import StylePrep.Error
import StylePrep.Sprite.Image
import StylePrep.Sprite.Layout

/-!
# Packing a sheet

Images are read in order, laid out on shelves and written as one PNG file. The
first image that is missing or cannot be read is reported, and then nothing is
written. A sheet without images is a single transparent pixel. There is taken to
be memory enough for every picture.
-/

namespace StylePrep

/-- How a sheet is packed: the pixels between neighbours, the directory it is
written to and its name without extension. -/
structure PackOptions where
  spacing : Nat
  outDir : Path
  stem : Text
  deriving DecidableEq, Repr

namespace Sheet

variable [ImageLibrary]

def openSource (tree : Tree) (source : SpriteSource) : Except SpriteError Raster :=
  if tree.isFile source.path then
    match Image.open? tree source.path with
    | some image => .ok image
    | none => .error (.packFailure source.name .undecodable)
  else .error (.missingImage source.path.text)

/-- The picture of a sheet: its images at their corners. -/
def picture (images : List Raster) (corners : List Corner) (size : Size) : Raster :=
  .compose ⟨max size.width 1, max size.height 1⟩
    ((images.zip corners).map fun (image, corner) => ⟨image, corner⟩)

/-- Pack images into a sheet and write it. -/
def pack (sources : List SpriteSource) (options : PackOptions) (tree : Tree) :
    Except SpriteError Sheet × Tree :=
  match sources.mapM (openSource tree) with
  | .error e => (.error e, tree)
  | .ok images =>
    let sizes := images.map Raster.size
    let (corners, size) := Layout.layout sizes options.spacing
    match tree.makeDirs options.outDir with
    | (.error fault, tree) =>
      (.error (.packFailure options.stem (.noDirectory options.outDir fault)), tree)
    | (.ok (), tree) =>
      let path := options.outDir.join ⟨options.stem ++ ".png".toList⟩
      match Image.save? tree path (picture images corners size) with
      | none => (.error (.packFailure options.stem .unwritable), tree)
      | some tree =>
        let frames := (sources.zip (corners.zip sizes)).map fun (source, corner, size) =>
          { source, corner, size : Frame }
        (.ok ⟨path, size, frames⟩, tree)

end Sheet

end StylePrep
