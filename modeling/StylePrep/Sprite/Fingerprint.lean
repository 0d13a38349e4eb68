import StylePrep.Encoding.Sha256
import StylePrep.Sprite.Sheet
import StylePrep.Text.Lossy
import StylePrep.Tree.Basic

/-!
# Fingerprints

The key of a sheet in the cache: a hash over the pattern, the images with their
sizes and times, the spacing and the directory of the sheet. Texts are closed by a
zero byte and numbers have a fixed width, so what is hashed tells them all apart.
The paths of the images and of the directory are bytes, and hashed as the text they
are shown as, so paths that are shown alike are not told apart.
-/

namespace StylePrep.Fingerprint

open Encoding

/-- The size and the time of a file; zero for both if it cannot be found. -/
def fileStamp (tree : Tree) (p : Path) : Nat × Nat :=
  match tree.nodeAt p with
  | .ok (.file content modified) => (content.length, modified)
  | _ => (0, 0)

/-- What is hashed for one image: its path, its size and its time. -/
def sourceBytes (path : Bytes) (stamp : Nat × Nat) : Bytes :=
  Text.lossy path ++ 0 :: littleEndian 8 stamp.1 ++ littleEndian 16 stamp.2

def message (pattern : Text) (sources : List (Bytes × Nat × Nat)) (spacing : Nat)
    (outDir : Bytes) : Bytes :=
  pattern.utf8 ++ 0 :: sources.flatMap (fun (path, stamp) => sourceBytes path stamp) ++
    littleEndian 4 spacing ++ Text.lossy outDir

def fingerprint (tree : Tree) (pattern : Text) (sources : List SpriteSource) (spacing : Nat)
    (outDir : Path) : Text :=
  hex (Sha256.digest (message pattern
    (sources.map fun source => (source.path.text.utf8, fileStamp tree source.path)) spacing
    outDir.text.utf8))

end StylePrep.Fingerprint
