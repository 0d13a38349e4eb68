import StylePrep.Preprocess.Assemble
import StylePrep.Project.Manifest

/-!
# Project settings

The settings of a command are those of its flags over those of the manifest. For
a single value the flag wins. Include paths of both are searched, those of the
flags first, and functions of both are registered, those of the flags last, so
that they win as well.
-/

namespace StylePrep

structure Flags where
  includePaths : List Path := []
  imageDir : Option Path := none
  genDir : Option Path := none
  buildDir : Option Path := none
  spacing : Option Nat := none
  functions : List Text := []
  manifest : Option Path := none
  deriving DecidableEq, Repr

namespace Flags

/-- The directory that style sheets are written to, if one is set. -/
def cssDir (flags : Flags) (manifest : Manifest) : Option Path :=
  flags.buildDir.or manifest.buildDir

/-- The flags merged over a manifest. Sheets go where the style sheets go unless a
directory is set for them, so that their addresses stay short. -/
def merge (flags : Flags) (manifest : Manifest) : Except SignatureError Options := do
  let functions ← FunctionTable.ofSources (manifest.functions ++ flags.functions)
  let here : Path := ⟨['.']⟩
  let imageDir := (flags.imageDir.or manifest.imageDir).getD here
  let buildDir := flags.cssDir manifest
  return {
    includePaths := flags.includePaths ++ manifest.includePaths
    functions
    sprites := {
      imageDir
      genDir := ((flags.genDir.or manifest.genDir).or buildDir).getD imageDir
      buildDir := buildDir.getD here
      spacing := (flags.spacing.or manifest.spacing).getD 0 } }

/-- The manifest for a command on `dir`: the one the flags name, else that of the
directory, else that of the working directory. -/
def findManifest (flags : Flags) (tree : Tree) (dir : Path) : Except Cause Manifest := do
  match flags.manifest with
  | some p => Manifest.load tree p
  | none =>
    match ← Manifest.loadFrom? tree dir with
    | some manifest => return manifest
    | none => return (← Manifest.loadFrom? tree ⟨['.']⟩).getD {}

/-- The settings for a command on `dir`, and the manifest they come from. -/
def resolve (flags : Flags) (tree : Tree) (dir : Path) : Except Cause (Options × Manifest) := do
  let manifest ← flags.findManifest tree dir
  match flags.merge manifest with
  | .ok options => return (options, manifest)
  | .error e => .error (.config (.signature e))

end Flags

end StylePrep
