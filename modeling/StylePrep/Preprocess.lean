import StylePrep.Preprocess.Assemble
import StylePrep.Preprocess.Export

/-!
# Preprocessing

The two ways to start a compilation: from a file, whose directory is searched
first and permitted always, and from a text without a file, for which the working
directory takes that place.
-/

namespace StylePrep.Preprocess

def loaderFor (options : Options) (tree : Tree) (dir : Path) : Loader :=
  .ofDirs tree (options.includePaths ++ [dir])

/-- Preprocess the style sheet at a path. The directories in `options` are
absolute. -/
def file (options : Options) (p : Path) : Task Compilation := do
  let tree ← Task.tree
  let p := tree.absolute p
  let loader := loaderFor options tree p.directory
  match loader.load tree p with
  | .error e => Task.fail (.file e)
  | .ok (path, text) => Assembly.assembleRoot options loader path text path.directory

def source (options : Options) (name text : Text) : Task Compilation := do
  let tree ← Task.tree
  let dir := tree.absolute ⟨['.']⟩
  Assembly.assembleRoot options (loaderFor options tree dir) ⟨name⟩ text.normalizeNewlines dir

end StylePrep.Preprocess
