import StylePrep.Tree.Basic

/-!
# Walking a directory

The files below a directory, links followed, in the order of their names: a
directory's entries are sorted, and a subdirectory comes with all it holds at the
place of its own name. A link to a directory that is being walked already is left
out, so links cannot make the walk go round. Entries that cannot be looked up are
left out as well.
-/

namespace StylePrep.Tree

/-- The entries of a directory, sorted by name. -/
def children (tree : Tree) (dir : Address) : List (Text × Node) :=
  let found := tree.entries.filterMap fun (a, node) =>
    if a ≠ [] ∧ a.dropLast = dir then some (a.getLastD [], node) else none
  found.mergeSort fun a b => (compare a.1 b.1).isLE

/-- The files below the directory at address `here`, spelled `path`, where
`walked` holds the addresses of the directories being walked, this one included.
Each link leads to a directory not walked so far, and each step down between two
links opens one more, so `fuel` can be bounded by the square of the number of
entries. -/
def filesBelow (tree : Tree) : Nat → List Address → Path → Address → List Path
  | 0, _, _, _ => []
  | fuel + 1, walked, path, here =>
    (tree.children here).flatMap fun (name, node) =>
      let p := path.join ⟨name⟩
      match node with
      | .file .. => [p]
      | .dir =>
        let a := here ++ [name]
        tree.filesBelow fuel (a :: walked) p a
      | .link _ =>
        match tree.lookup p with
        | .error _ => []
        | .ok a =>
          match tree.node? a with
          | some (.file ..) => [p]
          | some .dir => if a ∈ walked then [] else tree.filesBelow fuel (a :: walked) p a
          | _ => []

/-- The files a path leads to: itself if it is a file, all below it if it is a
directory. -/
def walk (tree : Tree) (root : Path) : List Path :=
  match tree.lookup root with
  | .error _ => []
  | .ok a =>
    match tree.node? a with
    | some (.file ..) => [root]
    | some .dir =>
      let n := tree.entries.length + 1
      tree.filesBelow (n * n) [a] root a
    | _ => []

end StylePrep.Tree
