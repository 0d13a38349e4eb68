import StylePrep.Tree.Basic

/-!
# Changes to a file tree

Writing a file and making directories. Both answer with the changed tree. A
request that is refused leaves the tree as it was, except that `makeDirs` keeps
the directories it made before the one it could not make.
-/

namespace StylePrep.Tree

open Text

/-- The tree with `node` at `a`, in place of what stood there. -/
def set (tree : Tree) (a : Address) (node : Node) : Tree :=
  { tree with entries := (a, node) :: tree.entries.filter (·.1 ≠ a) }

/-- The tree without the entry at `a` and all that is below it. -/
def remove (tree : Tree) (a : Address) : Tree :=
  { tree with entries := tree.entries.filter fun (b, _) => !a.isPrefixOf b }

/-- The address a file is written to, going on with `relink` behind a link: it gets the
number of links that may still be followed, the place the target starts from and its
segments. The last segment may name nothing yet. -/
def targetUntil (tree : Tree) (relink : Nat → Address → List Text → Except Fault Address)
    (links : Nat) (here : Address) (segments : List Text) : Except Fault Address := do
  let (dir, links) ← tree.follow links here segments.dropLast
  let name := segments.getLastD []
  if tree.node? dir ≠ some .dir then .error .notDirectory
  else if Path.isIdle name ∨ name = ['.', '.'] then .error .isDirectory
  else if maxNameSize < name.utf8Size then .error .nameTooLong
  else match tree.node? (dir ++ [name]) with
    | some .dir => .error .isDirectory
    | some (.link path) =>
      match links with
      | 0 => .error .tooManyLinks
      | links + 1 =>
        if path = [] then .error .notFound
        else relink links (startOf dir path) (splitOn '/' path)
    | _ => pure (dir ++ [name])

/-- The address a file is written to. If the last segment names a link, the file goes
where the link leads. `hops` bounds the number of such links. -/
def target (tree : Tree) : (hops links : Nat) → Address → List Text → Except Fault Address
  | 0 => targetUntil tree fun _ _ _ => .error .tooManyLinks
  | hops + 1 => targetUntil tree (target tree hops)

/-- Write a file, in place of the one that is there. -/
def write (tree : Tree) (p : Path) (content : Bytes) : Except Fault Tree := do
  checkPath p
  let a ← tree.target maxLinks maxLinks (startOf tree.workingDir p.text) (splitOn '/' p.text)
  pure (tree.set a (.file content tree.clock))

def makeDir (tree : Tree) (p : Path) : Except Fault Tree := do
  checkPath p
  let segments := (splitOn '/' p.text).reverse.dropWhile (· = []) |>.reverse
  let (dir, _) ←
    tree.follow maxLinks (startOf tree.workingDir p.text) segments.dropLast
  let name := segments.getLastD []
  if tree.node? dir ≠ some .dir then .error .notDirectory
  else if Path.isIdle name ∨ name = ['.', '.'] then .error .alreadyExists
  else if maxNameSize < utf8Size name then .error .nameTooLong
  else if (tree.node? (dir ++ [name])).isSome then .error .alreadyExists
  else pure (tree.set (dir ++ [name]) .dir)

/-- Make a directory and the missing ones it is below, given the path and its
ancestors from the inside out. -/
def makeChain : List Path → Tree → Except Fault Unit × Tree
  | [], tree => (.error .notFound, tree)
  | p :: outer, tree =>
    let settle (fault : Fault) (tree : Tree) : Except Fault Unit × Tree :=
      (if tree.isDir p then .ok () else .error fault, tree)
    if p.text = [] then (.ok (), tree)
    else match tree.makeDir p with
      | .ok tree => (.ok (), tree)
      | .error .notFound =>
        match makeChain outer tree with
        | (.error fault, tree) => (.error fault, tree)
        | (.ok (), tree) =>
          match tree.makeDir p with
          | .ok tree => (.ok (), tree)
          | .error fault => settle fault tree
      | .error fault => settle fault tree

/-- Make a directory and the missing ones it is below. A directory that is
there already is fine. -/
def makeDirs (tree : Tree) (p : Path) : Except Fault Unit × Tree :=
  makeChain p.ancestors tree

/-- The files of `new` that `old` lacks or has with other contents. -/
def changedFiles (old new : Tree) : List (Address × Bytes) :=
  new.entries.filterMap fun (a, node) =>
    match node with
    | .file content _ =>
      match old.node? a with
      | some (.file before _) => if before = content then none else some (a, content)
      | _ => some (a, content)
    | _ => none

/-- Put an entry at an address below a directory, making the directories on the
way. -/
def plant (tree : Tree) (a : Address) (node : Node) : Tree :=
  let dirs := (List.range a.length).map a.take
  let tree := dirs.foldl
    (fun tree d => if (tree.node? d).isSome then tree else tree.set d .dir) tree
  tree.set a node

end StylePrep.Tree
