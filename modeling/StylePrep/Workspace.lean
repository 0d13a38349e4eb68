import StylePrep.Sprite.Cache
import StylePrep.Tree.Change

/-!
# Workspaces

What outlives a single compilation: the file tree, into which sheets are written,
and the cache of packed sheets. A task works on a workspace and ends in a result
or an error; what it did to the workspace stays either way.
-/

namespace StylePrep

structure Workspace where
  tree : Tree
  cache : SheetCache
  deriving DecidableEq, Repr

def Workspace.ofTree (tree : Tree) : Workspace := ⟨tree, .empty⟩

/-- Work on a workspace that can fail. -/
abbrev Task := ExceptT Error (StateM Workspace)

namespace Task

def runIn {α : Type} (task : Task α) (w : Workspace) : Except Error α × Workspace :=
  (ExceptT.run task).run w

def fail {α : Type} (cause : Cause) : Task α := throw (Error.of cause)

def tree : Task Tree := do return (← get).tree

end Task

end StylePrep
