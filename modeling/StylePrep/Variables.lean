import StylePrep.Directive
import StylePrep.LineMap
import StylePrep.Sprite.Sheet

/-!
# Variables and their scopes

The table holds the variables that are visible at the current point: those of
the root and those of every open block, each block labelled with its file and its
ordinal there. An assignment writes to the innermost scope, or to the root with
`!global`; with `!default` it is dropped if the variable is visible already.
Looking up a name starts in the innermost scope.

`sync` moves from one point to another: the blocks that both points share stay,
the others are closed, and new ones open without variables. A file parsed inside
an import shares the scopes of the import, the first `base` blocks.
-/

namespace StylePrep

/-- What a variable holds: the text of its value, or a sprite map. -/
inductive Value where
  | raw (text : Text)
  | sheet (sheet : Sheet)
  deriving DecidableEq, Repr

/-- Variables of one scope, the latest assignment first. -/
abbrev Variables := List (Text × Value)

structure BlockScope where
  file : FileId
  block : Nat
  vars : Variables
  deriving DecidableEq, Repr

/-- The variables visible at one point: those of the root, and those of the open
blocks, outermost first. -/
structure VariableTable where
  root : Variables
  blocks : List BlockScope
  deriving DecidableEq, Repr

namespace VariableTable

/-- No variable, and no block open. -/
def empty : VariableTable := ⟨[], []⟩

/-- The number of the innermost scope, the root being scope 0. -/
def innermost (table : VariableTable) : Nat := table.blocks.length

/-- The scopes that stay open for `blocks` of `file`: the longest front part
whose labels agree. -/
def shared (file : FileId) : List BlockScope → List Nat → List BlockScope
  | scope :: scopes, block :: blocks =>
    if scope.file = file ∧ scope.block = block then scope :: shared file scopes blocks else []
  | _, _ => []

/-- Make the open blocks those of the first `base` and then `blocks` of `file`,
outermost first. -/
def sync (table : VariableTable) (base : Nat) (file : FileId) (blocks : List Nat) :
    VariableTable :=
  let kept := shared file (table.blocks.drop base) blocks
  let opened := (blocks.drop kept.length).map fun block => ⟨file, block, []⟩
  { table with blocks := table.blocks.take base ++ kept ++ opened }

/-- The innermost visible value of a name. -/
def get? (table : VariableTable) (name : Text) : Option Value :=
  (table.blocks.reverse.findSome? (·.vars.lookup name)).or (table.root.lookup name)

def assignInnermost (table : VariableTable) (name : Text) (value : Value) : VariableTable :=
  match table.blocks.getLast? with
  | none => { table with root := (name, value) :: table.root }
  | some scope =>
    { table with
      blocks := table.blocks.dropLast ++ [{ scope with vars := (name, value) :: scope.vars }] }

def assign (table : VariableTable) (name : Text) (value : Value) (flags : AssignFlags) :
    VariableTable :=
  if flags.isDefault ∧ (table.get? name).isSome then table
  else if flags.isGlobal then { table with root := (name, value) :: table.root }
  else table.assignInnermost name value

end VariableTable

end StylePrep
