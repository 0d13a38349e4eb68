import StylePrep.Command.Report
import StylePrep.Workspace

/-!
# Jobs

A command is a job: it works on a workspace, prints output and tells its status.
What it printed, told and wrote before an error stays.
-/

namespace StylePrep

/-- A workspace, and what has been printed and told so far. -/
structure Desk where
  workspace : Workspace
  printed : Text
  told : List Status
  deriving DecidableEq, Repr

def Desk.ofTree (tree : Tree) : Desk := ⟨.ofTree tree, [], []⟩

abbrev Job := ExceptT Error (StateM Desk)

namespace Job

def runAt {α : Type} (job : Job α) (desk : Desk) : Except Error α × Desk :=
  (ExceptT.run job).run desk

def fail {α : Type} (cause : Cause) : Job α := throw (Error.of cause)

def ofExcept {α : Type} : Except Cause α → Job α
  | .ok a => pure a
  | .error cause => fail cause

def tree : Job Tree := do return (← get).workspace.tree

def setTree (tree : Tree) : Job Unit :=
  modify fun desk => { desk with workspace := { desk.workspace with tree } }

/-- Do a task in the workspace; its error is part of the result. -/
def attempt {α : Type} (task : Task α) : Job (Except Error α) := do
  let desk ← get
  let (result, workspace) := task.runIn desk.workspace
  set { desk with workspace }
  return result

/-- Do a task in the workspace, or fail with its error. -/
def task {α : Type} (t : Task α) : Job α := do
  match ← attempt t with
  | .ok a => return a
  | .error e => throw e

def print (t : Text) : Job Unit := modify fun desk => { desk with printed := desk.printed ++ t }

/-- Tell something, if it is to be shown. -/
def tell (verbosity : Verbosity) (verb : Verb) (message : Text) (error? : Option Error := none) :
    Job Unit :=
  if verb.isShown verbosity then
    modify fun desk => { desk with told := desk.told ++ [{ verb, message, error? }] }
  else pure ()

end Job

end StylePrep
