import StylePrep.Command.Run

/-!
# The program

The command line on real files. The working directory and the paths that the
command line names are read into a file tree, the command does its work there, and
what it changed is written back.
-/

namespace StylePrep.Main

def addressOf (path : String) : Address := (Text.splitOn '/' path.toList).filter (· ≠ [])

/-- Read a file or directory and all below it into a tree. Links are kept, with
the path they lead to in the end. -/
partial def readInto (tree : Tree) (path : String) : IO Tree := do
  let entries ← (← IO.FS.realPath path).readDir
  entries.foldlM (fun tree entry => do
    let address := addressOf entry.path.toString
    match (← entry.path.symlinkMetadata).type with
    | .dir => readInto (tree.plant address .dir) entry.path.toString
    | .symlink =>
      let target := try some <$> IO.FS.realPath entry.path catch _ => pure none
      return match ← target with
        | some target => tree.plant address (.link target.toString.toList)
        | none => tree
    | .file =>
      let content ← IO.FS.readBinFile entry.path
      let time := (← entry.path.metadata).modified
      let modified := time.sec.toNat * 1000000000 + time.nsec.toNat
      return tree.plant address (.file content.toList modified)
    | .other => return tree) tree

/-- Read the directory at a path into a tree, unless it is there already or is no
directory. -/
def readDirInto (tree : Tree) (path : Path) : IO Tree := do
  try
    let dir ← IO.FS.realPath path.asString
    let address := addressOf dir.toString
    if (tree.node? address).isSome ∨ !(← dir.isDir) then return tree
    else readInto (tree.plant address .dir) dir.toString
  catch _ => return tree

/-- Read what a path leads to, and what is beside it, into a tree. -/
def readPath (tree : Tree) (path : Path) : IO Tree := do
  let absolute := tree.absolute path
  readDirInto (← readDirInto tree absolute) absolute.directory

def flagPaths (flags : Flags) : List Path :=
  flags.includePaths ++ flags.imageDir.toList ++ flags.genDir.toList ++
    flags.buildDir.toList ++ flags.manifest.toList

def namedPaths : Command → List Path
  | .build files flags => files ++ flagPaths flags
  | .preprocess file _ flags => file.toList ++ flagPaths flags
  | .completions _ => []

def writeBack (old new : Tree) : IO Unit := do
  for (address, node) in new.entries do
    if node = .dir ∧ (old.node? address).isNone then
      IO.FS.createDirAll (Tree.pathOf address).asString
  for (address, content) in old.changedFiles new do
    IO.FS.writeBinFile (Tree.pathOf address).asString ⟨content.toArray⟩

def describe (e : Error) : String :=
  let help := match e.help with
    | some help => "\n  help: " ++ help
    | none => ""
  e.code ++ ": " ++ e.message ++ help

def usage : String :=
  "Usage: wt [-v | -q] <build | preprocess | completions> [arguments]"

/-- Say why a command line is not carried out; the result is the exit code. -/
def refuse (e : UsageError) : IO UInt32 :=
  match e with
  | .help => do
    IO.println usage
    return 0
  | .version => do
    IO.println "wt 0.4.0"
    return 0
  | _ => do
    IO.eprintln usage
    return 2

def carryOut (line : CommandLine) : IO UInt32 := do
  let here ← IO.currentDir
  let bare : Tree := { entries := [], workingDir := addressOf here.toString, clock := 0 }
  let tree ← readInto (bare.plant bare.workingDir .dir) here.toString
  let tree ← (namedPaths line.command).foldlM readPath tree
  let stdin ← match line.command with
    | .preprocess file _ _ =>
      if file.all (·.text = ['-']) then (← IO.getStdin).readBinToEnd else pure .empty
    | _ => pure .empty
  let (result, desk) := (line.run stdin.toList).runAt (.ofTree tree)
  writeBack tree desk.workspace.tree
  for status in desk.told do
    IO.eprintln status.render.asString
    if let some e := status.error? then IO.eprintln (describe e)
  (← IO.getStdout).write ⟨desk.printed.utf8.toArray⟩
  match result with
  | .ok _ => return 0
  | .error e =>
    IO.eprintln (describe e)
    return 1

end StylePrep.Main

def main (args : List String) : IO UInt32 :=
  match StylePrep.CommandLine.parse (args.map String.toList) with
  | .ok line => StylePrep.Main.carryOut line
  | .error e => StylePrep.Main.refuse e
