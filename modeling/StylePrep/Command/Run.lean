import StylePrep.Command.Build
import StylePrep.Command.Parse

/-!
# Running commands

The preprocess command prints what becomes of one style sheet before it is
compiled. `CommandLine.run` carries out whatever a command line asks for.
-/

namespace StylePrep

open Text

namespace Inspect

def stdinName : Text := "<stdin>".toList

/-- What is to be printed of a compilation. -/
def shown (c : Compilation) : View → Text
  | .output => c.output
  | .lineMap => Export.lineMap c ++ ['\n']
  | .origin line => c.describeLine line ++ ['\n']

/-- Preprocess a file, or the standard input. -/
def compilation (verbosity : Verbosity) (options : Options) (file : Option Path)
    (stdin : Bytes) : Job Compilation := do
  match file with
  | some path =>
    Job.tell verbosity .preprocessing (displayPath (← Job.tree) path)
    Job.task (Preprocess.file options path)
  | none =>
    match ofUtf8? stdin with
    | none => Job.fail (.io ⟨stdinName⟩ .readInput .notText)
    | some text => Job.task (Preprocess.source options stdinName text)

/-- The preprocess command. A dash names the standard input, as no name does. -/
def run (verbosity : Verbosity) (file : Option Path) (view : View) (flags : Flags)
    (stdin : Bytes) : Job Unit := do
  let tree ← Job.tree
  let file := file.filter (·.text ≠ ['-'])
  let dir := (file.bind Path.parent?).getD ⟨['.']⟩
  let (options, _) ← Job.ofExcept (flags.resolve tree dir)
  let c ← compilation verbosity (options.absolute tree) file stdin
  Job.tell verbosity .assembled
    (plural c.map.lineCount "line".toList "lines".toList ++ " from ".toList ++
      plural c.files.length "file".toList "files".toList)
  Job.print (shown c view)

end Inspect

inductive Answer where
  | built (built : List Built)
  | done
  deriving DecidableEq, Repr

namespace CommandLine

/-- Carry out a command line. The completions command is understood and prints
nothing: its scripts depend on the shells alone and on nothing in a workspace. -/
def run (line : CommandLine) (stdin : Bytes) : Job Answer := do
  match line.command with
  | .build files flags => return .built (← Build.run line.verbosity files flags)
  | .preprocess file view flags =>
    Inspect.run line.verbosity file view flags stdin
    return .done
  | .completions _ => return .done

end CommandLine

end StylePrep
