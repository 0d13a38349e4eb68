import StylePrep.Command.Job
import StylePrep.Preprocess
import StylePrep.Project.Inputs

/-!
# Building style sheets

The build command preprocesses and compiles every input, then writes the results
one after the other: below the build directory, at the path the input has below
the source it was found in, or to the output if no build directory is set. An
input that fails is reported, and the others are built all the same; the command
then fails at the end.
-/

namespace StylePrep

open Text

/-- An input that was built, and the file it was written to; none if it was
printed. -/
structure Built where
  input : Path
  output : Option Path
  deriving DecidableEq, Repr

namespace Build

def projectDir (tree : Tree) : List Path → Path
  | [] => ⟨['.']⟩
  | file :: _ => if tree.isDir file then file else file.directory

def compile (options : Options) (input : Input) : Task Text := do
  let compilation ← Preprocess.file options input.path
  match compilation.compile with
  | .ok css => return css
  | .error e => throw e

/-- Write a style sheet below a build directory, or print it without one. -/
def deliver (buildDir : Option Path) (input : Input) (css : Text) :
    Job (Except Error (Option Path)) := do
  match buildDir with
  | none =>
    Job.print css
    return .ok none
  | some dir =>
    let path := dir.join input.cssPath
    match path.parent? with
    | none => pure ()
    | some parent =>
      let (made, tree) := (← Job.tree).makeDirs parent
      Job.setTree tree
      if let .error fault := made then
        return .error (Error.of (.io parent .createOutputDir fault))
    match (← Job.tree).write path css.utf8 with
    | .error fault => return .error (Error.of (.io path .writeCss fault))
    | .ok tree =>
      Job.setTree tree
      return .ok (some path)

/-- Deliver the result for one input and tell about it. -/
def report (verbosity : Verbosity) (buildDir : Option Path) (input : Input)
    (result : Except Error Text) : Job (Option Built) := do
  let tree ← Job.tree
  let display := displayPath tree (tree.absolute input.path)
  let delivered ← match result with
    | .ok css => deliver buildDir input css
    | .error e => pure (.error e)
  match delivered with
  | .error e =>
    Job.tell verbosity .error ("encountered in ".toList ++ display) (some e)
    return none
  | .ok output =>
    let target := match output with
      | some path => " -> ".toList ++ displayPath tree path
      | none => []
    Job.tell verbosity .compiled (display ++ target)
    return some ⟨input.path, output⟩

def all (verbosity : Verbosity) (options : Options) (buildDir : Option Path)
    (inputs : List Input) : Job (List Built) := do
  let results ← inputs.mapM fun input => Job.attempt (compile options input)
  let built ← (inputs.zip results).filterMapM fun (input, result) =>
    report verbosity buildDir input result
  if built.length < inputs.length then
    Job.fail (.buildFailed (inputs.length - built.length) inputs.length)
  else
    let sheets := plural (← get).workspace.cache.size
      "sprite sheet".toList "sprite sheets".toList
    Job.tell verbosity .finished (plural built.length "style sheet".toList "style sheets".toList ++
      " (".toList ++ sheets ++ " cached)".toList)
    return built

def makeBuildDir : Option Path → Job Unit
  | none => pure ()
  | some dir => do
    let (made, tree) := (← Job.tree).makeDirs dir
    Job.setTree tree
    if let .error fault := made then Job.fail (.io dir .createBuildDir fault)

def run (verbosity : Verbosity) (files : List Path) (flags : Flags) : Job (List Built) := do
  let tree ← Job.tree
  let (options, manifest) ← Job.ofExcept (flags.resolve tree (projectDir tree files))
  let sources := if files = [] then manifest.sources.map Path.mk else files
  if sources = [] then Job.fail (.config .noInputs)
  else
    let excludes ← Job.ofExcept (manifest.excludePatterns.mapError .config)
    match Input.find tree excludes sources with
    | [] =>
      Job.tell verbosity .warning "no style sheets to build (partials are skipped)".toList
      return []
    | inputs =>
      let buildDir := (flags.cssDir manifest).map tree.absolute
      makeBuildDir buildDir
      Job.tell verbosity .inputs (plural inputs.length "file".toList "files".toList)
      all verbosity (options.absolute tree) buildDir inputs

end Build

end StylePrep
