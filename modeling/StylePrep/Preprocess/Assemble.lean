import StylePrep.Import.Loader
import StylePrep.Preprocess.Compilation
import StylePrep.Scan
import StylePrep.Sprite.Expand

/-!
# Assembling a compilation

The root file and everything it imports are assembled by a walk in depth. Plain
text is copied, an import is replaced by the assembled target, calls of sprite
functions by their values and calls of registered functions by their normal form.
In an assignment only the value is expanded, and the variable holds the value as
it is put out.

Every error gets the location of the directive it was raised at, in the innermost
file; a scan error that of its own line.

Each import opens a file that is not being read already, so there can be no more
imports inside one another than there are files: `depth` starts at their number.
-/

namespace StylePrep

/-- Settings shared by all compilations: the directories searched after the
importing file's own, the registered functions and the image directories. -/
structure Options where
  includePaths : List Path
  functions : FunctionTable
  sprites : SpriteConfig
  deriving DecidableEq, Repr

namespace Options

def absolute (options : Options) (tree : Tree) : Options :=
  { options with
    includePaths := options.includePaths.map tree.absolute
    sprites := { options.sprites with
      imageDir := tree.absolute options.sprites.imageDir
      genDir := tree.absolute options.sprites.genDir
      buildDir := tree.absolute options.sprites.buildDir } }

end Options

/-- The state of a compilation: the workspace, the files read so far, those
being read, and the variables visible. -/
structure Session where
  workspace : Workspace
  files : List SourceFile
  stack : ImportStack
  vars : VariableTable
  deriving DecidableEq, Repr

abbrev Assembly := ExceptT Error (StateM Session)

namespace Assembly

open Text

/-- Do a task in the workspace of the session. -/
def task {α : Type} (t : Task α) : Assembly α := do
  let session ← get
  let (result, workspace) := t.runIn session.workspace
  set { session with workspace }
  match result with
  | .ok a => pure a
  | .error e => throw e

def ofExcept {ε α : Type} (cause : ε → Cause) : Except ε α → Assembly α
  | .ok a => pure a
  | .error e => throw (Error.of (cause e))

/-- Add a file to those read; the result is its number. -/
def addFile (file : SourceFile) : Assembly FileId := do
  let session ← get
  set { session with files := session.files ++ [file] }
  pure session.files.length

def file (id : FileId) : Assembly SourceFile := do
  return ((← get).files[id]?).getD ⟨⟨[]⟩, [], none⟩

def modifyVars (f : VariableTable → VariableTable) : Assembly Unit :=
  modify fun session => { session with vars := f session.vars }

/-- Locate the error of a step at a place. -/
def locating {α : Type} (place : Text) (step : Assembly α) : Assembly α :=
  tryCatch step fun e => throw (e.locate place)

def normalizeCall (functions : FunctionTable) (name : Text) (args : List Text) (line : Nat) :
    Assembly Text :=
  match functions.get? name with
  | none => throw (Error.of (.scan ⟨line, .binding name .notRegistered⟩))
  | some sig => do
    let values ← ofExcept .scan (sig.normalize args line)
    pure (Call.render ⟨name, values⟩)

def expandSprite (options : Options) (function : SpriteFunction) (args : List Text) (line : Nat)
    (indent : Text) : Assembly Expansion := do
  let vars := (← get).vars
  task (Expand.expand options.sprites vars ⟨function.name, args, line⟩ indent)

/-- The text of directives found in a value, calls replaced, and whether there
were any. -/
def expandDirectives (options : Options) : List Directive → Assembly (Text × Bool)
  | [] => pure ([], false)
  | d :: ds => do
    let (text, isCall) ← match d.kind with
      | .sprite function args _ => do
        let expansion ← expandSprite options function args d.line []
        pure (expansion.text, true)
      | .custom name args => do
        let text ← normalizeCall options.functions name args d.line
        pure (text, true)
      | _ => pure (d.raw, false)
    let (rest, more) ← expandDirectives options ds
    pure (text ++ rest, isCall || more)

/-- A value with the calls in it replaced; nothing if there are none. -/
def expandValue (options : Options) (value : Text) (line : Nat) : Assembly (Option Text) := do
  let outcome := Scan.scanText options.functions .expression line value
  let (text, changed) ← expandDirectives options outcome.directives
  match outcome.error? with
  | some e => throw (Error.of (.scan e))
  | none => pure (if changed then some text else none)

/-- The assignment that binds a sprite map, as it is written to the output. -/
def bindingText (binding : Binding) (value : Text) (terminated : Bool) : Text :=
  '$' :: binding.name ++ ": ".toList ++ value ++
    (if binding.flags.isDefault then " !default".toList else []) ++
    (if binding.flags.isGlobal then " !global".toList else []) ++
    (if terminated then [';'] else [])

/-- The blanks that the last line of a text starts with. -/
def lineIndent (t : Text) : Text :=
  (t.reverse.takeWhile (· != '\n')).reverse.takeWhile isBlank

/-- How an imported file is assembled, given its number and its directory. -/
abbrev Importer := FileId → Path → Assembly LineMap

def importTarget (options : Options) (loader : Loader) (nested : Importer) (file : FileId)
    (dir : Path) (target : Text) : Assembly LineMap := do
  let tree := (← get).workspace.tree
  let path ← ofExcept .imports (Import.resolve tree target dir options.includePaths)
  let stack ← ofExcept .imports ((← get).stack.push path)
  modify fun session => { session with stack }
  let (path, text) ← ofExcept .file (loader.load tree path)
  let id ← addFile ⟨path, text, some file⟩
  let map ← nested id path.directory
  modify fun session => { session with stack := session.stack.pop }
  pure map

def importAll (options : Options) (loader : Loader) (nested : Importer) (file : FileId)
    (dir : Path) : List Text → LineMap → Assembly LineMap
  | [], map => pure map
  | target :: targets, map => do
    let child ← importTarget options loader nested file dir target
    importAll options loader nested file dir targets (map.splice child)

/-- Add one directive to the output, `before` being the text of the file in
front of it. -/
def addDirective (options : Options) (loader : Loader) (nested : Importer) (file : FileId)
    (dir : Path) (before : Text) (map : LineMap) (d : Directive) : Assembly LineMap :=
  match d.kind with
  | .plain => pure (map.append d.raw file d.line)
  | .imports targets => importAll options loader nested file dir targets map
  | .assign name lead value tail flags => do
    match ← expandValue options value d.line with
    | none =>
      modifyVars (·.assign name (.raw value) flags)
      pure (map.append d.raw file d.line)
    | some expanded =>
      modifyVars (·.assign name (.raw expanded) flags)
      pure (((map.append lead file d.line).generate expanded file d.line).append tail file
        (d.line + newlines (lead ++ value)))
  | .sprite function args binding => do
    let expansion ← expandSprite options function args d.line (lineIndent before)
    match binding with
    | none => pure (map.generate expansion.text file d.line)
    | some binding =>
      match expansion.sheet? with
      | some sheet => modifyVars (·.assign binding.name (.sheet sheet) binding.flags)
      | none => pure ()
      let terminated := (trimEnd d.raw).getLast? = some ';'
      pure (map.generate (bindingText binding expansion.text terminated) file d.line)
  | .custom name args => do
    let text ← normalizeCall options.functions name args d.line
    pure (map.generate text file d.line)

/-- Add directives to the output one after another. `base` is the number of the
scope the file was entered in. -/
def addDirectives (options : Options) (loader : Loader) (nested : Importer) (file : FileId)
    (path dir : Path) (base : Nat) (before : Text) (map : LineMap) :
    List Directive → Assembly LineMap
  | [] => pure map
  | d :: ds => do
    modifyVars (·.sync base file d.scope)
    let map ← locating (Compilation.place path d.line)
      (addDirective options loader nested file dir before map d)
    addDirectives options loader nested file path dir base (before ++ d.raw) map ds

/-- Assemble a file that was read, with its imports assembled by `nested`. -/
def assembleFile (options : Options) (loader : Loader) (nested : Importer) (file : FileId)
    (dir : Path) : Assembly LineMap := do
  let source ← Assembly.file file
  let base := (← get).vars.innermost
  let outcome := scan options.functions source.text
  let map ← addDirectives options loader nested file source.path dir base [] .empty
    outcome.directives
  match outcome.error? with
  | some e => throw ((Error.of (.scan e)).locate (Compilation.place source.path e.line))
  | none => pure map

/-- Assemble a file with up to `depth` imports inside one another. One more
would have to open a file that is being read. -/
def assemble (options : Options) (loader : Loader) : (depth : Nat) → Importer
  | 0 => assembleFile options loader fun id _ => do
    let source ← Assembly.file id
    throw (Error.of (.imports (.cyclic source.path (← get).stack.paths)))
  | depth + 1 => assembleFile options loader (assemble options loader depth)

/-- Assemble a root text that is called `path`, its imports being relative to
`dir`. -/
def assembleRoot (options : Options) (loader : Loader) (path : Path) (text : Text) (dir : Path) :
    Task Compilation := do
  let workspace ← get
  let session : Session := ⟨workspace, [⟨path, text, none⟩], ⟨[path]⟩, .empty⟩
  let depth := workspace.tree.fileCount
  let (result, session) := (ExceptT.run (assemble options loader depth 0 dir)).run session
  set session.workspace
  match result with
  | .ok map => pure ⟨map, session.files⟩
  | .error e => throw e

end Assembly

end StylePrep
