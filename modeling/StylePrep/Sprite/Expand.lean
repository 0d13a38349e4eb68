import StylePrep.Encoding.Base64
import StylePrep.Glob.Pattern
import StylePrep.Sprite.Fingerprint
import StylePrep.Sprite.Pack
import StylePrep.Text.Number
import StylePrep.Tree.Walk
import StylePrep.Variables
import StylePrep.Workspace

/-!
# Expanding sprite and image functions

Each call of a sprite or image function is replaced by a plain value. Arguments
may be quoted texts, variables, or such calls themselves. A variable is replaced
by its value, which is an argument in turn, and a call by its expansion; both go
only so deep, so that a cycle of variables is an error and not a loop.

Only `sprite-map` touches the workspace: it packs the images that match its
pattern, unless the cache has the sheet.
-/

namespace StylePrep

/-- Where images are read and sheets are written, and the directory that URLs
start from. -/
structure SpriteConfig where
  imageDir : Path
  genDir : Path
  buildDir : Path
  spacing : Nat
  deriving DecidableEq, Repr

/-- The text that replaces a call, and the sheet that a `sprite-map` made. -/
structure Expansion where
  text : Text
  sheet? : Option Sheet
  deriving DecidableEq, Repr

/-- An argument after variables and calls in it are replaced. -/
inductive Argument where
  | text (text : Text)
  | sheet (sheet : Sheet)
  deriving DecidableEq, Repr

/-- A call to be expanded, and the line it is on. -/
structure Invocation where
  name : Text
  args : List Text
  line : Nat
  deriving DecidableEq, Repr

namespace Invocation

/-- Complain about the arguments of a call. -/
def fail {α : Type} (call : Invocation) (fault : ArgumentFault) : Task α :=
  Task.fail (.scan ⟨call.line, .argument call.name fault⟩)

/-- Require the number of arguments to be in a range. -/
def checkArity (call : Invocation) (least most : Nat) : Task Unit :=
  if least ≤ call.args.length ∧ call.args.length ≤ most then pure ()
  else call.fail (.arity least most call.args.length)

end Invocation

namespace Expand

open Text

/-! ### Values -/

def quote (t : Text) : Text := '"' :: t ++ ['"']

def url (t : Text) : Text := "url(".toList ++ t ++ [')']

/-- A length in pixels; zero has no unit. -/
def px (i : Int) : Text := if i = 0 then ['0'] else ofInt i ++ ['p', 'x']

/-- The integer a length in pixels stands for, with or without its unit. -/
def parsePx (t : Text) : Option Int :=
  let t := trim t
  int64? (trim ((before? ['p', 'x'] t).getD t))

/-- The URL of a file, seen from the build directory. -/
def urlFor (config : SpriteConfig) (p : Path) : Text := (p.relativeTo config.buildDir).slashed

/-- The first part of a sheet's name: the directory its pattern names last, if
that is no pattern itself. -/
def sheetStem (pattern : Text) : Text :=
  match (Path.mk pattern).parent?.bind Path.fileName? with
  | some name => if name.any ['*', '?', '[', '{'].contains then "sprite".toList else name
  | none => "sprite".toList

/-- The media type that the extension of a file stands for. -/
def mimeType (p : Path) : Text :=
  let ext := ((p.extension?).getD []).asciiLower
  let known : List (String × String) :=
    [("png", "image/png"), ("gif", "image/gif"), ("jpg", "image/jpeg"), ("jpeg", "image/jpeg"),
      ("svg", "image/svg+xml"), ("webp", "image/webp"), ("ico", "image/x-icon")]
  ((known.lookup ext.asString).getD "application/octet-stream").toList

/-! ### Sprite maps -/

/-- The images below the image directory whose path there matches a pattern, in
the order of their paths. -/
def collectImages (config : SpriteConfig) (glob : Glob) (tree : Tree) : List SpriteSource :=
  (tree.walk config.imageDir).filterMap fun p => do
    let relative ← p.below? config.imageDir
    if glob.accepts relative.text then some ⟨relative.stem?.getD [], p⟩ else none

/-- The sheet of the images that match a pattern. -/
def spriteMap (config : SpriteConfig) (pattern : Text) (spacing : Nat) : Task Sheet := do
  let glob ← match Glob.parse .withinName pattern with
    | .ok glob => pure glob
    | .error e => Task.fail (.sprite (.packFailure pattern (.badPattern e)))
  let tree ← Task.tree
  let sources := collectImages config glob tree
  if sources = [] then Task.fail (.sprite (.missingImage pattern))
  else
    let key := Fingerprint.fingerprint tree pattern sources spacing config.genDir
    let options : PackOptions :=
      { spacing, outDir := config.genDir, stem := sheetStem pattern ++ '-' :: key.take 6 }
    let (result, cache, tree) :=
      (← get).cache.getOrPack key (Sheet.pack sources options) tree
    set (Workspace.mk tree cache)
    match result with
    | .ok sheet => pure sheet
    | .error e => Task.fail (.sprite e)

/-! ### Calls -/

section Calls

variable (config : SpriteConfig) (resolve : Text → Task Argument) (call : Invocation)

def argument (i : Nat) : Task Argument :=
  match call.args[i]? with
  | some raw => resolve raw
  | none => call.fail (.missing (i + 1))

/-- The argument at a position as a text; a sheet stands for its URL. -/
def textArg (i : Nat) : Task Text := do
  match ← argument resolve call i with
  | .text t => pure t
  | .sheet sheet => pure (urlFor config sheet.path)

def sheetArg (i : Nat) : Task Sheet := do
  match ← argument resolve call i with
  | .sheet sheet => pure sheet
  | .text _ => call.fail (.notSpriteMap ((call.args[i]?).getD []))

/-- The frame of a sheet that the argument at a position names. -/
def frameArg (sheet : Sheet) (i : Nat) : Task Frame := do
  let name ← textArg config resolve call i
  match sheet.frame? name with
  | some frame => pure frame
  | none => Task.fail (.sprite (.missingImage name))

/-- The offset that the argument at a position gives, zero if there is none. -/
def offsetArg (i : Nat) : Task Int :=
  if i < call.args.length then do
    let t ← textArg config resolve call i
    match parsePx t with
    | some offset => pure offset
    | none => call.fail (.badOffset t)
  else pure 0

/-- The sheet and the frame that the first two arguments name. -/
def sheetAndFrame : Task (Sheet × Frame) := do
  let sheet ← sheetArg resolve call 0
  let frame ← frameArg config resolve call sheet 1
  pure (sheet, frame)

/-- The position of a frame edge `by` pixels further. -/
def shift (offset : Int) (edge : Nat) : Task Int :=
  if minInt64 ≤ offset - edge then pure (offset - edge) else call.fail (.offsetOutOfRange offset)

/-- The background position that shows a frame, moved by the third and fourth
argument. -/
def position (frame : Frame) : Task Text := do
  let dx ← offsetArg config resolve call 2
  let dy ← offsetArg config resolve call 3
  let x ← shift call dx frame.corner.x
  let y ← shift call dy frame.corner.y
  pure (px x ++ ' ' :: px y)

/-- The pixels between images that the second argument gives, or else the usual
ones. -/
def spacingArg : Task Nat :=
  if 1 < call.args.length then do
    let t ← textArg config resolve call 1
    match parsePx t with
    | some n => if 0 ≤ n ∧ n < bound32 then pure n.toNat else call.fail (.badSpacing t)
    | none => call.fail (.badSpacing t)
  else pure config.spacing

/-- The size of the image file that the first argument names. -/
def imageSize : Task Size := do
  let name ← textArg config resolve call 0
  let path := config.imageDir.join ⟨name⟩
  let tree ← Task.tree
  if tree.isFile path then
    match Image.size? tree path with
    | some size => pure size
    | none => Task.fail (.sprite (.packFailure name .undecodable))
  else Task.fail (.sprite (.missingImage name))

/-- A number of pixels, always with its unit. -/
def pixels (n : Nat) : Text := ofNat n ++ ['p', 'x']

def plain (text : Task Text) : Task Expansion := do return ⟨← text, none⟩

def expandFunction (indent : Text) : SpriteFunction → Task Expansion
  | .spriteMap => do
    call.checkArity 1 2
    let pattern ← textArg config resolve call 0
    let spacing ← spacingArg config resolve call
    let sheet ← spriteMap config pattern spacing
    pure ⟨quote (urlFor config sheet.path), some sheet⟩
  | .sprite => plain do
    call.checkArity 2 4
    let (sheet, frame) ← sheetAndFrame config resolve call
    let position ← position config resolve call frame
    pure (url (quote (urlFor config sheet.path)) ++ ' ' :: position)
  | .spriteUrl => plain do
    call.checkArity 1 1
    let sheet ← sheetArg resolve call 0
    pure (url (quote (urlFor config sheet.path)))
  | .spritePosition => plain do
    call.checkArity 2 4
    let (_, frame) ← sheetAndFrame config resolve call
    position config resolve call frame
  | .spriteFile => plain do
    call.checkArity 2 2
    let (_, frame) ← sheetAndFrame config resolve call
    let path := frame.source.path
    pure (quote ((path.below? config.imageDir).getD path).slashed)
  | .spriteWidth => plain do
    call.checkArity 2 2
    let (_, frame) ← sheetAndFrame config resolve call
    pure (pixels frame.size.width)
  | .spriteHeight => plain do
    call.checkArity 2 2
    let (_, frame) ← sheetAndFrame config resolve call
    pure (pixels frame.size.height)
  | .spriteDimensions => plain do
    call.checkArity 2 2
    let (_, frame) ← sheetAndFrame config resolve call
    pure ("width: ".toList ++ pixels frame.size.width ++ ";\n".toList ++ indent ++
      "height: ".toList ++ pixels frame.size.height)
  | .imageUrl => plain do
    call.checkArity 1 2
    let name ← textArg config resolve call 0
    let target := quote (urlFor config (config.imageDir.join ⟨name⟩))
    let onlyPath ← if 1 < call.args.length then
        (· == "true".toList) <$> textArg config resolve call 1
      else pure false
    pure (if onlyPath then target else url target)
  | .imageWidth => plain do
    call.checkArity 1 1
    let size ← imageSize config resolve call
    pure (pixels size.width)
  | .imageHeight => plain do
    call.checkArity 1 1
    let size ← imageSize config resolve call
    pure (pixels size.height)
  | .inlineImage => plain do
    call.checkArity 1 2
    let name ← textArg config resolve call 0
    let path := config.imageDir.join ⟨name⟩
    match (← Task.tree).read path with
    | .error _ => Task.fail (.sprite (.missingImage name))
    | .ok bytes =>
      let mime ← if 1 < call.args.length then textArg config resolve call 1
        else pure (mimeType path)
      pure (url (quote ("data:".toList ++ mime ++ ";base64,".toList ++
        Encoding.Base64.encode bytes)))

end Calls

/-! ### Arguments -/

/-- The variable that an argument refers to. -/
def reference? (raw : Text) : Option Text := do
  let name ← after? ['$'] raw
  if name ≠ [] ∧ name.all isWordChar then some name else none

/-- The number of steps through variables and nested calls that an argument is
followed. -/
def maxSteps : Nat := 17

/-- Resolve an argument of a call: variables are followed, calls of sprite
functions are expanded, and quotes are taken off all else. `steps` is the number
of steps left. -/
def resolve (config : SpriteConfig) (vars : VariableTable) :
    (steps : Nat) → (call : Invocation) → (raw : Text) → Task Argument
  | 0, call, _ => call.fail .tooDeep
  | steps + 1, call, raw =>
    let raw := trim raw
    match reference? raw with
    | some name =>
      match vars.get? name with
      | some (.sheet sheet) => pure (.sheet sheet)
      | some (.raw value) => resolve config vars steps call value
      | none => call.fail (.undefinedVariable name)
    | none =>
      match (Call.parse? raw).bind fun c => (SpriteFunction.ofName? c.name).map (c, ·) with
      | some (c, function) => do
        let nested : Invocation := ⟨c.name, c.args, call.line⟩
        let expansion ←
          expandFunction config (resolve config vars steps nested) nested [] function
        match expansion.sheet? with
        | some sheet => pure (.sheet sheet)
        | none => pure (.text (unquote expansion.text))
      | none => pure (.text (unquote raw))

/-- Expand a call of a sprite function. `indent` is the indentation of its line,
for replacements of several lines. -/
def expand (config : SpriteConfig) (vars : VariableTable) (call : Invocation) (indent : Text) :
    Task Expansion :=
  match SpriteFunction.ofName? call.name with
  | some function =>
    expandFunction config (resolve config vars maxSteps call) call indent function
  | none => call.fail .notSpriteFunction

end Expand

end StylePrep
