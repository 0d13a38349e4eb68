import StylePrep.Directive

/-!
# Scanning a style sheet

A scan walks a text once and cuts it into directives. Strings, comments, `url(…)`
and interpolation `#{…}` are stepped over as a whole; all other text goes
character by character, and whatever is no directive is collected into plain runs
that are as long as possible.

At every character the scan first asks `recognize` for a directive and otherwise
takes one token with `skip`. Imports and assignments are looked for only where a
statement can start. An import owns the indentation before it and the line end
after it, so that imported text can replace the whole line.

The outcome is the list of directives found and the error that ended the scan, if
one did; the plain run in front of an error is not reported.

The places a cursor moves through and the ordinals of blocks are natural numbers, as in
`Location`: a scan with counters of 32 bits agrees with this one on every text whose
lines, columns and blocks these can count.
-/

namespace StylePrep.Scan

open Text Delimited

/-- What a scan reads: a style sheet, or the value of a variable, where no
statement starts at the beginning. -/
inductive Mode where
  | sheet
  | expression
  deriving DecidableEq, Repr

/-- The surroundings that tokens change: the open blocks, innermost first, the
ordinal of the next block, and whether a statement can start here. -/
structure Context where
  blocks : List Nat
  nextBlock : Nat
  atStatement : Bool
  deriving DecidableEq, Repr

/-- Where a scan stands: the place, the character before it and the
surroundings. -/
structure Cursor where
  place : Location
  before : Option Char
  context : Context
  deriving DecidableEq, Repr

namespace Cursor

def start (mode : Mode) (line : Nat) : Cursor :=
  ⟨.start line, none, ⟨[], 0, mode = .sheet⟩⟩

def line (cur : Cursor) : Nat := cur.place.line

/-- The ordinals of the open blocks, outermost first. -/
def scope (cur : Cursor) : List Nat := cur.context.blocks.reverse

/-- Step over the text `c :: tail`. -/
def step (cur : Cursor) (c : Char) (tail : Text) (context : Context) : Cursor :=
  ⟨cur.place.advance (c :: tail), some (tail.getLastD c), context⟩

/-- Whether the character before the cursor continues a word, a selector or a
variable, so that no name starts here. -/
def followsWord (cur : Cursor) : Bool :=
  match cur.before with
  | none => false
  | some c => isWordChar c || ['$', '@', '.', '#', '%', '&'].contains c

end Cursor

/-- A recognized directive: its kind, the text it takes behind its first
character, and whether a statement can follow it. -/
structure Found where
  kind : DirectiveKind
  tail : Text
  atStatement : Bool
  deriving DecidableEq, Repr

/-! ### Imports -/

/-- Targets of this form are left to the browser. -/
def isCssTarget (target : Text) : Bool :=
  (before? ".css".toList target).isSome || (after? "http://".toList target).isSome ||
    (after? "https://".toList target).isSome || (after? "//".toList target).isSome

/-- One item of an import: its spelling, the name it quotes, and whether it
makes the statement one for the browser. -/
structure Target where
  spelling : Text
  name? : Option Text
  isCss : Bool
  deriving DecidableEq, Repr

/-- Read one item of an import that starts on `first`, the item itself standing
on `line`. -/
def readTarget (first line : Nat) (t : Text) : Except ScanError Target :=
  match t with
  | [] => .error ⟨first, .importWithoutName⟩
  | c :: rest =>
    if isQuote c then
      match stringTail c rest with
      | none => .error ⟨line, .unterminatedImportString⟩
      | some body =>
        let name := body.dropLast
        .ok ⟨c :: body, some name, isCssTarget name⟩
    else
      match after? "url(".toList t with
      | none => .error ⟨first, .importWithoutName⟩
      | some inner =>
        match parenTail inner with
        | none => .error ⟨line, .unterminatedImportUrl⟩
        | some body => .ok ⟨"url(".toList ++ body, none, true⟩

/-- The items of an import: their whole spelling, the names in order, and
whether the statement is one for the browser. -/
structure Targets where
  spelling : Text
  names : List Text
  isCss : Bool
  deriving DecidableEq, Repr

theorem length_lt_of_dropWhile_drop {p : Char → Bool} {t more : Text} {n : Nat} {c : Char}
    (h : (t.drop n).dropWhile p = c :: more) : more.length < t.length := by
  have hsuffix := (List.dropWhile_suffix p (l := t.drop n)).length_le
  rw [h] at hsuffix
  simp at hsuffix
  omega

/-- Read the items of an import up to its end: a semicolon, which belongs to it,
or a closing brace, a line end or the end of the text, which do not. Anything
else on the line is a media query. -/
def readTargets (first line : Nat) (t : Text) : Except ScanError Targets := do
  let space := t.takeWhile isAsciiSpace
  let line := line + newlines space
  let target ← readTarget first line (t.dropWhile isAsciiSpace)
  let rest := t.drop (space.length + target.spelling.length)
  let blank := rest.takeWhile isBlank
  let spelling := space ++ target.spelling ++ blank
  let names := target.name?.toList
  match h : rest.dropWhile isBlank with
  | ',' :: more =>
    have := length_lt_of_dropWhile_drop h
    let others ← readTargets first (line + target.spelling.newlines) more
    pure ⟨spelling ++ ',' :: others.spelling, names ++ others.names, target.isCss || others.isCss⟩
  | ';' :: _ => pure ⟨spelling ++ [';'], names, target.isCss⟩
  | [] => pure ⟨spelling, names, target.isCss⟩
  | c :: _ => pure ⟨spelling, names, target.isCss || !(['}', '\n', '\r'].contains c)⟩
termination_by t.length

/-- Read an import from the text behind its `@`. An import for the browser is
plain text. -/
def readImport (line : Nat) (t : Text) : Except ScanError (Option Found) :=
  match after? "import".toList t with
  | none => .ok none
  | some rest =>
    if (rest.head?.map fun c => isAsciiSpace c || isQuote c).getD false then do
      let targets ← readTargets line line rest
      if targets.isCss then pure none
      else
        let rest := rest.drop targets.spelling.length
        let blank := rest.takeWhile fun c => isBlank c || c == '\r'
        let lineEnd := (rest.drop blank.length).take 1 |>.filter (· == '\n')
        pure (some
          { kind := .imports targets.names
            tail := "import".toList ++ targets.spelling ++ blank ++ lineEnd
            atStatement := true })
    else .ok none

/-! ### Assignments -/

/-- The text of a statement up to its end, and the semicolon that ends it, if
one does. Brackets, strings, block comments and interpolation protect what is
inside them. `depth` counts the open brackets. -/
def readStatement (line depth : Nat) : Text → Except ScanError (Text × Text)
  | [] => .ok ([], [])
  | c :: t =>
    if isQuote c then
      match stringTail c t with
      | none => .error ⟨line, .unterminatedString⟩
      | some body => do
        let (value, stop) ← readStatement (line + body.newlines) depth (t.drop body.length)
        pure (c :: body ++ value, stop)
    else if c = '/' ∧ t.head? = some '*' then
      match commentTail t.tail with
      | none => .error ⟨line, .unterminatedComment⟩
      | some body => do
        let (value, stop) ← readStatement (line + body.newlines) depth (t.tail.drop body.length)
        pure ('/' :: '*' :: body ++ value, stop)
    else if c = '#' ∧ t.head? = some '{' then
      match braceTail t.tail with
      | none => .error ⟨line, .unterminatedInterpolation⟩
      | some body => do
        let (value, stop) ← readStatement (line + body.newlines) depth (t.tail.drop body.length)
        pure ('#' :: '{' :: body ++ value, stop)
    else if c = ';' ∧ depth = 0 then .ok ([], [';'])
    else if (c = '{' ∨ c = '}') ∧ depth = 0 then .ok ([], [])
    else do
      let depth :=
        if c = '(' ∨ c = '[' then depth + 1
        else if c = ')' ∨ c = ']' then depth - 1
        else depth
      let (value, stop) ← readStatement (line + newlines [c]) depth t
      pure (c :: value, stop)
termination_by t => t.length
decreasing_by all_goals simp; try omega

/-- A value without the flags and the white space it ends with, and the flags. -/
def splitFlags (t : Text) : Text × AssignFlags :=
  match hd : before? "!default".toList (trimEnd t) with
  | some rest =>
    have := length_lt_of_before?_trimEnd (by simp) hd
    let (value, flags) := splitFlags rest
    (value, { flags with isDefault := true })
  | none =>
    match hg : before? "!global".toList (trimEnd t) with
    | some rest =>
      have := length_lt_of_before?_trimEnd (by simp) hg
      let (value, flags) := splitFlags rest
      (value, { flags with isGlobal := true })
    | none => (trimEnd t, {})
termination_by t.length

/-- The directive that assigns `value` to `name`. Only a value that is exactly
one call of `sprite-map` binds a sprite map. -/
def assignment (name lead value tail : Text) (flags : AssignFlags) : DirectiveKind :=
  match Call.parse? value with
  | some call =>
    if call.name = SpriteFunction.spriteMap.name then
      .sprite .spriteMap call.args (some ⟨name, flags⟩)
    else .assign name lead value tail flags
  | none => .assign name lead value tail flags

def readAssignment (line : Nat) (t : Text) : Except ScanError (Option Found) :=
  let name := t.takeWhile isWordChar
  let afterName := t.dropWhile isWordChar
  let space := afterName.takeWhile isAsciiSpace
  if name = [] then .ok none
  else match afterName.dropWhile isAsciiSpace with
    | ':' :: rest => do
      let lead := name ++ space ++ ':' :: rest.takeWhile isAsciiSpace
      let (body, stop) ←
        readStatement (line + newlines lead) 0 (rest.dropWhile isAsciiSpace)
      let (value, flags) := splitFlags body
      if value = [] then .error ⟨line, .assignmentWithoutValue⟩
      else pure (some
        { kind := assignment name ('$' :: lead) value (body.drop value.length ++ stop) flags
          tail := lead ++ body ++ stop
          atStatement := true })
    | _ => .ok none

/-! ### Calls -/

/-- Read a call from its first character `c` and the text behind it. Only sprite
functions and registered functions are recognized. -/
def readCall (functions : FunctionTable) (line : Nat) (c : Char) (t : Text) :
    Except ScanError (Option Found) :=
  let word := t.takeWhile isWordChar
  let name := c :: word
  match t.dropWhile isWordChar with
  | '(' :: rest =>
    let sprite? := SpriteFunction.ofName? name
    if sprite?.isNone ∧ !functions.contains name then .ok none
    else match parenTail rest with
      | none => .error ⟨line, .unterminatedCall name⟩
      | some body =>
        let args := Call.splitArgs body.dropLast
        let found (kind : DirectiveKind) : Option Found :=
          some { kind, tail := word ++ '(' :: body, atStatement := false }
        match sprite? with
        | some .spriteMap => .error ⟨line, .unboundSpriteMap⟩
        | some function => .ok (found (.sprite function args none))
        | none => .ok (found (.custom name args))
  | _ => .ok none

/-- The directive that starts with the character `c` and the text `t`, if one
does. -/
def recognize (functions : FunctionTable) (cur : Cursor) (c : Char) (t : Text) :
    Except ScanError (Option Found) :=
  if c = '@' ∧ cur.context.atStatement then readImport cur.line t
  else if c = '$' ∧ cur.context.atStatement then readAssignment cur.line t
  else if isWordStart c ∧ !cur.followsWord then readCall functions cur.line c t
  else .ok none

/-! ### Tokens -/

/-- Step over one token of plain text that starts with `c`: the rest of the
token and the surroundings behind it. White space and comments change nothing;
a brace or a semicolon makes room for a statement, and all else takes it. -/
def skip (cur : Cursor) (c : Char) (t : Text) : Except ScanError (Text × Context) :=
  let inside : Context := { cur.context with atStatement := false }
  let whole (tail? : Option Text) (complaint : Complaint) (context : Context) :
      Except ScanError (Text × Context) :=
    match tail? with
    | none => .error ⟨cur.line, complaint⟩
    | some tail => .ok (tail, context)
  if c = '/' ∧ t.head? = some '/' then .ok (t.takeWhile (· != '\n'), cur.context)
  else if c = '/' ∧ t.head? = some '*' then
    whole ((commentTail t.tail).map ('*' :: ·)) .unterminatedComment cur.context
  else if isQuote c then whole (stringTail c t) .unterminatedString inside
  else if c = '#' ∧ t.head? = some '{' then
    whole ((braceTail t.tail).map ('{' :: ·)) .unterminatedInterpolation inside
  else if (after? "url(".toList (c :: t)).isSome ∧ !cur.followsWord then
    whole ((parenTail (t.drop 3)).map ("rl(".toList ++ ·)) .unterminatedUrl inside
  else if c = '{' then
    .ok ([], ⟨cur.context.nextBlock :: cur.context.blocks, cur.context.nextBlock + 1, true⟩)
  else if c = '}' then
    match cur.context.blocks with
    | [] => .error ⟨cur.line, .unmatchedBrace⟩
    | _ :: blocks => .ok ([], { cur.context with blocks, atStatement := true })
  else if c = ';' then .ok ([], { cur.context with atStatement := true })
  else if isAsciiSpace c then .ok ([], cur.context)
  else .ok ([], inside)

/-! ### Runs and directives -/

/-- Plain text collected since the last directive, where it starts and which
blocks are open there. -/
structure Run where
  text : Text
  start : Location
  scope : List Nat
  deriving DecidableEq, Repr

namespace Run

def fresh (cur : Cursor) : Run := ⟨[], cur.place, cur.scope⟩

def extend (run : Run) (t : Text) : Run := { run with text := run.text ++ t }

def flush (run : Run) : List Directive :=
  if run.text = [] then []
  else [⟨.plain, ⟨run.start, run.start.advance run.text⟩, run.text, run.scope⟩]

/-- The blanks at the end of the run, if they are all there is on their line and
the line starts within the run. -/
def indent (run : Run) : Text :=
  let blanks := (run.text.reverse.takeWhile (· != '\n')).reverse
  if blanks.all isBlank ∧ (blanks.length < run.text.length ∨ run.start.column = 1) then blanks
  else []

end Run

/-- The directives of a text in order, and the error that ended the scan. -/
structure Outcome where
  directives : List Directive
  error? : Option ScanError
  deriving DecidableEq, Repr

namespace Outcome

def prepend (ds : List Directive) (o : Outcome) : Outcome :=
  { o with directives := ds ++ o.directives }

end Outcome

/-- The directives that `found` completes: the run before it, and itself with
the indentation it owns. -/
def complete (cur : Cursor) (run : Run) (c : Char) (found : Found) : List Directive :=
  let indent := match found.kind with
    | .imports _ => run.indent
    | _ => []
  let before : Run := { run with text := run.text.take (run.text.length - indent.length) }
  let raw := indent ++ c :: found.tail
  let start := before.start.advance before.text
  before.flush ++ [⟨found.kind, ⟨start, start.advance raw⟩, raw, cur.scope⟩]

/-- Scan a text from a cursor, `run` being the plain text collected so far. -/
def scanFrom (functions : FunctionTable) (cur : Cursor) (run : Run) : Text → Outcome
  | [] => ⟨run.flush, none⟩
  | c :: t =>
    match recognize functions cur c t with
    | .error e => ⟨[], some e⟩
    | .ok (some found) =>
      let next := cur.step c found.tail { cur.context with atStatement := found.atStatement }
      (scanFrom functions next (.fresh next) (t.drop found.tail.length)).prepend
        (complete cur run c found)
    | .ok none =>
      match skip cur c t with
      | .error e => ⟨[], some e⟩
      | .ok (tail, context) =>
        scanFrom functions (cur.step c tail context) (run.extend (c :: tail))
          (t.drop tail.length)
termination_by t => t.length
decreasing_by all_goals simp; try omega

/-- Scan a text whose lines are numbered from `line`. -/
def scanText (functions : FunctionTable) (mode : Mode) (line : Nat) (t : Text) : Outcome :=
  let cur := Cursor.start mode line
  scanFrom functions cur (.fresh cur) t

end Scan

def scan (functions : FunctionTable) (t : Text) : Scan.Outcome :=
  Scan.scanText functions .sheet 1 t

end StylePrep
