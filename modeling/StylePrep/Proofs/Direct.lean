import StylePrep.Proofs.Provenance
import StylePrep.Proofs.Replacement
import StylePrep.Proofs.Scopes

/-!
# Playing a text directly

A compilation scans a file into directives and then adds them one by one, numbering
lines and labelling scopes on the way. `playText` does without numbers and labels. It
goes over the pieces of a text once, writes plain text as it comes, and replaces a
directive on the spot. What it keeps on its `Stage` is little: the line being read, how
many blocks are open, how many there were at the last directive and how few there have
been since, and the output.

Scopes are moved only where a directive stands, as in a compilation: between two
directives the variables stay as they were at the first. A text that ends leaves the
scopes of its last directive open behind it.
-/

namespace StylePrep

namespace Text

/-- The line that a text ends in, `line` being the one it starts in. -/
def lineAfter (line t : Text) : Text :=
  t.foldl (fun line c => if c = '\n' then [] else line ++ [c]) line

/-- Whether a text leaves nothing but blanks on the line it ends in. -/
def clearAfter (clear : Bool) (t : Text) : Bool :=
  t.foldl (fun clear c => c == '\n' || clear && isBlank c) clear

@[simp] theorem lineAfter_nil (line : Text) : lineAfter line [] = line := rfl

@[simp] theorem clearAfter_nil (clear : Bool) : clearAfter clear [] = clear := rfl

theorem lineAfter_append (line s t : Text) :
    lineAfter line (s ++ t) = lineAfter (lineAfter line s) t := List.foldl_append

theorem clearAfter_append (clear : Bool) (s t : Text) :
    clearAfter clear (s ++ t) = clearAfter (clearAfter clear s) t := List.foldl_append

theorem lineAfter_concat (line t : Text) (c : Char) :
    lineAfter line (t ++ [c]) = if c = '\n' then [] else lineAfter line t ++ [c] :=
  lineAfter_append line t [c]

theorem clearAfter_concat (clear : Bool) (t : Text) (c : Char) :
    clearAfter clear (t ++ [c]) = (c == '\n' || clearAfter clear t && isBlank c) :=
  clearAfter_append clear t [c]

/-- Behind a line feed a line is empty. -/
theorem lineAfter_eq_nil {t : Text} (h : t.getLast? = some '\n') (line : Text) :
    lineAfter line t = [] := by
  obtain ⟨t, rfl⟩ := List.getLast?_eq_some_iff.1 h
  rw [lineAfter_concat, if_pos rfl]

/-- An empty line has nothing but blanks on it. -/
theorem clearAfter_of_lineAfter_eq_nil {line t : Text} {clear : Bool} (hline : line = [] → clear = true)
    (h : lineAfter line t = []) : clearAfter clear t = true := by
  rcases List.eq_nil_or_concat t with rfl | ⟨t, c, rfl⟩
  · exact hline h
  · rw [List.concat_eq_append] at h ⊢
    rw [lineAfter_concat] at h
    by_cases hc : c = '\n'
    · simp [clearAfter_concat, hc]
    · rw [if_neg hc] at h
      simp at h

/-- The text with its last line finished. -/
def closed (t : Text) : Text := if t.isOpen then t ++ ['\n'] else t

/-- A text put between line ends behind another one. An empty one adds nothing. -/
def spliced (t child : Text) : Text :=
  if child = [] then t else closed (closed t ++ child)

end Text

open Text Scan

/-! ### What is on the stage -/

/-- Where the play of a text stands: the line being read, whether it holds nothing but
blanks that an import would own, the scope the text was entered in, the number of the
innermost scope here, the lowest one since the last directive and the one there, and
the output so far. -/
structure Stage where
  line : Text
  clear : Bool
  floor : Nat
  depth : Nat
  low : Nat
  anchor : Nat
  out : Text
  deriving DecidableEq, Repr

namespace Stage

def start (floor : Nat) : Stage := ⟨[], true, floor, floor, floor, floor, []⟩

/-- The blanks that an import would own. -/
def indent (stage : Stage) : Text := if stage.clear then stage.line else []

def unindented (stage : Stage) : Text := stage.out.take (stage.out.length - stage.indent.length)

theorem unindented_of_out {stage : Stage} {x : Text} (h : stage.out = x ++ stage.indent) :
    stage.unindented = x := by
  rw [unindented, h]
  exact List.take_left' (by simp)

/-- Copy plain text. -/
def copy (stage : Stage) (t : Text) : Stage :=
  { stage with
    line := lineAfter stage.line t
    clear := clearAfter stage.clear t
    out := stage.out ++ t }

/-- Open or close the block that a token opens or closes; no block of another text can
be closed. -/
def move? (stage : Stage) : Effect → Option Stage
  | .opens => some { stage with depth := stage.depth + 1 }
  | .closes =>
    if stage.depth = stage.floor then none
    else some { stage with depth := stage.depth - 1, low := min stage.low (stage.depth - 1) }
  | _ => some stage

/-- The stage behind a directive spelled `t`, with this output. -/
def land (stage : Stage) (t out : Text) : Stage :=
  let line := lineAfter stage.line t
  { stage with line, clear := line.isEmpty, low := stage.depth, anchor := stage.depth, out }

end Stage

/-! ### Playing pieces -/

abbrev Player := Text → Path → Assembly Text

namespace Assembly

def playTarget (options : Options) (loader : Loader) (nested : Player) (dir : Path)
    (target : Text) : Assembly Text := do
  let tree := (← get).workspace.tree
  let path ← ofExcept .imports (Import.resolve tree target dir options.includePaths)
  let stack ← ofExcept .imports ((← get).stack.push path)
  modify fun session => { session with stack }
  let (path, text) ← ofExcept .file (loader.load tree path)
  let out ← nested text path.directory
  modify fun session => { session with stack := session.stack.pop }
  pure out

def playAll (options : Options) (loader : Loader) (nested : Player) (dir : Path) :
    List Text → Text → Assembly Text
  | [], out => pure out
  | target :: targets, out => do
    let child ← playTarget options loader nested dir target
    playAll options loader nested dir targets (out.spliced child)

def perform (options : Options) (loader : Loader) (nested : Player) (dir : Path) (stage : Stage)
    (raw : Text) : DirectiveKind → Assembly Text
  | .imports targets => playAll options loader nested dir targets stage.unindented
  | kind => do
    let text ← replacement options 0 (stage.line.takeWhile isBlank) raw kind
    pure (stage.out ++ text)

theorem perform_eq_replacement {options : Options} {loader : Loader} {nested : Player} {dir : Path}
    {stage : Stage} {raw : Text} {kind : DirectiveKind} (hkind : ∀ targets, kind ≠ .imports targets) :
    perform options loader nested dir stage raw kind = (do
      let text ← replacement options 0 (stage.line.takeWhile isBlank) raw kind
      pure (stage.out ++ text)) := by
  cases kind with
  | imports targets => exact absurd rfl (hkind targets)
  | plain => rfl
  | assign => rfl
  | sprite => rfl
  | custom => rfl

/-- Which error a play raises does not matter. -/
def failed {α : Type} : Assembly α := throw (Error.of (.scan ⟨0, .unmatchedBrace⟩))

def playPiece (options : Options) (loader : Loader) (nested : Player) (dir : Path) (stage : Stage) :
    Piece → Assembly Stage
  | .token c tail effect => match (stage.copy (c :: tail)).move? effect with
    | none => failed
    | some next => do
      modifyVars (·.keep stage.anchor)
      pure next
  | .act c found => do
    modifyVars (·.shift stage.low stage.depth)
    let out ← perform options loader nested dir stage (c :: found.tail) found.kind
    pure (stage.land (c :: found.tail) out)

def playPieces (options : Options) (loader : Loader) (nested : Player) (dir : Path) (stage : Stage) :
    List Piece → Assembly Stage
  | [] => pure stage
  | p :: ps => do
    let stage ← playPiece options loader nested dir stage p
    playPieces options loader nested dir stage ps

def playText (options : Options) (loader : Loader) (nested : Player) : Player := fun text dir => do
  let floor := (← get).vars.innermost
  let (ps, complete) := lex options.functions false true text
  let stage ← playPieces options loader nested dir (.start floor) ps
  if complete then pure stage.out else failed

/-- Play a text with up to `depth` imports inside one another. -/
def play (options : Options) (loader : Loader) : (depth : Nat) → Player
  | 0 => playText options loader fun _ _ => failed
  | depth + 1 => playText options loader (play options loader depth)

section Steps

open Step

variable {options : Options} {loader : Loader} {nested : Player} {dir : Path} {stage next : Stage}
variable {t t' : Session}

theorem returns_playPiece_token {c : Char} {tail : Text} {effect : Effect} :
    Returns (playPiece options loader nested dir stage (.token c tail effect)) t next t' ↔
      (stage.copy (c :: tail)).move? effect = some next ∧
        t' = { t with vars := t.vars.keep stage.anchor } := by
  rw [playPiece]
  cases (stage.copy (c :: tail)).move? effect with
  | none => simp [failed]
  | some next' =>
    rw [returns_bind]
    simp [eq_comm]

theorem returns_playPiece_act {c : Char} {found : Found} :
    Returns (playPiece options loader nested dir stage (.act c found)) t next t' ↔
      ∃ out, Returns (perform options loader nested dir stage (c :: found.tail) found.kind)
        { t with vars := t.vars.shift stage.low stage.depth } out t' ∧
          next = stage.land (c :: found.tail) out := by
  rw [playPiece, returns_bind]
  constructor
  · rintro ⟨_, _, hvars, hperform⟩
    obtain rfl := returns_modifyVars.1 hvars
    obtain ⟨out, s, hout, hland⟩ := returns_bind.1 hperform
    obtain ⟨rfl, rfl⟩ := returns_pure.1 hland
    exact ⟨out, hout, rfl⟩
  · rintro ⟨out, hout, rfl⟩
    exact ⟨(), _, returns_modifyVars.2 rfl, returns_bind.2 ⟨out, t', hout, returns_pure.2 ⟨rfl, rfl⟩⟩⟩

theorem returns_playText {text out : Text} :
    Returns (playText options loader nested text dir) t out t' ↔
      (lex options.functions false true text).2 = true ∧ ∃ stage,
        Returns (playPieces options loader nested dir (.start t.vars.innermost)
          (lex options.functions false true text).1) t stage t' ∧ out = stage.out := by
  unfold playText
  rw [returns_bind]
  constructor
  · rintro ⟨_, _, hget, h⟩
    obtain ⟨rfl, rfl⟩ := returns_get.1 hget
    obtain ⟨stage, s, hplay, hout⟩ := returns_bind.1 h
    split at hout
    case isTrue hcomplete =>
      obtain ⟨rfl, rfl⟩ := returns_pure.1 hout
      exact ⟨hcomplete, stage, hplay, rfl⟩
    case isFalse => exact absurd hout not_returns_throw
  · rintro ⟨hcomplete, stage, hplay, rfl⟩
    refine ⟨t, t, returns_get.2 ⟨rfl, rfl⟩, returns_bind.2 ⟨stage, t', hplay, ?_⟩⟩
    rw [if_pos hcomplete]
    exact returns_pure.2 ⟨rfl, rfl⟩

end Steps

end Assembly

end StylePrep
