import StylePrep.Glob.Regular

/-!
# File name patterns

A pattern is a path with wild cards: `?` is one character, `*` any number of
them, `[a-z]` and `[!a-z]` one character of a class, `{a,b}` one of several
patterns, and `**` between slashes any number of directories. A backslash takes
the next character literally.

Whether `?` and `*` stop at slashes is up to the caller. Matching goes by bytes,
so outside ASCII a `?` is one byte of a character and a class holds the bytes of
its members.
-/

namespace StylePrep

/-- What is wrong with a pattern. -/
inductive GlobFault where
  | unclosedClass
  | invalidRange (first last : Char)
  | danglingEscape
  | unclosedGroup
  | unopenedGroup
  deriving DecidableEq, Repr

structure GlobError where
  pattern : Text
  fault : GlobFault
  deriving DecidableEq, Repr

namespace GlobError

def message (e : GlobError) : String :=
  "error parsing glob '" ++ e.pattern.asString ++ "': " ++ match e.fault with
    | .unclosedClass => "unclosed character class; missing ']'"
    | .invalidRange first last =>
      "invalid range; '" ++ first.toString ++ "' > '" ++ last.toString ++ "'"
    | .danglingEscape => "dangling '\\'"
    | .unclosedGroup =>
      "unclosed alternate group; missing '\x7d' (maybe escape '\x7b' with '[\x7b]'?)"
    | .unopenedGroup =>
      "unopened alternate group; missing '\x7b' (maybe escape '\x7d' with '[\x7d]'?)"

end GlobError

namespace Glob

/-- How far wild cards reach: over slashes as well, or within a name only. -/
inductive Reach where
  | acrossSlashes
  | withinName
  deriving DecidableEq, Repr

/-- A part of a pattern. -/
inductive Token where
  | literal (c : Char)
  | anyChar
  | anyText
  /-- `**/` at the start: nothing, or any directories. -/
  | dirsBefore
  /-- `/**` at the end: all that is below. -/
  | dirsAfter
  /-- `/**/`: a slash, with any directories in between. -/
  | dirsBetween
  | oneOf (outside : Bool) (ranges : List (Char × Char))
  /-- One of several patterns, read already. -/
  | group (choice : Regular)
  deriving DecidableEq, Repr

/-- The byte of a slash. -/
def slash : UInt8 := 47

/-- The bytes of a range of characters. All bytes of both ends belong to it, and
between them it runs from the last byte of the first character to the first byte
of the last one. -/
def byteRanges (range : Char × Char) : List (UInt8 × UInt8) :=
  let single (b : UInt8) : UInt8 × UInt8 := (b, b)
  let first := String.utf8EncodeChar range.1
  let last := String.utf8EncodeChar range.2
  if range.1 = range.2 then first.map single
  else first.dropLast.map single ++ [(first.getLastD 0, last.headD 0)] ++ last.tail.map single

namespace Token

def regular (reach : Reach) : Token → Regular
  | literal c => .literal (String.utf8EncodeChar c)
  | anyChar => one
  | anyText => .star one
  | dirsBefore =>
    .any [.empty, .exactly slash, .all [.star .anyByte, .exactly slash]]
  | dirsAfter => .all [.exactly slash, .star .anyByte]
  | dirsBetween =>
    .any [.exactly slash, .all [.exactly slash, .star .anyByte, .exactly slash]]
  | oneOf outside ranges => .byte outside (ranges.flatMap byteRanges)
  | group choice => choice
where
  one : Regular := match reach with
    | .acrossSlashes => .anyByte
    | .withinName => .anyBut slash

end Token

def regularOf (reach : Reach) (tokens : List Token) : Regular :=
  .all (tokens.map (·.regular reach))

/-- The choice between several patterns. Empty ones do not count. -/
def choice (reach : Reach) (branches : List (List Token)) : Regular :=
  match (branches.map (regularOf reach)).filter (· ≠ .empty) with
  | [] => .empty
  | rs => .any rs

/-- The members of a class and the text behind it, from the text behind its
opening bracket and the mark that negates it. A closing bracket or a hyphen that
comes first is a member, and so is a hyphen that comes last. `pending` tells
whether a hyphen waits for the end of its range. -/
def readClass (ranges : List (Char × Char)) (pending : Bool) :
    Text → Except GlobFault (List (Char × Char) × Text)
  | [] => .error .unclosedClass
  | c :: t =>
    if c = ']' ∧ ranges ≠ [] then
      .ok (if pending then ranges ++ [('-', '-')] else ranges, t)
    else if c = '-' ∧ ranges ≠ [] ∧ !pending then readClass ranges true t
    else if pending then
      match ranges.getLast? with
      | none => .error .unclosedClass
      | some (first, _) =>
        if c < first then .error (.invalidRange first c)
        else readClass (ranges.dropLast ++ [(first, c)]) false t
    else readClass (ranges ++ [(c, c)]) false t

theorem length_lt_of_readClass {ranges result : List (Char × Char)} {pending : Bool} {t rest : Text}
    (h : readClass ranges pending t = .ok (result, rest)) : rest.length < t.length := by
  fun_induction readClass ranges pending t with
  | case1 => simp at h
  | case2 =>
    simp only [Except.ok.injEq, Prod.mk.injEq] at h
    simp [h.2]
  | case3 _ _ _ _ _ _ ih => have := ih h; simp; omega
  | case4 => simp at h
  | case5 => simp at h
  | case6 _ _ _ _ _ _ _ _ _ ih => have := ih h; simp; omega
  | case7 _ _ _ _ _ _ _ ih => have := ih h; simp; omega

/-- A group that is being read: the parts in front of it, and the branches of
the group around it that are complete. -/
structure Level where
  tokens : List Token
  branches : List (List Token)
  deriving DecidableEq, Repr

/-- Where the reading of a pattern stands: the groups around, innermost first,
the parts of the branch being read and the branches before it. -/
structure Reading where
  outer : List Level
  tokens : List Token
  branches : List (List Token)
  deriving DecidableEq, Repr

namespace Reading

def start : Reading := ⟨[], [], []⟩

def push (r : Reading) (token : Token) : Reading := { r with tokens := r.tokens ++ [token] }

/-- A run of any text, written as two stars. -/
def pushTwoStars (r : Reading) : Reading := (r.push .anyText).push .anyText

/-- Two stars after a slash, ending the branch or followed by another slash. They
take the place of the part before them, unless that stands for any directories
already. -/
def pushDirs (r : Reading) (token : Token) : Reading :=
  match r.tokens.getLast? with
  | some .dirsBefore => r
  | some .dirsAfter => r
  | _ => { r with tokens := r.tokens.dropLast ++ [token] }

/-- Two stars, `before` being the character in front of them and `t` the text
behind. The result tells whether a slash behind them is taken as well. -/
def stars (r : Reading) (before : Option Char) (t : Text) : Reading × Bool :=
  let inGroup := !r.outer.isEmpty
  if r.tokens = [] then
    match t with
    | [] => (r.push .dirsBefore, false)
    | '/' :: _ => (r.push .dirsBefore, true)
    | _ => (r.pushTwoStars, false)
  else if before ≠ some '/' ∧ !(inGroup ∧ (before = some ',' ∨ before = some '{')) then
    (r.pushTwoStars, false)
  else
    match t with
    | [] => (r.pushDirs .dirsAfter, false)
    | c :: _ =>
      if inGroup ∧ (c = ',' ∨ c = '}') then (r.pushDirs .dirsAfter, false)
      else if c = '/' then (r.pushDirs .dirsBetween, true)
      else (r.pushTwoStars, false)

end Reading

/-- Read a pattern from the text left, `before` being the character in front of
it. -/
def readFrom (reach : Reach) (r : Reading) (before : Option Char) :
    Text → Except GlobFault (List Token)
  | [] => if r.outer.isEmpty then .ok r.tokens else .error .unclosedGroup
  | c :: t =>
    if c = '?' then readFrom reach (r.push .anyChar) (some c) t
    else if c = '*' then
      match t with
      | '*' :: t =>
        let (r, slashTaken) := r.stars before t
        if slashTaken then readFrom reach r (some '/') (t.drop 1)
        else readFrom reach r (some '*') t
      | t => readFrom reach (r.push .anyText) (some c) t
    else if c = '[' then
      let outside := t.head? = some '!' || t.head? = some '^'
      match h : readClass [] false (if outside then t.tail else t) with
      | .error fault => .error fault
      | .ok (ranges, rest) =>
        have := length_lt_of_readClass h
        readFrom reach (r.push (.oneOf outside ranges)) (some ']') rest
    else if c = '{' then
      readFrom reach ⟨⟨r.tokens, r.branches⟩ :: r.outer, [], []⟩ (some c) t
    else if c = '}' then
      match r.outer with
      | [] => .error .unopenedGroup
      | level :: outer =>
        let group := Token.group (choice reach (r.branches ++ [r.tokens]))
        readFrom reach ⟨outer, level.tokens ++ [group], level.branches⟩ (some c) t
    else if c = ',' ∧ !r.outer.isEmpty then
      readFrom reach { r with tokens := [], branches := r.branches ++ [r.tokens] } (some c) t
    else if c = '\\' then
      match t with
      | [] => .error .danglingEscape
      | d :: t => readFrom reach (r.push (.literal d)) (some d) t
    else readFrom reach (r.push (.literal c)) (some c) t
termination_by t => t.length
decreasing_by
  all_goals simp only [List.length_cons, List.length_drop]
  all_goals try omega
  split at this
  · simp only [List.length_tail] at this
    omega
  · omega

end Glob

/-- A pattern: its parts, and how far its wild cards reach. -/
structure Glob where
  reach : Glob.Reach
  tokens : List Glob.Token
  deriving DecidableEq, Repr

namespace Glob

def parse (reach : Reach) (pattern : Text) : Except GlobError Glob :=
  match readFrom reach .start none pattern with
  | .error fault => .error ⟨pattern, fault⟩
  | .ok tokens => .ok ⟨reach, tokens⟩

/-- The texts a pattern stands for. A lone `**` is every text. -/
def regular (g : Glob) : Regular :=
  if g.tokens = [.dirsBefore] then .star .anyByte else regularOf g.reach g.tokens

def accepts (g : Glob) (path : Text) : Bool := g.regular.accepts path.utf8

end Glob

end StylePrep
