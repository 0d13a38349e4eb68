import StylePrep.Text.Number
import StylePrep.Yaml.Cursor

/-!
# Tags of a YAML document

A tag names the kind of a node. It is written out between angle brackets, or as a
handle and a suffix, where the handle stands for the front part of the name. Lines
in front of a document, its directives, tell the version of the format and what
further handles stand for.
-/

namespace StylePrep.Yaml

open Text

def hexValue? (c : Char) : Option Nat :=
  if c.isDigit then some (c.toNat - 48)
  else if 'a' ≤ c ∧ c ≤ 'f' then some (c.toNat - 87)
  else if 'A' ≤ c ∧ c ≤ 'F' then some (c.toNat - 55)
  else none

/-- Whether a character may stand in the name of an anchor, a handle or a
directive. -/
def isNameChar (c : Char) : Bool := c.isAlphanum || c = '_' || c = '-'

/-- Whether a character stands for itself in the name of a tag. Commas and square
brackets do so only where they cannot be taken for flow structure. -/
def isTagChar (bracketed : Bool) (c : Char) : Bool :=
  isNameChar c || ";/?:@&=+$.!~*'()".toList.contains c ||
    bracketed && [',', '[', ']'].contains c

/-- The number of bytes of the character whose encoding starts with a byte. -/
def encodedLength? (byte : Nat) : Option Nat :=
  if byte < 0x80 then some 1
  else if byte / 32 = 6 then some 2
  else if byte / 16 = 14 then some 3
  else if byte / 8 = 30 then some 4
  else none

/-- The bytes of a tag name at the start of a text, and the text behind them. A
percent sign and two digits spell a byte; `owed` is the number of such bytes that
still belong to the character before. -/
def tagBytes (bracketed : Bool) (owed : Nat) : Text → Option (Bytes × Text)
  | '%' :: high :: low :: t => do
    let byte := (← hexValue? high) * 16 + (← hexValue? low)
    let owed ←
      if owed = 0 then (encodedLength? byte).map (· - 1)
      else if byte / 64 = 2 then some (owed - 1)
      else none
    let (bytes, rest) ← tagBytes bracketed owed t
    some (UInt8.ofNat byte :: bytes, rest)
  | [] => if owed = 0 then some ([], []) else none
  | c :: t =>
    if owed ≠ 0 ∨ c = '%' then none
    else if isTagChar bracketed c then do
      let (bytes, rest) ← tagBytes bracketed owed t
      some (UInt8.ofNat c.toNat :: bytes, rest)
    else some ([], c :: t)

/-- The bytes of a tag name, of which there have to be some. -/
def someTagBytes (bracketed : Bool) (t : Text) : Option (Bytes × Text) :=
  (tagBytes bracketed 0 t).filter (·.1 ≠ [])

inductive Directive where
  | version (major minor : Nat)
  | handle (name : Text) (lead : Bytes)
  deriving DecidableEq, Repr

namespace Directive

/-- A part of a version: nine digits at most. -/
def versionPart (t : Text) : Option (Nat × Text) :=
  let digits := t.takeWhile Char.isDigit
  if digits.length ≤ 9 then (digits? digits).map (·, t.drop digits.length) else none

/-- A handle that is declared: a single sign, or a name between two of them. -/
def declaredHandle : Text → Option (Text × Text)
  | '!' :: t =>
    let name := t.takeWhile isNameChar
    match t.drop name.length with
    | '!' :: rest => some ('!' :: name ++ ['!'], rest)
    | rest => if name = [] then some (['!'], rest) else none
  | _ => none

/-- What a directive says, and the text behind that. -/
def content (t : Text) : Option (Directive × Text) := do
  let name := t.takeWhile isNameChar
  let behind := t.drop name.length
  if !isBreakOrEnd behind.head? then none
  else
    let t := behind.dropWhile isBlank
    match asString name with
    | "YAML" =>
      let (major, t) ← versionPart t
      let (minor, t) ← versionPart (← after? ['.'] t)
      some (version major minor, t)
    | "TAG" =>
      let (name, t) ← declaredHandle t
      let (lead, rest) ← someTagBytes true (t.dropWhile isBlank)
      if t.head?.any isBlank ∧ isBreakOrEnd rest.head? then some (handle name lead, rest)
      else none
    | _ => none

/-- Read the directive that stands here with the line it is on. -/
def read (cur : Cursor) : Option (Directive × Cursor) := do
  let (directive, t) ← content (cur.rest.drop 1)
  let t := t.dropWhile isBlank
  let t := if t.head? = some '#' then t.dropWhile (!isLineEnd ·) else t
  if t.head?.all isLineEnd then some (directive, cur.skipTo (t.drop 1)) else none

end Directive

/-- The directives of a document: whether they give the version, and the handles
they declare. -/
structure Prologue where
  isVersioned : Bool := false
  handles : List (Text × Bytes) := []
  deriving DecidableEq, Repr

namespace Prologue

def isEmpty (p : Prologue) : Bool := !p.isVersioned && p.handles.isEmpty

/-- A prologue with one more directive. The version is given once, and so is each
handle. -/
def add (p : Prologue) : Directive → Option Prologue
  | .version major minor =>
    if p.isVersioned ∨ major ≠ 1 ∨ minor ≠ 1 ∧ minor ≠ 2 then none
    else some { p with isVersioned := true }
  | .handle name lead =>
    if (p.handles.lookup name).isSome then none
    else some { p with handles := (name, lead) :: p.handles }

/-- Read the directives up to the token behind them. -/
def read (p : Prologue) : Nat → Cursor → Option (Prologue × Cursor)
  | 0, _ => none
  | fuel + 1, cur =>
    if cur.column = 0 ∧ cur.head? = some '%' then do
      let (directive, behind) ← Directive.read cur
      (← p.add directive).read fuel (toToken true false behind)
    else some (p, cur)

def standardHandles : List (Text × Bytes) :=
  [(['!'], utf8 ['!']), (['!', '!'], utf8 "tag:yaml.org,2002:".toList)]

def tagName? (p : Prologue) (handle : Text) (suffix : Bytes) : Option Bytes :=
  ((p.handles ++ standardHandles).lookup handle).map (· ++ suffix)

/-- The name of the tag that `t` starts with, and the text behind it. -/
def readTag (p : Prologue) (inFlow : Bool) (t : Text) : Option (Bytes × Text) := do
  let (name, rest) ← match t.drop 1 with
    | '<' :: t => do
      let (name, rest) ← someTagBytes true t
      some (name, ← after? ['>'] rest)
    | t =>
      let handle := t.takeWhile isNameChar
      match t.drop handle.length with
      | '!' :: t => do
        let (suffix, rest) ← someTagBytes false t
        some (← p.tagName? ('!' :: handle ++ ['!']) suffix, rest)
      | _ => do
        let (suffix, rest) ← tagBytes false 0 t
        some (← if suffix = [] then some (utf8 ['!']) else p.tagName? ['!'] suffix, rest)
  if isBreakOrEnd rest.head? ∨ inFlow ∧ rest.head? = some ',' then some (name, rest) else none

end Prologue

end StylePrep.Yaml
