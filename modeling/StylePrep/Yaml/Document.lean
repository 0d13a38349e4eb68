import StylePrep.Yaml.Scalar

/-!
# YAML documents

A document is a tree of scalars, sequences and mappings. Block structure shows in
the columns: a mapping or a sequence keeps to one column, and what belongs to an
entry stands further right. Flow structure is written with brackets and commas.
A text holds one document, and anchors are resolved while it is read.

Every reader takes fuel. `read` gives enough of it, since each level of nesting and
each entry uses up at least one character of the text.
-/

namespace StylePrep

open Text

/-- A document or a part of one. A scalar remembers how it was written and its tag,
since what else than its text it can stand for depends on them. -/
inductive Yaml where
  | scalar (style : Yaml.Style) (tag : Option Bytes) (text : Text)
  | seq (items : List Yaml)
  | map (entries : List (Yaml × Yaml))
  deriving Repr, Inhabited

namespace Yaml

/-- The node that stands where nothing is written. -/
def absent : Yaml := scalar .plain none []

/-- Where the reading is, the directives of the document, and the nodes that anchors
name, the latest first. -/
structure Reading where
  cursor : Cursor
  prologue : Prologue
  anchors : List (Text × Yaml)
  deriving Repr

/-- A reader gives a part of a document, or nothing if the text is malformed. -/
abbrev Reader := StateT Reading Option

def cursor : Reader Cursor := return (← get).cursor

def move (cur : Cursor) : Reader Unit := modify ({ · with cursor := cur })

def skip (n : Nat) : Reader Unit := do move ((← cursor).skip n)

/-- Whether the one-character indicator `c` stands at the start of `t`. -/
def isIndicator (c : Char) (t : Text) : Bool := t.head? = some c && isBreakOrEnd t[1]?

/-! ### Properties and aliases -/

/-- The name of the anchor or alias whose sign `t` starts with. -/
def anchorName? (t : Text) : Option Text :=
  let name := (t.drop 1).takeWhile isNameChar
  let next := t[name.length + 1]?
  let mayFollow := ['?', ':', ',', ']', '}', '%', '@', '\x60']
  if name ≠ [] ∧ (isBreakOrEnd next ∨ next.any mayFollow.contains) then some name else none

/-- The anchor and the tag of a node. -/
structure Properties where
  anchor : Option Text := none
  tag : Option Bytes := none
  deriving DecidableEq, Repr

namespace Properties

def isEmpty (p : Properties) : Bool := p.anchor.isNone && p.tag.isNone

/-- All properties of two places. A node has one anchor and one tag at most. -/
def join? (p q : Properties) : Option Properties :=
  if p.anchor.isSome ∧ q.anchor.isSome ∨ p.tag.isSome ∧ q.tag.isSome then none
  else some ⟨p.anchor.or q.anchor, p.tag.or q.tag⟩

end Properties

/-- Read a property if one stands here, up to the next token. -/
def property (inFlow : Bool) : Reader Properties := do
  let { cursor := cur, prologue, .. } ← get
  if cur.head? = some '&' then
    let name ← anchorName? cur.rest
    move (toToken true inFlow (cur.skip (name.length + 1)))
    return { anchor := some name }
  else if cur.head? = some '!' then
    let (name, rest) ← prologue.readTag inFlow cur.rest
    move (toToken true inFlow (cur.skipTo rest))
    return { tag := some name }
  else return {}

/-- Read the properties before a node, in block structure only those on one line. -/
def properties (inFlow : Bool) : Reader Properties := do
  let start ← cursor
  let first ← property inFlow
  if !inFlow ∧ start.line < (← cursor).line then return first
  else first.join? (← property inFlow)

/-- Let an anchor name a node. -/
def remember (name : Text) (node : Yaml) : Reader Unit :=
  modify fun s => { s with anchors := (name, node) :: s.anchors }

/-- Read a node that has these properties. Inside of it its anchor names a mapping,
which is no good wherever a value is expected. -/
def withProperties (p : Properties) (node : Reader Yaml) : Reader Yaml := do
  if let some name := p.anchor then remember name (map [])
  let node ← match ← node with
    | scalar style _ text => pure (scalar style p.tag text)
    | node => pure node
  if let some name := p.anchor then remember name node
  return node

def aliased : Reader Yaml := do
  let { cursor := cur, anchors, .. } ← get
  let name ← anchorName? cur.rest
  move (cur.skip (name.length + 1))
  anchors.lookup name

/-! ### Nodes -/

/-- The length up to which a node can be a key in front of its colon. -/
def keyLimit : Nat := 1024

/-- The position behind the colon that makes the node from `start` to `cur` a key.
A key stands on one line. -/
def behindKey? (inFlow : Bool) (start cur : Cursor) : Option Cursor :=
  let colon := cur.past (cur.rest.takeWhile isBlank)
  if colon.head? = some ':' ∧ (inFlow ∨ isBreakOrEnd colon.rest[1]?) ∧ colon.line = start.line ∧
      start.rest.length ≤ colon.rest.length + keyLimit then
    some (colon.skip 1)
  else none

/-- Read a scalar written plain or in quotes, or in block structure as a block. -/
def scalarNode (inFlow : Bool) (least : Nat) : Reader Yaml := do
  let cur ← cursor
  let (style, text, behind) ←
    if cur.head? = some '\'' ∨ cur.head? = some '"' then
      (readQuoted cur).map (Style.quoted, ·)
    else if !inFlow ∧ cur.head? = some '|' then (readBlock least cur).map (Style.literal, ·)
    else if !inFlow ∧ cur.head? = some '>' then (readBlock least cur).map (Style.folded, ·)
    else if startsPlain inFlow cur.rest then
      (readPlain inFlow least cur.rest.length cur).map (Style.plain, ·)
    else none
  move behind
  return scalar style none text

/-- Go to the next token inside brackets, where no document can end. -/
def flowToken : Reader (Option Char) := do
  let cur := toToken true true (← cursor)
  if atMarker cur then failure
  move cur
  return cur.head?

/-- The items of a sequence in brackets: an entry with a value is a mapping of its
own. -/
def flowItem : Yaml × Option Yaml → Yaml
  | (key, some value) => map [(key, value)]
  | (item, none) => item

mutual

/-- Read what a node holds behind its properties: an alias, a collection in
brackets or a scalar. -/
def content (inFlow : Bool) (least : Nat) : Nat → Reader Yaml
  | 0 => failure
  | fuel + 1 => do
    match (← cursor).head? with
    | some '*' => aliased
    | some '[' =>
      skip 1
      return seq ((← flowEntries ']' least fuel).map flowItem)
    | some '{' =>
      skip 1
      return map ((← flowEntries '}' least fuel).map fun (key, value) => (key, value.getD absent))
    | _ => scalarNode inFlow least
termination_by structural fuel => fuel

def flowNode (least : Nat) : Nat → Reader Yaml
  | 0 => failure
  | fuel + 1 => do
    let own ← properties true
    let next := (← cursor).head?
    if own.isEmpty then content true least fuel
    else if next = some '*' then failure
    else if next.any [',', ']', '}', ':'].contains then withProperties own (pure absent)
    else withProperties own (content true least fuel)
termination_by structural fuel => fuel

def flowNodeOrAbsent (least : Nat) : Nat → Reader Yaml
  | 0 => failure
  | fuel + 1 => do
    let next ← flowToken
    if next.any [',', ']', '}', ':'].contains then return absent else flowNode least fuel
termination_by structural fuel => fuel

/-- Read one entry inside brackets: a node, or a key and its value. -/
def flowEntry (least : Nat) : Nat → Reader (Yaml × Option Yaml)
  | 0 => failure
  | fuel + 1 => do
    let start ← cursor
    if start.head? = some '?' then
      skip 1
      let key ← flowNodeOrAbsent least fuel
      if (← flowToken) = some ':' then
        skip 1
        return (key, some (← flowNodeOrAbsent least fuel))
      else return (key, some absent)
    else
      let key ← flowNode least fuel
      match behindKey? true start (← cursor) with
      | some behind =>
        move behind
        return (key, some (← flowNodeOrAbsent least fuel))
      | none => return (key, none)
termination_by structural fuel => fuel

/-- Read the entries of a collection up to its closing bracket. A comma may follow
the last one. -/
def flowEntries (close : Char) (least : Nat) : Nat → Reader (List (Yaml × Option Yaml))
  | 0 => failure
  | fuel + 1 => do
    if (← flowToken) = some close then
      skip 1
      return []
    else
      let entry ← flowEntry least fuel
      let next ← flowToken
      if next = some close then
        skip 1
        return [entry]
      else if next = some ',' then
        skip 1
        return entry :: (← flowEntries close least fuel)
      else failure
termination_by structural fuel => fuel

end

/-- The next token in block structure. A tab cannot indent it. -/
def blockToken : Reader Cursor := do
  let cur ← cursor
  return toToken (!cur.isIndented) false cur

/-- Whether a block ends here because nothing follows that stands at `column` or
further right. -/
def endsBlock (column : Nat) (cur : Cursor) : Bool :=
  cur.rest = [] || atMarker cur || cur.column < column

/-- Whether a node ends here that is indented by `least` columns or more. The header
of a block scalar may stand in the column before. -/
def endsNode (least : Nat) (cur : Cursor) : Bool :=
  let isHeader := cur.head?.any ['|', '>'].contains
  endsBlock least cur && !(isHeader && cur.column + 1 = least)

mutual

/-- Read a node that is indented by `least` columns or more, or, if it `shares` the
column of its entry, a sequence in the column before. The node can be a sequence or
a mapping in block structure if it is `fresh`: if only indentation or another entry's
sign stands before it on its line. Properties on earlier lines are `given`; those on
the line of a mapping's first key belong to the key. -/
def blockNode (least : Nat) (shares fresh : Bool) (given : Properties) : Nat → Reader Yaml
  | 0 => failure
  | fuel + 1 => do
    let before ← cursor
    let start := toToken (!fresh) false before
    let fresh := fresh || start.isIndented
    if shares ∧ fresh ∧ start.column + 1 = least ∧ isIndicator '-' start.rest then
      move start
      withProperties given (return seq (← blockItems start.column fuel))
    else if endsNode least start then withProperties given (pure absent)
    else
      move start
      if isIndicator '-' start.rest then
        if fresh then withProperties given (return seq (← blockItems start.column fuel))
        else failure
      else if isIndicator '?' start.rest then
        if fresh then withProperties given (return map (← blockEntries start.column fuel))
        else failure
      else
        let own ← properties false
        let behind ← cursor
        if !own.isEmpty ∧ (start.line < behind.line ∨ behind.rest = []) then
          blockNode least shares true (← given.join? own) fuel
        else
          let node ← if !own.isEmpty ∧ isIndicator ':' behind.rest then pure absent
            else content false least fuel
          if (behindKey? false start (← cursor)).isSome then
            if fresh then
              move start
              withProperties given (return map (← blockEntries start.column fuel))
            else failure
          else
            let all ← given.join? own
            if all.isEmpty then return node
            else if behind.head? = some '*' then failure
            else withProperties all (pure node)
termination_by structural fuel => fuel

/-- Read the items of a sequence at `column`, the first of which starts here. Each
further one starts a line. -/
def blockItems (column : Nat) : Nat → Reader (List Yaml)
  | 0 => failure
  | fuel + 1 => do
    skip 1
    let item ← blockNode (column + 1) false true {} fuel
    let next ← blockToken
    if next.column ≠ column ∨ !isIndicator '-' next.rest then return [item]
    else if next.isIndented then
      move next
      return item :: (← blockItems column fuel)
    else failure
termination_by structural fuel => fuel

/-- Read the entries of a mapping at `column`, the first of which starts here. Each
further one starts a line. -/
def blockEntries (column : Nat) : Nat → Reader (List (Yaml × Yaml))
  | 0 => failure
  | fuel + 1 => do
    let entry ← blockEntry column fuel
    let next ← blockToken
    if endsBlock column next then return [entry]
    else if next.column = column ∧ next.isIndented then
      move next
      return entry :: (← blockEntries column fuel)
    else failure
termination_by structural fuel => fuel

/-- Read the entry of a mapping at `column` that starts here. -/
def blockEntry (column : Nat) : Nat → Reader (Yaml × Yaml)
  | 0 => failure
  | fuel + 1 => do
    let start ← cursor
    if isIndicator '?' start.rest then
      skip 1
      let key ← blockNode (column + 1) true true {} fuel
      let next ← blockToken
      if next.column = column ∧ next.isIndented ∧ isIndicator ':' next.rest then
        move (next.skip 1)
        return (key, ← blockNode (column + 1) true true {} fuel)
      else return (key, absent)
    else
      let own ← properties false
      if !own.isEmpty ∧ (← cursor).head? = some '*' then failure
      let key ← if own.isEmpty then content false (column + 1) fuel
        else if isIndicator ':' (← cursor).rest then withProperties own (pure absent)
        else withProperties own (content false (column + 1) fuel)
      let behind ← behindKey? false start (← cursor)
      move behind
      return (key, ← blockNode (column + 1) true false {} fuel)
termination_by structural fuel => fuel

end

/-! ### Documents -/

/-- Read the end of the only document: markers may follow it and nothing else. -/
def documentEnd : Nat → Cursor → Option Unit
  | 0, _ => none
  | fuel + 1, cur =>
    let next := toToken (!cur.isIndented) false cur
    if next.rest = [] then some ()
    else if isMarker next ['.', '.', '.'] then documentEnd fuel (next.skip 3)
    else none

/-- The document that a text holds; `absent` if it holds none. -/
def read (t : Text) : Option Yaml := do
  let t ← prepare t
  let fuel := 4 * t.length + 8
  let start := toToken false false (Cursor.start t)
  if start.rest = [] then return absent
  else
    let (prologue, start) ← Prologue.read {} fuel start
    let (node, reading) ←
      if isMarker start ['-', '-', '-'] then
        (blockNode 0 false false {} fuel).run ⟨start.skip 3, prologue, []⟩
      else if !prologue.isEmpty ∨ isMarker start ['.', '.', '.'] then none
      else (blockNode 0 false true {} fuel).run ⟨start, prologue, []⟩
    documentEnd fuel reading.cursor
    return node

end Yaml

end StylePrep
