import StylePrep.Text.Basic

/-!
# File paths

A path keeps the spelling it was given, and that spelling is what gets printed
and joined. What a path stands for is the list of its components: repeated
slashes and inner `.` segments do not count, a leading `.` of a relative path
does. Two spellings are the same path when their components agree, paths are
ordered by their components, and one path lies below another when it starts with
its components.

Operations that cut a spelling (`parent?`, `below?`) leave no idle segment at the
cut and at the end, and keep everything else as it was written.
-/

namespace StylePrep

/-- A path as it is spelled. -/
structure Path where
  text : Text
  deriving DecidableEq, Repr

namespace Path

open Text

/-- What a segment of a path stands for. -/
inductive Component where
  | root
  | here
  | up
  | name (name : Text)
  deriving DecidableEq, Repr

namespace Component

def text : Component → Text
  | root => ['/']
  | here => ['.']
  | up => ['.', '.']
  | name n => n

/-- The order of the kinds of components. -/
def rank : Component → Nat
  | root => 0
  | here => 1
  | up => 2
  | name _ => 3

/-- Components are ordered by kind, names by their characters. -/
instance : Ord Component where
  compare a b := (compare a.rank b.rank).then (compare a.text b.text)

end Component

/-- What stands in front of the segments of a path. -/
inductive Lead where
  | root
  | here
  | none
  deriving DecidableEq, Repr

/-- A segment that stands for nothing: an empty one, or a dot. -/
def isIdle (segment : Text) : Bool := segment = [] || segment = ['.']

/-- What a path starts with, and its segments after that. -/
def segments (p : Path) : Lead × List Text :=
  match p.text with
  | '/' :: t => (.root, splitOn '/' t)
  | ['.'] => (.here, [])
  | '.' :: '/' :: t => (.here, splitOn '/' t)
  | t => (.none, splitOn '/' t)

def ofSegments : Lead → List Text → Path
  | .root, body => ⟨'/' :: join ['/'] body⟩
  | .here, [] => ⟨['.']⟩
  | .here, body => ⟨'.' :: '/' :: join ['/'] body⟩
  | .none, body => ⟨join ['/'] body⟩

def components (p : Path) : List Component :=
  let (lead, body) := p.segments
  let first : List Component := match lead with
    | .root => [.root]
    | .here => [.here]
    | .none => []
  first ++ body.filterMap fun segment =>
    if isIdle segment then none
    else if segment = ['.', '.'] then some .up
    else some (.name segment)

def same (p q : Path) : Bool := p.components = q.components

/-- Paths are ordered by their components. -/
instance : Ord Path where
  compare p q := compare p.components q.components

def isAbsolute (p : Path) : Bool := p.text.head? = some '/'

def startsWith (p base : Path) : Bool := base.components.isPrefixOf p.components

/-- The path `q` taken from directory `p`. An absolute path stands for itself. -/
def join (p q : Path) : Path :=
  if q.isAbsolute then q
  else if p.text = [] || p.text.getLast? = some '/' then ⟨p.text ++ q.text⟩
  else ⟨p.text ++ '/' :: q.text⟩

/-- A list of segments without the idle ones at its end. -/
def trimIdle (body : List Text) : List Text := (body.reverse.dropWhile isIdle).reverse

/-- The path without its last component. The root and the empty path have
none. -/
def parent? (p : Path) : Option Path :=
  let (lead, body) := p.segments
  match trimIdle body with
  | [] => if lead = .here then some ⟨[]⟩ else none
  | body => some (ofSegments lead (trimIdle body.dropLast))

/-- The directory a path is in; the empty path if there is none to name. -/
def directory (p : Path) : Path := p.parent?.getD ⟨[]⟩

def fileName? (p : Path) : Option Text :=
  match p.components.getLast? with
  | some (.name n) => some n
  | _ => none

/-- The parts of a file name around its last dot. A name without a dot, or with
a leading one only, has no second part. -/
def splitName (name : Text) : Text × Option Text :=
  match splitOnce? '.' name.reverse with
  | some (ext, stem) => if stem = [] then (name, none) else (stem.reverse, some ext.reverse)
  | none => (name, none)

def stem? (p : Path) : Option Text := p.fileName?.map fun name => (splitName name).1

def extension? (p : Path) : Option Text := p.fileName?.bind fun name => (splitName name).2

/-- The path with its extension replaced, or added if it has none. A path
without a file name stays. -/
def withExtension (p : Path) (ext : Text) : Path :=
  match p.stem? with
  | none => p
  | some stem =>
    let (lead, body) := p.segments
    ofSegments lead ((trimIdle body).dropLast ++ [stem ++ '.' :: ext])

/-- The path with its file name replaced, or added if it has none. -/
def withFileName (p : Path) (name : Text) : Path :=
  if p.fileName?.isSome then p.directory.join ⟨name⟩ else p.join ⟨name⟩

/-- What is left of a list of segments after `n` that count. -/
def dropCounted : Nat → List Text → List Text
  | 0, body => body.dropWhile isIdle
  | n + 1, body => dropCounted n ((body.dropWhile isIdle).drop 1)

/-- The spelling of `p` as seen from `base`, if `p` starts with its
components. -/
def below? (p base : Path) : Option Path :=
  if p.startsWith base then
    let (lead, body) := p.segments
    let body := trimIdle body
    match base.components.length with
    | 0 => some (ofSegments lead body)
    | n + 1 => some (ofSegments .none
        (dropCounted (if lead = .none then n + 1 else n) body))
  else none

def slashed (p : Path) : Text := Text.join ['/'] (p.components.map Component.text)

/-- The number of components two lists have in common at their front. -/
def commonLength : List Component → List Component → Nat
  | a :: as, b :: bs => if a = b then commonLength as bs + 1 else 0
  | _, _ => 0

/-- The path that leads from directory `dir` to `p`, judged by their components
alone. -/
def relativeTo (p dir : Path) : Path :=
  let common := commonLength dir.components p.components
  let ups := List.replicate (dir.components.length - common) Component.up
  (ups ++ p.components.drop common).foldl (fun q c => q.join ⟨c.text⟩) ⟨[]⟩

/-- The path and all paths it is below, from the inside out. -/
def ancestors (p : Path) : List Path := go p.text.length p
where
  go : Nat → Path → List Path
    | 0, p => [p]
    | n + 1, p => p :: match p.parent? with
      | none => []
      | some q => go n q

def asString (p : Path) : String := p.text.asString

end Path

end StylePrep
