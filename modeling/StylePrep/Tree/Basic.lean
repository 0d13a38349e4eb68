import StylePrep.Path

/-!
# File trees

A file tree is a value: the files, directories and symbolic links below the root,
each at its address, together with a working directory for relative paths. Reading
a path follows the usual rules of path lookup. Every segment but the last has to
lead to a directory, `..` goes to the parent, a link is replaced by its target,
and a path that ends in a slash has to name a directory. A lookup follows a
limited number of links, so it ends in every tree.
-/

namespace StylePrep

inductive Fault where
  | notFound
  | alreadyExists
  | notDirectory
  | isDirectory
  | nameTooLong
  | tooManyLinks
  | nulInName
  | notText
  deriving DecidableEq, Repr

namespace Fault

/-- The system's wording of a fault. -/
def message : Fault → String
  | notFound => "No such file or directory (os error 2)"
  | alreadyExists => "File exists (os error 17)"
  | notDirectory => "Not a directory (os error 20)"
  | isDirectory => "Is a directory (os error 21)"
  | nameTooLong => "File name too long (os error 36)"
  | tooManyLinks => "Too many levels of symbolic links (os error 40)"
  | nulInName => "file name contained an unexpected NUL byte"
  | notText => "stream did not contain valid UTF-8"

end Fault

/-- The names that lead from the root to an entry. -/
abbrev Address := List Text

/-- What stands at an address. Times are nanoseconds since 1970. -/
inductive Node where
  | file (content : Bytes) (modified : Nat)
  | dir
  | link (target : Text)
  deriving DecidableEq, Repr

/-- A file tree. The root is a directory without an entry of its own; `clock` is
the time that files written from now on get. -/
structure Tree where
  entries : List (Address × Node)
  workingDir : Address
  clock : Nat
  deriving DecidableEq, Repr

namespace Tree

open Text

/-- What stands at an address. -/
def node? (tree : Tree) (a : Address) : Option Node :=
  if a = [] then some .dir else tree.entries.lookup a

def maxNameSize : Nat := 255

def maxPathSize : Nat := 4095

/-- The number of links one lookup follows. -/
def maxLinks : Nat := 40

/-- Where a link or path starts: an absolute one at the root, any other one at
`dir`. -/
def startOf (dir : Address) (path : Text) : Address :=
  if path.head? = some '/' then [] else dir

/-- Follow path segments from the entry at `here`, going on with `relink` behind a
link: it gets the place the target starts from and the segments that are left. The
result is the address they lead to and the number of links that may still be
followed, `links` of them as long as none is met. -/
def followUntil (tree : Tree) (links : Nat)
    (relink : Address → List Text → Except Fault (Address × Nat)) (here : Address) :
    List Text → Except Fault (Address × Nat)
  | [] => .ok (here, links)
  | segment :: rest =>
    match tree.node? here with
    | some .dir =>
      if Path.isIdle segment then followUntil tree links relink here rest
      else if segment = ['.', '.'] then followUntil tree links relink here.dropLast rest
      else if maxNameSize < segment.utf8Size then .error .nameTooLong
      else
        match tree.node? (here ++ [segment]) with
        | none => .error .notFound
        | some (.link target) =>
          if links = 0 then .error .tooManyLinks
          else if target = [] then .error .notFound
          else relink (startOf here target) (splitOn '/' target ++ rest)
        | some _ => followUntil tree links relink (here ++ [segment]) rest
    | _ => .error .notDirectory

/-- Follow path segments from the entry at `here`, over at most `links` links. The
result is the address they lead to and the number of links that may still be
followed. -/
def follow (tree : Tree) : (links : Nat) → (here : Address) → List Text →
    Except Fault (Address × Nat)
  | 0 => followUntil tree 0 fun _ _ => .error .tooManyLinks
  | links + 1 => followUntil tree (links + 1) (follow tree links)

/-- The faults a path has whatever the tree: an empty path names nothing, a NUL
cannot be passed on, and the length is limited. -/
def checkPath (p : Path) : Except Fault Unit :=
  if p.text.contains '\x00' then .error .nulInName
  else if p.text = [] then .error .notFound
  else if maxPathSize < p.text.utf8Size then .error .nameTooLong
  else .ok ()

/-- The address of the entry a path leads to, links followed. -/
def lookup (tree : Tree) (p : Path) : Except Fault Address := do
  checkPath p
  let (a, _) ← tree.follow maxLinks (startOf tree.workingDir p.text) (splitOn '/' p.text)
  pure a

/-- The absolute spelling of an address, without links and idle segments. -/
def pathOf (a : Address) : Path := ⟨'/' :: join ['/'] a⟩

def canonical (tree : Tree) (p : Path) : Except Fault Path := (tree.lookup p).map pathOf

def workingPath (tree : Tree) : Path := pathOf tree.workingDir

/-- A path made absolute against the working directory, by its spelling alone. -/
def absolute (tree : Tree) (p : Path) : Path :=
  if p.isAbsolute then p else tree.workingPath.join p

/-- What a path leads to. -/
def nodeAt (tree : Tree) (p : Path) : Except Fault Node := do
  match tree.node? (← tree.lookup p) with
  | some node => pure node
  | none => .error .notFound

def isFile (tree : Tree) (p : Path) : Bool :=
  match tree.nodeAt p with
  | .ok (.file ..) => true
  | _ => false

def isDir (tree : Tree) (p : Path) : Bool :=
  match tree.nodeAt p with
  | .ok .dir => true
  | _ => false

def read (tree : Tree) (p : Path) : Except Fault Bytes := do
  match ← tree.nodeAt p with
  | .file content _ => pure content
  | .dir => .error .isDirectory
  | .link _ => .error .tooManyLinks

def readText (tree : Tree) (p : Path) : Except Fault Text := do
  match ofUtf8? (← tree.read p) with
  | some t => pure t
  | none => .error .notText

def fileCount (tree : Tree) : Nat :=
  tree.entries.countP fun (_, node) => match node with
    | .file .. => true
    | _ => false

end Tree

end StylePrep
