import StylePrep.Proofs.Cycles

/-!
# Permitted sources

A compilation reads its sources only from the directories it is given: the include paths,
and the directory of the root file or else the working directory. Links and `..` can lead
anywhere, so this is a statement about canonical paths, compared by components.

There are two ways to start a compilation, and both come down to the assembly of a root text
with a loader for these directories (`Request.exec_run`). A loader permits what is inside one
of them (`Loader.permits_ofDirs_iff`), and it loads nothing else. What the table of a session
holds is what the loader reads in the first tree, so every source that a compilation gets hold
of is permitted, and an import that leads to any other file makes it fail
(`Request.run_permitted`).
-/

namespace StylePrep

open Text Step

def Tree.Inside (tree : Tree) (dirs : List Path) (p : Path) : Prop :=
  ∃ dir ∈ dirs, ∃ base, tree.canonical dir = .ok base ∧ base.components <+: p.components

/-- A source that can be read in a tree under its canonical path, inside one of these
directories. -/
structure Permitted (tree : Tree) (dirs : List Path) (file : SourceFile) : Prop where
  canonical : tree.canonical file.path = .ok file.path
  text : ∃ t, tree.readText file.path = .ok t ∧ file.text = t.normalizeNewlines
  inside : tree.Inside dirs file.path

/-! ### Loaders -/

theorem Path.startsWith_iff {p base : Path} :
    p.startsWith base = true ↔ base.components <+: p.components := by
  rw [startsWith, List.isPrefixOf_iff_prefix]

theorem Path.same_iff {p q : Path} : p.same q = true ↔ p.components = q.components := by
  simp [same]

theorem Tree.canonical_eq_ok_iff {tree : Tree} {p q : Path} :
    tree.canonical p = .ok q ↔ ∃ a, tree.lookup p = .ok a ∧ pathOf a = q := by
  unfold canonical
  cases tree.lookup p <;> simp [Except.map]

/-- What is inside the directories of a list while they are being permitted. -/
theorem Loader.any_foldl_iff {tree : Tree} {dirs : List Path} {p : Path} (permitted : List Path) :
    (dirs.foldl (fun permitted dir => match tree.canonical dir with
      | .ok q => if permitted.any (·.same q) then permitted else permitted ++ [q]
      | .error _ => permitted) permitted).any p.startsWith = true ↔
      permitted.any p.startsWith = true ∨ tree.Inside dirs p := by
  induction dirs generalizing permitted with
  | nil => simp [Tree.Inside]
  | cons dir dirs ih =>
    have hinside : tree.Inside (dir :: dirs) p ↔
        (∃ base, tree.canonical dir = .ok base ∧ base.components <+: p.components) ∨
          tree.Inside dirs p := by simp [Tree.Inside]
    rw [List.foldl_cons, ih, hinside, ← or_assoc]
    refine or_congr_left ?_
    cases hcanonical : tree.canonical dir with
    | error e => simp
    | ok base =>
      dsimp only
      split
      · -- a directory with these components is there already
        rename_i hany
        obtain ⟨q, hq, hsame⟩ := List.any_eq_true.1 hany
        refine ⟨.inl, fun h => h.elim id ?_⟩
        rintro ⟨_, ⟨⟩, hprefix⟩
        refine List.any_eq_true.2 ⟨q, hq, Path.startsWith_iff.2 ?_⟩
        rwa [Path.same_iff.1 hsame]
      · simp [List.any_append, Path.startsWith_iff]

/-- A loader permits what is inside a directory that exists. That a directory is listed once
makes no difference, as only components count. -/
theorem Loader.permits_ofDirs_iff {tree : Tree} {dirs : List Path} {p : Path} :
    (Loader.ofDirs tree dirs).permits p = true ↔ tree.Inside dirs p :=
  (any_foldl_iff []).trans (by simp)

/-- What is loaded under its own path is permitted. -/
theorem permitted_of_load {loader : Loader} {tree : Tree} {dirs : List Path} {file : SourceFile}
    (h : loader.load tree file.path = .ok (file.path, file.text))
    (hdirs : ∀ p, loader.permits p = true → tree.Inside dirs p) : Permitted tree dirs file := by
  obtain ⟨a, t, hlookup, hpath, hpermits, htext, ht⟩ := Loader.load_eq_ok_iff.1 h
  exact ⟨Tree.canonical_eq_ok_iff.2 ⟨a, hlookup, hpath.symm⟩, ⟨t, htext, ht⟩,
    hdirs file.path hpermits⟩

/-- What is loaded can be loaded again under the path it was found at. -/
theorem Loader.load_idem {loader : Loader} {tree : Tree} (hproper : tree.Proper) {p q : Path}
    {t : Text} (h : loader.load tree p = .ok (q, t)) : loader.load tree q = .ok (q, t) := by
  obtain ⟨a, u, hlookup, rfl, hpermits, htext, ht⟩ := Loader.load_eq_ok_iff.1 h
  obtain ⟨b, bytes, time, hlookup', -, -⟩ := Tree.readText_iff_file.1 htext
  have hsolid := Tree.solid_of_lookup hproper.isRooted hlookup
  obtain ⟨rfl, -⟩ := (Tree.lookup_pathOf_iff hproper hsolid).1 hlookup'
  exact Loader.load_eq_ok_iff.2 ⟨b, u, hlookup', rfl, hpermits, htext, ht⟩

/-- A canonical path of a file that is not permitted is refused. -/
theorem Loader.load_eq_notPermitted {loader : Loader} {tree : Tree} (hproper : tree.Proper)
    {a : Address} (ha : tree.Solid a) (hfile : tree.isFile (Tree.pathOf a) = true)
    (hpermits : loader.permits (Tree.pathOf a) = false) :
    loader.load tree (Tree.pathOf a) = .error (.notPermitted (Tree.pathOf a)) := by
  obtain ⟨content, time, hnodeAt⟩ := Tree.isFile_iff.1 hfile
  obtain ⟨b, hlookup, -⟩ := Tree.nodeAt_eq_ok_iff.1 hnodeAt
  obtain ⟨rfl, -⟩ := (Tree.lookup_pathOf_iff hproper ha).1 hlookup
  rw [Loader.load_of_lookup hlookup, hpermits]
  rfl

theorem Tree.checkPath_eq_ok_iff {p : Path} :
    checkPath p = .ok () ↔ '\x00' ∉ p.text ∧ p.text ≠ [] ∧ p.text.utf8Size ≤ maxPathSize := by
  unfold checkPath
  split
  · simp_all
  split
  · simp_all
  split <;> simp_all

theorem Path.prefix_join (p : Path) {q : Path} (hq : q.isAbsolute = false) :
    p.text <+: (p.join q).text := by
  unfold join
  simp only [hq, Bool.false_eq_true, if_false]
  split
  · exact List.prefix_append _ _
  · exact List.prefix_append _ _

/-- A dot behind the working directory stands for nothing. -/
theorem Tree.canonical_workingPath {tree : Tree} {base : Path}
    (h : tree.canonical (tree.absolute ⟨['.']⟩) = .ok base) :
    tree.canonical tree.workingPath = .ok base := by
  obtain ⟨a, hlookup, rfl⟩ := canonical_eq_ok_iff.1 h
  refine canonical_eq_ok_iff.2 ⟨a, ?_, rfl⟩
  have habsolute : tree.absolute ⟨['.']⟩ = tree.workingPath.join ⟨['.']⟩ := rfl
  have hne : tree.workingPath.text ≠ [] := by simp [workingPath, pathOf]
  rw [habsolute] at hlookup
  obtain ⟨hcheck, n, hleads⟩ := lookup_eq_ok_iff.1 hlookup
  obtain ⟨b, m, hfirst, hdot⟩ := (leads_join hne (by decide) _).1 hleads
  obtain rfl : a = b := by
    cases hdot with
    | idle _ _ hdone =>
      cases hdone
      rfl
    | enter _ hidle => exact absurd hidle (by decide)
    | link _ hidle => exact absurd hidle (by decide)
  refine lookup_eq_ok_iff.2 ⟨?_, m, hfirst⟩
  obtain ⟨hnul, -, hsize⟩ := checkPath_eq_ok_iff.1 hcheck
  obtain ⟨rest, hrest⟩ := tree.workingPath.prefix_join (q := ⟨['.']⟩) rfl
  rw [← hrest] at hnul hsize
  rw [utf8Size_append] at hsize
  exact checkPath_eq_ok_iff.2 ⟨fun h => hnul (List.mem_append_left _ h), hne, by omega⟩

/-! ### Requests -/

namespace Preprocess

/-- What a compilation starts from: a file, or a text that has a name. -/
inductive Request where
  | file (path : Path)
  | source (name text : Text)

namespace Request

def run (options : Options) : Request → Task Compilation
  | .file p => Preprocess.file options p
  | .source name text => Preprocess.source options name text

def isSource : Request → Bool
  | .file _ => false
  | .source .. => true

def dirs (options : Options) (tree : Tree) : Request → List Path
  | .file p => options.includePaths ++ [(tree.absolute p).directory]
  | .source .. => options.includePaths ++ [tree.workingPath]

def loader (options : Options) (tree : Tree) : Request → Loader
  | .file p => loaderFor options tree (tree.absolute p).directory
  | .source .. => loaderFor options tree (tree.absolute ⟨['.']⟩)

/-- The root of a request, and the directory its imports are searched in first. -/
def root (options : Options) (tree : Tree) : Request → Except FileError (SourceFile × Path)
  | .file p => match (loaderFor options tree (tree.absolute p).directory).load tree
      (tree.absolute p) with
    | .error e => .error e
    | .ok (path, text) => .ok (⟨path, text, none⟩, path.directory)
  | .source name text =>
    .ok (⟨⟨name⟩, text.normalizeNewlines, none⟩, tree.absolute ⟨['.']⟩)

variable {options : Options} {request : Request} {w : Workspace}

/-- A request comes down to the assembly of its root. -/
theorem exec_run (options : Options) (request : Request) (w : Workspace) :
    exec (request.run options) w = match request.root options w.tree with
      | .error e => (.error (.of (.file e)), w)
      | .ok (top, dir) => exec (Assembly.assembleRoot options (request.loader options w.tree)
          top.path top.text dir) w := by
  have htree : exec Task.tree w = (.ok w.tree, w) := rfl
  cases request with
  | source name text =>
    unfold run Preprocess.source
    rw [exec_bind, htree]
    dsimp only [root, loader]
  | file p =>
    unfold run Preprocess.file
    rw [exec_bind, htree]
    dsimp only [root, loader]
    cases (loaderFor options w.tree (w.tree.absolute p).directory).load w.tree (w.tree.absolute p) with
    | error e => rfl
    | ok r => rfl

theorem returns_run {w' : Workspace} {c : Compilation} :
    Returns (request.run options) w c w' ↔ ∃ file dir, request.root options w.tree = .ok (file, dir) ∧
      Returns (Assembly.assembleRoot options (request.loader options w.tree) file.path file.text dir)
        w c w' := by
  unfold Returns
  rw [exec_run]
  cases request.root options w.tree with
  | error e => simp
  | ok r => exact ⟨fun h => ⟨r.1, r.2, rfl, h⟩, by rintro ⟨file, dir, ⟨⟩, h⟩; exact h⟩

/-- The compilation of a request gets to the assembly of a file. -/
def Visits (options : Options) (request : Request) (w : Workspace) (n : Nat) (v : Visit) : Prop :=
  ∃ file dir, request.root options w.tree = .ok (file, dir) ∧
    Assembly.Visits options (request.loader options w.tree) file.path dir file.text w n v

theorem inside_of_permits {tree : Tree} {p : Path}
    (h : (request.loader options tree).permits p = true) : tree.Inside (request.dirs options tree) p := by
  cases request with
  | file path => exact Loader.permits_ofDirs_iff.1 h
  | source name text =>
    obtain ⟨dir, hdir, base, hcanonical, hbase⟩ := Loader.permits_ofDirs_iff.1 h
    rcases List.mem_append.1 hdir with hdir | hdir
    · exact ⟨dir, List.mem_append_left _ hdir, base, hcanonical, hbase⟩
    · obtain rfl := List.mem_singleton.1 hdir
      exact ⟨tree.workingPath, List.mem_append_right _ (List.mem_singleton.2 rfl), base,
        Tree.canonical_workingPath hcanonical, hbase⟩

/-- The root has no parent, and unless it is given it is a permitted source. -/
theorem permitted_root {tree : Tree} (hproper : tree.Proper) {file : SourceFile} {dir : Path}
    (h : request.root options tree = .ok (file, dir)) :
    file = ⟨file.path, file.text, none⟩ ∧
      (request.isSource = false → Permitted tree (request.dirs options tree) file) := by
  cases request with
  | source name text =>
    cases h
    exact ⟨rfl, fun h => by cases h⟩
  | file p =>
    dsimp only [root] at h
    cases hload : (loaderFor options tree (tree.absolute p).directory).load tree (tree.absolute p) with
    | error e =>
      rw [hload] at h
      cases h
    | ok r =>
      rw [hload] at h
      cases h
      exact ⟨rfl, fun _ => permitted_of_load (Loader.load_idem hproper hload)
        fun _ => @inside_of_permits options (.file p) tree _⟩

/-- The files of a session are permitted. -/
theorem permitted_of_reads {tree : Tree} (hproper : tree.Proper) {file : SourceFile} {dir : Path}
    (hroot : request.root options tree = .ok (file, dir)) {id : FileId} {stack : ImportStack}
    {s : Session} (h : s.Reads (request.loader options tree) tree file id stack) {i : FileId}
    {source : SourceFile} (hsource : s.files[i]? = some source)
    (hi : request.isSource = true → i ≠ 0) : Permitted tree (request.dirs options tree) source := by
  cases i with
  | zero =>
    obtain rfl := Option.some.inj ((h.first.symm.trans List.head?_eq_getElem?).trans hsource)
    refine (permitted_root hproper hroot).2 (Bool.eq_false_iff.2 fun hgiven => ?_)
    exact hi hgiven rfl
  | succ i =>
    have hmem : source ∈ s.files.tail := List.mem_of_getElem? (List.getElem?_tail.trans hsource)
    exact permitted_of_load (h.loaded source hmem) fun _ => inside_of_permits

end Request

end Preprocess

namespace Assembly

variable {options : Options} {loader : Loader}

/-- An import of a file that is not permitted is refused, and its text is not read. -/
theorem exec_importTarget_of_not_permits (id : FileId) {dir q : Path} {target : Text} {s : Session}
    (hproper : s.workspace.tree.Proper)
    (hresolve : Import.resolve s.workspace.tree target dir options.includePaths = .ok q)
    (hfile : s.workspace.tree.isFile q = true) (hpermits : loader.permits q = false) :
    ∃ e s', (∀ nested, exec (importTarget options loader nested id dir target) s =
        (.error (.of e), s')) ∧ s'.files = s.files ∧
      (e = .file (.notPermitted q) ∨ ∃ chain, e = .imports (.cyclic q chain)) := by
  cases hcontains : s.stack.contains q with
  | true =>
    obtain ⟨below, p, above, hstack, hbelow, hp⟩ := ImportStack.contains_iff.1 hcontains
    exact ⟨_, s, fun _ => exec_importTarget_cyclic hresolve hstack hbelow hp, rfl, .inr ⟨_, rfl⟩⟩
  | false =>
    obtain ⟨p, a, -, -, hlookup, rfl⟩ := Tree.resolve_eq_ok hresolve
    have hsolid := Tree.solid_of_lookup hproper.isRooted hlookup
    have hload := Loader.load_eq_notPermitted hproper hsolid hfile hpermits
    refine ⟨_, { s with stack := ⟨s.stack.paths ++ [Tree.pathOf a]⟩ }, fun nested => ?_, rfl,
      .inl rfl⟩
    rw [exec_importTarget, hresolve]
    dsimp only
    rw [ImportStack.push_eq_ok hcontains]
    dsimp only
    rw [hload]

end Assembly

namespace Preprocess.Request

/-- Every source of a compilation is in a permitted directory, and an import of any other file
makes it fail. -/
theorem run_permitted (options : Options) (request : Request) {w : Workspace}
    (hproper : w.tree.Proper) :
    -- the sources that are at hand while a file is being read
    (∀ n v s, request.Visits options w n v →
      Assembly.Passes options (request.loader options w.tree) v s →
      ∀ id file, s.files[id]? = some file → (request.isSource = true → id ≠ 0) →
        Permitted w.tree (request.dirs options w.tree) file) ∧
    -- the sources of the result
    (∀ c w', Returns (request.run options) w c w' →
      ∀ id file, c.files[id]? = some file → (request.isSource = true → id ≠ 0) →
        Permitted w.tree (request.dirs options w.tree) file) ∧
    -- imports that lead elsewhere
    ∀ n v depth target targets map s q, request.Visits options w n v →
      Assembly.Asks options (request.loader options w.tree) depth v (target :: targets) map s →
      Import.resolve s.workspace.tree target v.dir options.includePaths = .ok q →
      s.workspace.tree.isFile q = true → ¬ w.tree.Inside (request.dirs options w.tree) q →
      (∀ nested, (exec (Assembly.importTarget options (request.loader options w.tree) nested v.file
        v.dir target) s).2.files = s.files) ∧
      ∃ e, (exec (request.run options) w).1 = .error e ∧
        (e.cause = .file (.notPermitted q) ∨ ∃ chain, e.cause = .imports (.cyclic q chain)) := by
  refine ⟨?_, fun c w' h id file hfile hid => ?_, ?_⟩
  · rintro n v s ⟨root, dir, hroot, hvisits⟩ hpasses id file hfile hid
    obtain ⟨rest, hreads, -⟩ := hvisits.reads hproper
    rw [← (permitted_root hproper hroot).1] at hreads
    exact permitted_of_reads hproper hroot (hpasses.reads hproper hreads) hfile hid
  · rw [Returns, exec_run] at h
    split at h
    · cases h
    · rename_i root dir hroot
      obtain ⟨s, hreads, hfiles⟩ := Assembly.reads_of_assembleRoot hproper h
      rw [← (permitted_root hproper hroot).1] at hreads
      exact permitted_of_reads hproper hroot hreads (hfiles ▸ hfile) hid
  · rintro n v depth target targets map s q ⟨root, dir, hroot, hvisits⟩ hasks hresolve hfile hinside
    obtain ⟨rest, hreads, -⟩ := hvisits.reads hproper
    have hstems := (hasks.reads hproper hreads).stems
    have hpermits : (request.loader options w.tree).permits q = false :=
      Bool.eq_false_iff.2 fun h => hinside (inside_of_permits h)
    obtain ⟨e, s', hfails, hfiles, he⟩ := Assembly.exec_importTarget_of_not_permits v.file
      (hstems.proper hproper) hresolve hfile hpermits
    refine ⟨fun nested => by rw [hfails nested, hfiles], ?_⟩
    obtain ⟨e', he', hcause⟩ := hvisits.importTarget_fails hproper hasks hfails
    refine ⟨e', ?_, by rwa [hcause]⟩
    rw [exec_run, hroot]
    exact he'

/-- A style sheet in one directory that imports one from another with a similar name. -/
def neighbours : Workspace :=
  .ofTree ⟨[(["lib".toList], .dir),
    (["lib".toList, "r.scss".toList], .file (utf8 "@import \"../lib2/s\";\n".toList) 0),
    (["lib2".toList], .dir), (["lib2".toList, "s.scss".toList], .file (utf8 "a {}\n".toList) 0)], [], 0⟩

theorem run_permitted_neighbours :
    ∃ e, (exec (Request.run Sample.options (.file ⟨"/lib/r.scss".toList⟩)) neighbours).1 = .error e ∧
      (e.cause = .file (.notPermitted ⟨"/lib2/s.scss".toList⟩) ∨
        ∃ chain, e.cause = .imports (.cyclic ⟨"/lib2/s.scss".toList⟩ chain)) := by
  have hroot : Request.root Sample.options neighbours.tree (.file ⟨"/lib/r.scss".toList⟩) =
      .ok (⟨⟨"/lib/r.scss".toList⟩, "@import \"../lib2/s\";\n".toList, none⟩, ⟨"/lib".toList⟩) := by
    decide +kernel
  obtain ⟨vars, hasks⟩ := Assembly.exists_asks Sample.options
    (Request.loader Sample.options neighbours.tree (.file ⟨"/lib/r.scss".toList⟩)) 4
    ⟨0, ⟨"/lib".toList⟩, Assembly.start neighbours ⟨"/lib/r.scss".toList⟩
      "@import \"../lib2/s\";\n".toList⟩
    (show _ = some (DirectiveKind.imports ["../lib2/s".toList]) by decide +kernel)
  have hresolve : Import.resolve neighbours.tree "../lib2/s".toList ⟨"/lib".toList⟩ [] =
      .ok ⟨"/lib2/s.scss".toList⟩ := by decide +kernel
  have hfile : neighbours.tree.isFile ⟨"/lib2/s.scss".toList⟩ = true := by decide +kernel
  have hinside : ¬ neighbours.tree.Inside
      (Request.dirs Sample.options neighbours.tree (.file ⟨"/lib/r.scss".toList⟩))
      ⟨"/lib2/s.scss".toList⟩ := by
    rw [← Loader.permits_ofDirs_iff]
    decide +kernel
  exact ((run_permitted Sample.options (.file ⟨"/lib/r.scss".toList⟩) (w := neighbours)
    (by decide +kernel)).2.2 0 _ _ _ _ _ _ _ ⟨_, _, hroot, .root⟩ hasks hresolve hfile hinside).2

end Preprocess.Request

end StylePrep
