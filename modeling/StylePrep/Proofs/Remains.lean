import StylePrep.Preprocess
import StylePrep.Proofs.Congruence
import StylePrep.Proofs.Packing

/-!
# What compilations leave behind

Two things outlive a compilation: the cache, and the files of the sheets in it. As long as
the settings keep the sheets apart from what is read (`Apart`), that is all there is to it.
A workspace is `Kept` if its tree is the one it started from with the file of each sheet in
the cache, and nothing else.

In such a workspace a sprite map depends on the original tree and on the cache alone
(`exec_spriteMap`), and adds its sheet to both the cache and the tree, or to neither. So a
compilation keeps the workspace, whether it succeeds or not (`later_file`), and so does a
sequence of them (`later_after`).

Two sheets could have the same fingerprint, or fingerprints that start alike and with them
the same file. Then the cache would give the wrong sheet, or a file would be written over.
Among the sheets at hand this has to be ruled out (`Unambiguous`).
-/

namespace StylePrep

open Text Step

/-- Neither a fingerprint nor a path stands for two sheets. -/
def Unambiguous (sheets : List (Text × Sheet)) : Prop :=
  ∀ e ∈ sheets, ∀ e' ∈ sheets, e.1 = e'.1 ∨ e.2.path = e'.2.path → e.2 = e'.2

instance (sheets : List (Text × Sheet)) : Decidable (Unambiguous sheets) :=
  inferInstanceAs (Decidable (∀ e ∈ sheets, ∀ e' ∈ sheets, _))

/-- The settings keep the sheets apart from everything that is read in a tree. The image
directory is at `image` and that of the sheets at `gen`. -/
structure Apart (options : Options) (tree : Tree) (image gen : Address) : Prop where
  imageDir : tree.lookup options.sprites.imageDir = .ok image
  dir_image : tree.node? image = some .dir
  genDir : tree.lookup options.sprites.genDir = .ok gen
  dir_gen : tree.node? gen = some .dir
  vacant : tree.bare gen = tree
  separate : tree.Separate image gen
  orderly : tree.Orderly
  rooted : ∀ e ∈ tree.entries, tree.node? e.1.dropLast = some .dir
  included : ∀ p ∈ options.includePaths, ¬ Sheet.ending <:+ p.text

/-- The name of the file of a sheet in the directory for sheets. -/
def Sheet.Named (dir : Path) (sheet : Sheet) (name : Text) : Prop :=
  Path.IsName name ∧ Sheet.IsFileName name ∧ sheet.path = dir.join ⟨name⟩

theorem Path.join_inj {p : Path} {name name' : Text} (hname : Path.IsName name)
    (hname' : Path.IsName name') (h : p.join ⟨name⟩ = p.join ⟨name'⟩) : name = name' := by
  have hrelative {name : Text} (hname : Path.IsName name) := isAbsolute_mk hname.1
  by_cases hp : p.text = [] ∨ p.text.getLast? = some '/' <;>
    simpa [Path.join, hrelative hname, hrelative hname', hp] using h

theorem Sheet.Named.unique {dir : Path} {sheet : Sheet} {name name' : Text}
    (h : sheet.Named dir name) (h' : sheet.Named dir name') : name = name' :=
  Path.join_inj h.1 h'.1 (h.2.2.symm.trans h'.2.2)

/-- A workspace that has nothing but the files of a tree and the sheets of its cache. -/
structure Kept (dir : Path) (gen : Address) (tree : Tree) (w : Workspace) : Prop where
  bare : w.tree.bare gen = tree
  stored : ∀ e ∈ w.cache.sheets, ∃ name, e.2.Named dir name ∧
    w.tree.node? (gen ++ [name]) = some (.file (e.2.content tree) tree.clock)
  made : ∀ name node, Sheet.IsFileName name → w.tree.node? (gen ++ [name]) = some node →
    ∃ e ∈ w.cache.sheets, e.2.Named dir name ∧ node = .file (e.2.content tree) tree.clock

namespace Kept

variable {dir : Path} {gen : Address} {tree : Tree} {w w' : Workspace}

/-- The tree of a kept workspace is within that of another one with more in its cache. -/
theorem within (h : Kept dir gen tree w) (h' : Kept dir gen tree w')
    (hsub : ∀ e ∈ w.cache.sheets, e ∈ w'.cache.sheets) : Tree.Within gen w.tree w'.tree where
  bare := h.bare.trans h'.bare.symm
  sheet := by
    intro a node ha hnode
    obtain ⟨name, hname, rfl⟩ := Sheet.at_iff.1 ha
    obtain ⟨e, he, hnamed, rfl⟩ := h.made name node hname hnode
    obtain ⟨name', hnamed', hnode'⟩ := h'.stored e (hsub e he)
    rw [hnamed.unique hnamed', hnode']
  picture := by
    intro a node ha hnode
    obtain ⟨name, hname, rfl⟩ := Sheet.at_iff.1 ha
    obtain ⟨e, -, -, rfl⟩ := h'.made name node hname hnode
    exact Sheet.isPicture_content _ _ _

/-- A sheet is added to the cache, and its file to the tree. -/
theorem add (h : Kept dir gen tree w) {key name : Text} {sheet : Sheet}
    (hnamed : sheet.Named dir name) (hsheets : Unambiguous (w.cache.sheets ++ [(key, sheet)])) :
    Kept dir gen tree
      ⟨w.tree.set (gen ++ [name]) (.file (sheet.content tree) tree.clock),
        ⟨w.cache.sheets ++ [(key, sheet)]⟩⟩ where
  bare := (Tree.bare_set (Sheet.at_append.2 ⟨rfl, hnamed.2.1⟩) _).trans h.bare
  stored := by
    intro e he
    rcases List.mem_append.1 he with hold | hnew
    · obtain ⟨name', hnamed', hnode⟩ := h.stored e hold
      refine ⟨name', hnamed', ?_⟩
      rw [Tree.node?_set (by simp)]
      split
      · rename_i heq
        obtain rfl : name' = name := by simpa using heq
        have hpath : e.2.path = sheet.path := hnamed'.2.2.trans hnamed.2.2.symm
        rw [hsheets e he (key, sheet) (by simp) (.inr hpath)]
      · exact hnode
    · obtain rfl := List.mem_singleton.1 hnew
      exact ⟨name, hnamed, by rw [Tree.node?_set (by simp), if_pos rfl]⟩
  made := by
    intro name' node hname' hnode
    rw [Tree.node?_set (by simp)] at hnode
    split at hnode
    · rename_i heq
      obtain rfl : name' = name := by simpa using heq
      exact ⟨(key, sheet), by simp, hnamed, (Option.some.inj hnode).symm⟩
    · obtain ⟨e, he, hnamed', hnode'⟩ := h.made name' node hname' hnode
      exact ⟨e, List.mem_append_left _ he, hnamed', hnode'⟩

end Kept

namespace Expand

variable {options : Options} {tree : Tree} {image gen : Address} {w : Workspace}

/-- A sprite map, from what the cache does. -/
theorem exec_spriteMap (config : SpriteConfig) (pattern : Text) (spacing : Nat) (w : Workspace) :
    exec (spriteMap config pattern spacing) w = match Glob.parse .withinName pattern with
      | .error e => (.error (.of (.sprite (.packFailure pattern (.badPattern e)))), w)
      | .ok glob =>
        let sources := collectImages config glob w.tree
        if sources = [] then (.error (.of (.sprite (.missingImage pattern))), w)
        else
          let key := Fingerprint.fingerprint w.tree pattern sources spacing config.genDir
          match w.cache.getOrPack key
            (Sheet.pack sources (packOptions config pattern spacing key)) w.tree with
          | (result, cache, tree) => (result.mapError fun e => .of (.sprite e), ⟨tree, cache⟩) := by
  unfold spriteMap
  cases Glob.parse .withinName pattern with
  | error e => rfl
  | ok glob =>
    change exec (if collectImages config glob w.tree = [] then _ else _) w = _
    dsimp only
    split
    · rfl
    · simp only [exec_bind, exec_get, exec_set, packOptions]
      generalize w.cache.getOrPack _ _ w.tree = result
      obtain ⟨_ | sheet, cache, tree⟩ := result <;> rfl

/-- What a sprite map needs to know of a tree: the fingerprint of the sheet, and the sheet
that its images make. -/
def plan (config : SpriteConfig) (tree : Tree) (pattern : Text) (spacing : Nat) :
    Except SpriteError (Text × Except SpriteError Sheet) :=
  match Glob.parse .withinName pattern with
  | .error e => .error (.packFailure pattern (.badPattern e))
  | .ok glob =>
    let sources := collectImages config glob tree
    if sources = [] then .error (.missingImage pattern)
    else
      let key := Fingerprint.fingerprint tree pattern sources spacing config.genDir
      let options := packOptions config pattern spacing key
      .ok (key, match sources.mapM (Sheet.openSource tree) with
        | .error e => .error e
        | .ok images =>
          if options.writable then .ok (.ofImages sources options images)
          else .error (.packFailure options.stem .unwritable))

def addSheet (gen : Address) (tree : Tree) (w : Workspace) (name key : Text) (sheet : Sheet) :
    Workspace :=
  ⟨w.tree.set (gen ++ [name]) (.file (sheet.content tree) tree.clock),
    ⟨w.cache.sheets ++ [(key, sheet)]⟩⟩

/-- A sprite map that had to be packed is named for its fingerprint. -/
theorem named_of_plan {config : SpriteConfig} {tree : Tree} {pattern key : Text}
    {spacing : Nat} {sheet : Sheet}
    (h : plan config tree pattern spacing = .ok (key, .ok sheet)) :
    sheet.Named config.genDir (packOptions config pattern spacing key).fileName := by
  unfold plan at h
  split at h
  · cases h
  · dsimp only at h
    split at h
    · cases h
    · obtain ⟨rfl, h⟩ := Prod.mk.inj (Except.ok.inj h)
      refine ⟨isName_packOptions _ _ _ (Encoding.not_mem_hex _), isFileName_packOptions _ _ _ _, ?_⟩
      split at h
      · cases h
      · split at h
        · cases h
          rfl
        · cases h

end Expand

namespace Apart

variable {options : Options} {tree : Tree} {image gen : Address} {w : Workspace}
variable (h : Apart options tree image gen) (hw : Kept options.sprites.genDir gen tree w)
include h

theorem kept_ofTree : Kept options.sprites.genDir gen tree (.ofTree tree) where
  bare := h.vacant
  stored := by simp [Workspace.ofTree, SheetCache.empty]
  made := by
    intro name node hname hnode
    have hbare := congrArg (Tree.node? · (gen ++ [name])) h.vacant
    simp only [Tree.node?_bare, Sheet.at_append.2 ⟨rfl, hname⟩, if_true] at hbare
    exact absurd (hbare.trans hnode) (by simp)

include hw

theorem within : Tree.Within gen tree w.tree :=
  h.kept_ofTree.within hw (by simp [Workspace.ofTree, SheetCache.empty])

theorem separate_bare : Tree.Separate image gen (w.tree.bare gen) := hw.bare ▸ h.separate

theorem lookup_imageDir : w.tree.lookup options.sprites.imageDir = .ok image :=
  (h.within hw).lookup_mono h.imageDir

theorem node?_image : w.tree.node? image = some .dir := (h.within hw).node?_mono _ _ h.dir_image

theorem lookup_genDir : w.tree.lookup options.sprites.genDir = .ok gen :=
  (h.within hw).lookup_mono h.genDir

theorem node?_gen : w.tree.node? gen = some .dir := (h.within hw).node?_mono _ _ h.dir_gen

omit h in
theorem file_of_node? {name : Text} (hname : Sheet.IsFileName name) (node : Node)
    (hnode : w.tree.node? (gen ++ [name]) = some node) :
    ∃ content time, node = .file content time := by
  obtain ⟨e, -, -, rfl⟩ := hw.made name node hname hnode
  exact ⟨_, _, rfl⟩

theorem walk_eq : w.tree.walk options.sprites.imageDir = tree.walk options.sprites.imageDir := by
  have hwalk := (h.separate_bare hw).walk_bare (hw.bare ▸ h.imageDir) (h.lookup_imageDir hw)
    (hw.bare ▸ h.dir_image) (h.node?_image hw)
  rw [← hwalk, hw.bare]

/-- Every image is the same in the original tree. -/
theorem sameAt {p : Path} (hp : p ∈ tree.walk options.sprites.imageDir) :
    Tree.SameAt tree w.tree p := by
  refine (h.within hw).sameAt (h.vacant.symm ▸ h.orderly) fun a hlookup => ?_
  exact (h.separate_bare hw).not_at_of_mem_walk (h.lookup_imageDir hw) (h.node?_image hw)
    ((h.walk_eq hw).symm ▸ hp) hlookup

theorem collectImages_eq (glob : Glob) :
    Expand.collectImages options.sprites glob w.tree =
      Expand.collectImages options.sprites glob tree := by
  rw [Expand.collectImages, Expand.collectImages, h.walk_eq hw]

theorem source_sameAt {glob : Glob} {source : SpriteSource}
    (hsource : source ∈ Expand.collectImages options.sprites glob tree) :
    Tree.SameAt tree w.tree source.path := by
  obtain ⟨p, hp, hsource⟩ := List.mem_filterMap.1 hsource
  obtain ⟨relative, -, hsource⟩ := Option.bind_eq_some_iff.1 hsource
  split at hsource
  · cases hsource
    exact h.sameAt hw hp
  · cases hsource

/-- A sprite map in a kept workspace: the sheet in the cache, or else the one that the
original tree gives, which is then added. -/
theorem exec_spriteMap (pattern : Text) (spacing : Nat) :
    exec (Expand.spriteMap options.sprites pattern spacing) w =
      match Expand.plan options.sprites tree pattern spacing with
      | .error e => (.error (.of (.sprite e)), w)
      | .ok (key, made) =>
        match w.cache.get? key, made with
        | some sheet, _ => (.ok sheet, w)
        | none, .error e => (.error (.of (.sprite e)), w)
        | none, .ok sheet => (.ok sheet, Expand.addSheet gen tree w
          (Expand.packOptions options.sprites pattern spacing key).fileName key sheet) := by
  rw [Expand.exec_spriteMap]
  unfold Expand.plan
  cases Glob.parse .withinName pattern with
  | error e => rfl
  | ok glob =>
    dsimp only
    rw [h.collectImages_eq hw]
    have hsources (source : SpriteSource)
        (hsource : source ∈ Expand.collectImages options.sprites glob tree) :
        Tree.SameAt tree w.tree source.path := h.source_sameAt hw hsource
    rw [← Fingerprint.fingerprint_eq pattern hsources spacing]
    split
    · rfl
    · generalize hkey : Fingerprint.fingerprint tree pattern
        (Expand.collectImages options.sprites glob tree) spacing options.sprites.genDir = key
      have hslash : '/' ∉ key := hkey ▸ Encoding.not_mem_hex _
      have hpack := Sheet.pack_eq (Expand.collectImages options.sprites glob tree)
        (Expand.isName_packOptions options.sprites pattern spacing hslash)
        (h.lookup_genDir hw) (h.node?_gen hw) (file_of_node? hw
          (Expand.isFileName_packOptions options.sprites pattern spacing key))
      rw [Sheet.openSources_eq hsources] at hpack
      dsimp only
      unfold SheetCache.getOrPack
      cases w.cache.get? key with
      | some sheet => rfl
      | none =>
        rw [hpack]
        cases (Expand.collectImages options.sprites glob tree).mapM (Sheet.openSource tree) with
        | error e => rfl
        | ok images =>
          have hclock : (w.tree.bare gen).clock = tree.clock := congrArg Tree.clock hw.bare
          change w.tree.clock = tree.clock at hclock
          by_cases hwritable : (Expand.packOptions options.sprites pattern spacing key).writable
          · simp only [hwritable, if_true, Expand.addSheet, Sheet.content_ofImages hsources images,
              hclock]
            rfl
          · simp only [hwritable]
            rfl

theorem returns_spriteMap_iff {pattern : Text} {spacing : Nat} {sheet : Sheet} {w' : Workspace} :
    Returns (Expand.spriteMap options.sprites pattern spacing) w sheet w' ↔
      ∃ key made, Expand.plan options.sprites tree pattern spacing = .ok (key, made) ∧
        (w.cache.get? key = some sheet ∧ w' = w ∨
          w.cache.get? key = none ∧ made = .ok sheet ∧ w' = Expand.addSheet gen tree w
            (Expand.packOptions options.sprites pattern spacing key).fileName key sheet) := by
  rw [Returns, h.exec_spriteMap hw]
  cases Expand.plan options.sprites tree pattern spacing with
  | error e => simp
  | ok planned =>
    obtain ⟨key, made⟩ := planned
    dsimp only
    constructor
    · intro hexec
      refine ⟨key, made, rfl, ?_⟩
      split at hexec <;> cases hexec
      · exact .inl ⟨by assumption, rfl⟩
      · exact .inr ⟨by assumption, rfl, rfl⟩
    · rintro ⟨_, _, heq, ⟨hget, rfl⟩ | ⟨hget, rfl, rfl⟩⟩ <;> cases heq <;> rw [hget]

end Apart

/-! ### Steps that keep a workspace -/

theorem SheetCache.subset_getOrPack {σ : Type} (cache : SheetCache) (key : Text)
    (pack : σ → Except SpriteError Sheet × σ) (s : σ) :
    cache.sheets ⊆ (cache.getOrPack key pack s).2.1.sheets := by
  unfold getOrPack
  split
  · exact List.Subset.refl _
  · split
    · exact List.subset_append_left _ _
    · exact List.Subset.refl _

/-- The cache of a workspace grows to that of another. If all sheets are among some that are
fixed, nothing but sheets is added to the tree. -/
structure Later (dir : Path) (gen : Address) (tree : Tree) (sheets : List (Text × Sheet))
    (w w' : Workspace) : Prop where
  grows : w.cache.sheets ⊆ w'.cache.sheets
  keeps : Kept dir gen tree w → w'.cache.sheets ⊆ sheets → Kept dir gen tree w'

namespace Later

variable {dir : Path} {gen : Address} {tree : Tree} {sheets : List (Text × Sheet)}
variable {w w' w'' : Workspace}

theorem refl (w : Workspace) : Later dir gen tree sheets w w := ⟨List.Subset.refl _, fun h _ => h⟩

theorem trans (h : Later dir gen tree sheets w w') (h' : Later dir gen tree sheets w' w'') :
    Later dir gen tree sheets w w'' where
  grows := List.Subset.trans h.grows h'.grows
  keeps hw hsheets := h'.keeps (h.keeps hw (List.Subset.trans h'.grows hsheets)) hsheets

end Later

/-- The same for the workspaces of two sessions. -/
def Session.Later (dir : Path) (gen : Address) (tree : Tree) (sheets : List (Text × Sheet))
    (s s' : Session) : Prop := StylePrep.Later dir gen tree sheets s.workspace s'.workspace

theorem Session.Later.trans {dir : Path} {gen : Address} {tree : Tree}
    {sheets : List (Text × Sheet)} (s s' s'' : Session) (h : Later dir gen tree sheets s s')
    (h' : Later dir gen tree sheets s' s'') : Later dir gen tree sheets s s'' :=
  StylePrep.Later.trans h h'

theorem Session.Later.still {dir : Path} {gen : Address} {tree : Tree}
    {sheets : List (Text × Sheet)} {α : Type} {x : Assembly α}
    (hx : ∀ s, (exec x s).2.workspace = s.workspace) : Advances (Later dir gen tree sheets) x :=
  Assembly.Advances.of_eq .refl hx

theorem Unambiguous.mono {sheets sheets' : List (Text × Sheet)} (h : Unambiguous sheets)
    (hsub : sheets' ⊆ sheets) : Unambiguous sheets' :=
  fun e he e' he' => h e (hsub he) e' (hsub he')

theorem Expand.subset_spriteMap (config : SpriteConfig) (pattern : Text) (spacing : Nat)
    (w : Workspace) :
    w.cache.sheets ⊆ (exec (spriteMap config pattern spacing) w).2.cache.sheets := by
  rw [exec_spriteMap]
  split
  · exact List.Subset.refl _
  · dsimp only
    split
    · exact List.Subset.refl _
    · exact w.cache.subset_getOrPack _ _ _

/-- A compilation of a file is that of its text, if the file can be read. -/
theorem Preprocess.exec_file (options : Options) (p : Path) (w : Workspace) :
    exec (Preprocess.file options p) w =
      let loader := loaderFor options w.tree (w.tree.absolute p).directory
      match loader.load w.tree (w.tree.absolute p) with
      | .error e => (.error (.of (.file e)), w)
      | .ok (path, text) =>
        match exec (Assembly.assemble options loader w.tree.fileCount 0 path.directory)
          (Assembly.start w path text) with
        | (.ok map, s) => (.ok ⟨map, s.files⟩, s.workspace)
        | (.error e, s) => (.error e, s.workspace) := by
  have htree : exec Task.tree w = (.ok w.tree, w) := rfl
  unfold Preprocess.file
  rw [exec_bind, htree]
  dsimp only
  cases (loaderFor options w.tree (w.tree.absolute p).directory).load w.tree (w.tree.absolute p) with
  | error e => rfl
  | ok r =>
    obtain ⟨path, text⟩ := r
    dsimp only
    rw [Assembly.exec_assembleRoot, Assembly.exec_inRoot]
    obtain ⟨_ | map, s⟩ := exec (Assembly.assemble _ _ _ _ _) (Assembly.start w path text) <;> rfl

/-- The workspace behind a sequence of compilations, each of which may fail. -/
def Preprocess.after (options : Options) (history : List Path) (w : Workspace) : Workspace :=
  history.foldl (fun w p => (exec (Preprocess.file options p) w).2) w

namespace Apart

variable {options : Options} {tree : Tree} {image gen : Address} {sheets : List (Text × Sheet)}
variable (h : Apart options tree image gen) (hsheets : Unambiguous sheets)
include h hsheets

theorem later_spriteMap (pattern : Text) (spacing : Nat) (w : Workspace) :
    Later options.sprites.genDir gen tree sheets w
      (exec (Expand.spriteMap options.sprites pattern spacing) w).2 where
  grows := Expand.subset_spriteMap _ _ _ w
  keeps hw := by
    rw [h.exec_spriteMap hw]
    cases hplan : Expand.plan options.sprites tree pattern spacing with
    | error e => exact fun _ => hw
    | ok planned =>
      obtain ⟨key, made⟩ := planned
      dsimp only
      cases w.cache.get? key with
      | some sheet => exact fun _ => hw
      | none =>
        cases made with
        | error e => exact fun _ => hw
        | ok sheet =>
          exact fun hsub => hw.add (Expand.named_of_plan hplan) (hsheets.mono hsub)

theorem later_assemble (loader : Loader) (depth : Nat) (file : FileId) (dir : Path) :
    Advances (Session.Later options.sprites.genDir gen tree sheets)
      (Assembly.assemble options loader depth file dir) :=
  Assembly.advances_assemble .refl (fun _ _ _ => .trans) (h.later_spriteMap hsheets) loader depth
    file dir

/-- A compilation keeps the workspace, whether it succeeds or not. -/
theorem later_file (p : Path) : Advances (Later options.sprites.genDir gen tree sheets)
    (Preprocess.file options p) := by
  intro w
  rw [Preprocess.exec_file]
  dsimp only
  split
  · exact .refl w
  · rename_i path text _
    have hroot := h.later_assemble hsheets
      (Preprocess.loaderFor options w.tree (w.tree.absolute p).directory) w.tree.fileCount 0
      path.directory (Assembly.start w path text)
    revert hroot
    obtain ⟨_ | map, s⟩ := exec (Assembly.assemble _ _ _ _ _) (Assembly.start w path text) <;>
      exact id

/-- So does a sequence of compilations. -/
theorem later_after (history : List Path) (w : Workspace) :
    Later options.sprites.genDir gen tree sheets w (Preprocess.after options history w) := by
  induction history generalizing w with
  | nil => exact .refl w
  | cons p history ih => exact (h.later_file hsheets p w).trans (ih _)

end Apart

end StylePrep
