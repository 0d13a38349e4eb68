import StylePrep.Proofs.History
import StylePrep.Proofs.Recovery
import StylePrep.Proofs.Written

/-!
# The files being read

A session keeps two records of the files being read: the import stack, and the table of
files, in which each file names the one that imports it. They are written at different
places. That they say the same is part of what every session satisfies while a file is being
read (`Session.Reads`): the stack is the list of files that lead to this one by the table
(`Lineage`), from the root on, with growing numbers and with no path twice. The same
invariant says that each file but the root is in the table as a loader reads it in the tree
that the compilation started from.

An import that opens a file takes one session with the invariant to another, for the
imported file (`Reads.enter`), and its end takes it back (`Reads.leave`). All other steps keep
it as it is. So it is kept by the assembly of every file (`preserves_importerAt`), and the
files on the stack are at different addresses of the first tree (`Reads.exists_addresses`).
-/

namespace StylePrep

open Text Step

/-! ### Chains of imports -/

/-- These paths are those of the files that lead to the one with this number by imports.
Each file has a smaller number than the ones it imports, and no path occurs twice. -/
inductive Lineage (files : List SourceFile) : FileId → List Path → Prop
  | root {file : SourceFile} (found : files[0]? = some file) (first : file.parent = none) :
      Lineage files 0 [file.path]
  | child {id parent : FileId} {file : SourceFile} {paths : List Path}
      (found : files[id]? = some file) (imported : file.parent = some parent) (earlier : parent < id)
      (new : ∀ q ∈ paths, q.same file.path = false) :
      Lineage files parent paths → Lineage files id (paths ++ [file.path])

namespace Lineage

variable {files files' : List SourceFile} {id : FileId} {paths : List Path}

theorem mono (h : Lineage files id paths) (hfiles : files <+: files') :
    Lineage files' id paths := by
  have hfound {id : FileId} {file : SourceFile} (hfile : files[id]? = some file) :
      files'[id]? = some file := by
    obtain ⟨rest, rfl⟩ := hfiles
    rw [List.getElem?_append_left (List.getElem?_eq_some_iff.1 hfile).1, hfile]
  induction h with
  | root found first => exact .root (hfound found) first
  | child found imported earlier new _ ih => exact .child (hfound found) imported earlier new ih

theorem exists_file (h : Lineage files id paths) :
    ∃ file, files[id]? = some file ∧ paths.getLast? = some file.path := by
  cases h with
  | @root file found => exact ⟨file, found, rfl⟩
  | @child _ _ file _ found => exact ⟨file, found, by simp⟩

theorem head?_eq (h : Lineage files id paths) : paths.head? = files.head?.map SourceFile.path := by
  induction h with
  | root found => simp [List.head?_eq_getElem?, found]
  | child _ _ _ _ hparent ih =>
    obtain ⟨file, hfile, -⟩ := hparent.exists_file
    have hne : files ≠ [] := List.ne_nil_of_mem (List.mem_of_getElem? hfile)
    rw [List.head?_append, ih, List.head?_eq_some_head hne, Option.map_some, Option.some_or]

theorem pairwise (h : Lineage files id paths) :
    paths.Pairwise fun p q => p.same q = false := by
  induction h with
  | root => exact List.pairwise_singleton _ _
  | child _ _ _ new _ ih =>
    refine List.pairwise_append.2 ⟨ih, List.pairwise_singleton _ _, fun p hp q hq => ?_⟩
    exact List.mem_singleton.1 hq ▸ new p hp

/-- Of the files in a chain only the root has no parent, and the parent of any other comes
before it. -/
theorem parent_eq (h : Lineage files id paths) {file : SourceFile} (hfile : files[id]? = some file) :
    id = 0 ∧ file.parent = none ∨ ∃ parent < id, file.parent = some parent := by
  cases h with
  | root found first =>
    obtain rfl := Option.some.inj (hfile.symm.trans found)
    exact .inl ⟨rfl, first⟩
  | @child _ parent _ _ found imported earlier =>
    obtain rfl := Option.some.inj (hfile.symm.trans found)
    exact .inr ⟨parent, earlier, imported⟩

/-- Climbing from parent to parent gives the chain from its end. -/
theorem go_eq {c : Compilation} (h : Lineage c.files id paths) {fuel : Nat} (hfuel : id < fuel) :
    Compilation.importChain.go c fuel (c.file? id) = paths.reverse := by
  induction h generalizing fuel with
  | @root file found first =>
    obtain ⟨fuel, rfl⟩ := Nat.exists_eq_succ_of_ne_zero (Nat.ne_of_gt hfuel)
    rw [Compilation.file?, found, Compilation.importChain.go, first]
    cases fuel <;> rfl
  | @child id parent file paths found imported earlier _ _ ih =>
    obtain ⟨fuel, rfl⟩ := Nat.exists_eq_succ_of_ne_zero (Nat.ne_of_gt (Nat.zero_lt_of_lt hfuel))
    rw [Compilation.file?, found, Compilation.importChain.go, imported, Option.bind_some,
      ih (Nat.lt_of_lt_of_le earlier (Nat.le_of_lt_succ hfuel))]
    simp

/-- The chain that a compilation reports. -/
theorem importChain_eq {c : Compilation} (h : Lineage c.files id paths) :
    c.importChain id = paths := by
  obtain ⟨file, hfile, -⟩ := h.exists_file
  rw [Compilation.importChain, h.go_eq (List.getElem?_eq_some_iff.1 hfile).1, List.reverse_reverse]

/-- A file that is imported by the last one of a chain. -/
theorem add (h : Lineage files id paths) {p : Path} (hp : ∀ q ∈ paths, q.same p = false)
    (text : Text) : Lineage (files ++ [⟨p, text, some id⟩]) files.length (paths ++ [p]) := by
  obtain ⟨file, hfile, -⟩ := h.exists_file
  have hfound : (files ++ [⟨p, text, some id⟩])[files.length]? = some ⟨p, text, some id⟩ := by simp
  exact .child hfound rfl (List.getElem?_eq_some_iff.1 hfile).1 hp (h.mono (List.prefix_append _ _))

end Lineage

/-! ### Sessions -/

/-- What is so in a session in which the file with this number is being read, and the files
that lead to it: these are the files on the stack. -/
structure Session.Reads (loader : Loader) (tree : Tree) (root : SourceFile) (id : FileId)
    (stack : ImportStack) (s : Session) : Prop where
  stems : tree.Stems s.workspace.tree
  stack_eq : s.stack = stack
  chain : Lineage s.files id stack.paths
  chains : ∀ id < s.files.length, ∃ paths, Lineage s.files id paths
  first : s.files.head? = some root
  loaded : ∀ file ∈ s.files.tail, loader.load tree file.path = .ok (file.path, file.text)

namespace Session.Reads

variable {loader : Loader} {tree : Tree} {root : SourceFile} {id : FileId}
variable {stack stack' : ImportStack} {s s' : Session}

theorem initial (loader : Loader) (w : Workspace) (path : Path) (text : Text) :
    Reads loader w.tree ⟨path, text, none⟩ 0 ⟨[path]⟩ (Assembly.start w path text) where
  stems := .refl _
  stack_eq := rfl
  chain := @Lineage.root _ ⟨path, text, none⟩ rfl rfl
  chains id hid := by
    obtain rfl : id = 0 := Nat.lt_one_iff.1 hid
    exact ⟨_, .root rfl rfl⟩
  first := rfl
  loaded file hfile := by cases hfile

theorem update (h : Reads loader tree root id stack s) (hw : s.workspace.Stems s'.workspace)
    (hfiles : s'.files = s.files) (hstack : s'.stack = s.stack) :
    Reads loader tree root id stack s' where
  stems := h.stems.trans hw
  stack_eq := hstack.trans h.stack_eq
  chain := hfiles ▸ h.chain
  chains := hfiles ▸ h.chains
  first := hfiles ▸ h.first
  loaded := hfiles ▸ h.loaded

/-- An import that opens a file starts to read it. -/
theorem enter (hproper : tree.Proper) (h : Reads loader tree root id stack s) {options : Options}
    {dir path : Path} {target text : Text}
    (hopens : Assembly.Opens options loader dir target s stack' path text) :
    Reads loader tree root s.files.length stack'
        { s with stack := stack', files := s.files ++ [⟨path, text, some id⟩] } ∧
      stack'.paths = stack.paths ++ [path] := by
  obtain ⟨p, hresolve, hpush, hload⟩ := hopens
  obtain ⟨q, a, -, -, hlookup, rfl⟩ := Tree.resolve_eq_ok hresolve
  obtain ⟨hnew, rfl⟩ := ImportStack.push_eq_ok_iff.1 hpush
  have hsolid := Tree.solid_of_lookup (h.stems.proper hproper).isRooted hlookup
  obtain ⟨rfl, hload, -⟩ := h.stems.load_eq_ok hproper hsolid hload
  rw [h.stack_eq] at hnew ⊢
  have hchain := h.chain.add hnew text
  refine ⟨⟨h.stems, rfl, hchain, fun i hi => ?_, ?_, fun file hfile => ?_⟩, rfl⟩
  · rw [List.length_append, List.length_singleton] at hi
    rcases Nat.lt_succ_iff_lt_or_eq.1 hi with hi | rfl
    · obtain ⟨paths, hpaths⟩ := h.chains i hi
      exact ⟨paths, hpaths.mono (List.prefix_append _ _)⟩
    · exact ⟨_, hchain⟩
  · rw [List.head?_append, h.first]
    rfl
  · have hne : s.files ≠ [] := List.ne_nil_of_mem (List.mem_of_mem_head? h.first)
    rw [List.tail_append_of_ne_nil hne] at hfile
    rcases List.mem_append.1 hfile with hfile | hfile
    · exact h.loaded file hfile
    · obtain rfl := List.mem_singleton.1 hfile
      exact hload

/-- At the end of an import the importing file is read on. -/
theorem leave {child : FileId} {p : Path} (h : Reads loader tree root id stack s)
    (h' : Reads loader tree root child ⟨stack.paths ++ [p]⟩ s') (hfiles : s.files <+: s'.files) :
    Reads loader tree root id stack { s' with stack := s'.stack.pop } where
  stems := h'.stems
  stack_eq := by
    rw [h'.stack_eq, ImportStack.pop, List.dropLast_concat]
  chain := h.chain.mono hfiles
  chains := h'.chains
  first := h'.first
  loaded := h'.loaded

/-- The files on the stack, apart from the root, are files of the tree, all different, and
on the stack with their canonical paths. -/
theorem exists_addresses (h : Reads loader tree root id stack s) :
    ∃ addresses, stack = .below root.path addresses ∧ tree.Distinct addresses ∧
      ∀ a ∈ addresses, tree.canonical (Tree.pathOf a) = .ok (Tree.pathOf a) := by
  have hloaded := h.loaded
  have hfirst := h.first
  have hchain := h.chain
  obtain ⟨paths⟩ := stack
  dsimp only at hchain
  clear h
  induction hchain with
  | @root file found =>
    obtain rfl := Option.some.inj (hfirst.symm.trans (List.head?_eq_getElem?.trans found))
    exact ⟨[], rfl, ⟨List.nodup_nil, by simp⟩, by simp⟩
  | @child id parent file paths found imported earlier new _ ih =>
    obtain ⟨addresses, hpaths, hdistinct, hcanonical⟩ := ih
    have hmem : file ∈ s.files.tail := by
      obtain ⟨n, rfl⟩ := Nat.exists_eq_succ_of_ne_zero (Nat.ne_of_gt (Nat.zero_lt_of_lt earlier))
      exact List.mem_of_getElem? (List.getElem?_tail.trans found)
    obtain ⟨a, u, hlookup, ha, -, htext, -⟩ := Loader.load_eq_ok_iff.1 (hloaded file hmem)
    obtain ⟨a', bytes, time, hlookup', hnode, -⟩ := Tree.readText_iff_file.1 htext
    obtain rfl := Except.ok.inj (hlookup.symm.trans hlookup')
    obtain rfl : paths = root.path :: addresses.map Tree.pathOf := congrArg ImportStack.paths hpaths
    have hnot : a ∉ addresses := by
      intro hin
      have hsame := new (Tree.pathOf a) (List.mem_cons_of_mem _ (List.mem_map_of_mem hin))
      simp [Path.same, ha] at hsame
    refine ⟨addresses ++ [a], ?_, hdistinct.add hnot ⟨bytes, time, hnode⟩, ?_⟩
    · simp [ImportStack.below, ha]
    · intro b hb
      rcases List.mem_append.1 hb with hb | hb
      · exact hcanonical b hb
      · obtain rfl := List.mem_singleton.1 hb
        rw [← ha, Tree.canonical, hlookup, Except.map, ha]

theorem length_le (h : Reads loader tree root id stack s) : stack.paths.length ≤ tree.fileCount + 1 := by
  obtain ⟨addresses, rfl, hdistinct, -⟩ := h.exists_addresses
  simpa [ImportStack.below] using hdistinct.length_le

end Session.Reads

/-! ### Steps that keep what is so -/

/-- A property of the state holds after a step if it held before. -/
def Step.Preserves {σ α : Type} (I : σ → Prop) (x : Step σ α) : Prop :=
  ∀ s a s', I s → Returns x s a s' → I s'

theorem Step.congruence_preserves {σ : Type} (I : σ → Prop) :
    Congruence fun (x _ : Step σ _) => Preserves I x where
  pure a s b s' hs h := by
    obtain ⟨-, rfl⟩ := returns_pure.1 h
    exact hs
  throw e e' s b s' _ h := absurd h not_returns_throw
  bind hx hf s b s' hs h := by
    obtain ⟨a, s₁, hfirst, hrest⟩ := returns_bind.1 h
    exact hf a s₁ b s' (hx s a s₁ hs hfirst) hrest

namespace Assembly

variable {options : Options} {loader : Loader} {tree : Tree} {root : SourceFile} {id : FileId}
variable {stack : ImportStack} {nested : Importer} {dir : Path}

/-- Whatever the assembly of a file does, apart from imports, changes neither the files read
nor those being read. -/
theorem builds_reads (options : Options) (loader : Loader) (tree : Tree) (root : SourceFile)
    (id : FileId) (stack : ImportStack) :
    Builds options fun x _ => Preserves (Session.Reads loader tree root id stack) x where
  toCongruence := congruence_preserves _
  locating place hx s a s' hs h := hx s a s' hs (returns_locating.1 h)
  modifyVars f s a s' hs h := by
    obtain rfl := returns_modifyVars.1 h
    exact hs.update (.refl _) rfl rfl
  source file hf s a s' hs h := hf _ _ s a s' hs h
  sprite function args line indent s a s' hs h := by
    have hstems := (builds_stems options).sprite function args line indent s
    obtain ⟨w, hw⟩ := expandSprite_inWorkspace options function args line indent s
    rw [h] at hw hstems
    obtain rfl : s' = { s with workspace := w } := hw
    exact hs.update hstems rfl rfl

theorem preserves_importTarget (hproper : tree.Proper)
    (hgrows : ∀ file dir, Grows (nested file dir))
    (hnested : ∀ file stack dir, Preserves (Session.Reads loader tree root file stack) (nested file dir))
    (target : Text) : Preserves (Session.Reads loader tree root id stack)
      (importTarget options loader nested id dir target) := by
  intro s map s' hs h
  obtain ⟨stack', path, text, hopens⟩ := opens_of_returns h
  obtain ⟨henter, hstack⟩ := hs.enter hproper hopens
  rw [Returns, exec_importTarget_of_opens hopens] at h
  split at h <;> cases h
  rename_i s₁ hs₁
  have hfiles := hgrows _ _ _ _ _ hs₁
  have hreads := hnested _ _ _ _ _ _ henter hs₁
  obtain ⟨paths⟩ := stack'
  obtain rfl : paths = stack.paths ++ [path] := hstack
  exact hs.leave hreads ((List.prefix_append _ _).trans hfiles)

theorem preserves_importerAt (hproper : tree.Proper) (options : Options) (depth : Nat) (id : FileId)
    (stack : ImportStack) (dir : Path) : Preserves (Session.Reads loader tree root id stack)
      (importerAt options loader depth id dir) := by
  induction depth generalizing id stack dir with
  | zero =>
    intro s map s' _ h
    exact absurd h not_returns_importerAt_zero
  | succ depth ih =>
    rw [importerAt, assemble_eq]
    exact @assembleFile_congr _ _ (builds_reads options loader tree root id stack) loader loader _
      (importerAt options loader depth) id dir
      (preserves_importTarget hproper (importerAt_grows options loader depth) ih)

end Assembly

end StylePrep
