import StylePrep.Proofs.Course

/-!
# Cycles of imports

A file that imports itself, over whatever detours, is found out when it would be read once
more, and not before. The stack holds each file once and is the import chain of the file that
is being read, an import is refused as cyclic exactly if its file is on the stack, and it is
refused before anything is loaded (`assembleRoot_chains`). The chains of the files that a
compilation has read start at the root and hold no path twice.

So imports cannot be nested without end. Each one inside another adds a file of the tree to
the stack that is not there yet, and there are only so many of them
(`assembleRoot_wellFounded`).
-/

namespace StylePrep

open Text Step

/-! ### Refused imports -/

theorem ImportStack.contains_iff {stack : ImportStack} {p : Path} :
    stack.contains p = true ↔ ∃ below q above, stack.paths = below ++ q :: above ∧
      (∀ r ∈ below, r.same p = false) ∧ q.same p = true := by
  unfold contains
  constructor
  · intro h
    obtain ⟨below, q, above, hstack, hq⟩ : ∃ below q above, stack.paths = below ++ q :: above ∧
        stack.paths.find? (·.same p) = some q ∧ ∀ r ∈ below, r.same p = false := by
      obtain ⟨q, hq⟩ := Option.isSome_iff_exists.1 (List.find?_isSome.2 (List.any_eq_true.1 h))
      obtain ⟨-, below, above, hstack, hbelow⟩ := List.find?_eq_some_iff_append.1 hq
      exact ⟨below, q, above, hstack, hq, by simpa using hbelow⟩
    exact ⟨below, q, above, hstack, hq.2, by simpa using List.find?_some hq.1⟩
  · rintro ⟨below, q, above, hstack, -, hq⟩
    simp [hstack, hq]

/-- A path that is on the stack is refused, with the part of the stack from there on. -/
theorem ImportStack.push_eq_error {stack : ImportStack} {p q : Path} {below above : List Path}
    (hstack : stack.paths = below ++ q :: above) (hbelow : ∀ r ∈ below, r.same p = false)
    (hq : q.same p = true) : stack.push p = .error (.cyclic p (q :: above ++ [p])) := by
  have hdrop : stack.paths.dropWhile (!·.same p) = q :: above := by
    rw [hstack, List.dropWhile_append_of_pos (by simpa using hbelow), List.dropWhile_cons_of_neg]
    simp [hq]
  rw [push, hdrop]

theorem ImportStack.push_eq_ok {stack : ImportStack} {p : Path} (h : stack.contains p = false) :
    stack.push p = .ok ⟨stack.paths ++ [p]⟩ :=
  ImportStack.push_eq_ok_iff.2 ⟨by simpa [contains] using h, rfl⟩

namespace Assembly

variable {options : Options} {loader : Loader}

/-- An import is refused as cyclic if its file is on the stack, whatever would be done with
it. -/
theorem exec_importTarget_cyclic {nested : Importer} {id : FileId} {dir p q : Path} {target : Text} {s : Session}
    {below above : List Path}
    (hresolve : Import.resolve s.workspace.tree target dir options.includePaths = .ok p)
    (hstack : s.stack.paths = below ++ q :: above) (hbelow : ∀ r ∈ below, r.same p = false)
    (hq : q.same p = true) :
    exec (importTarget options loader nested id dir target) s =
      (.error (.of (.imports (.cyclic p (q :: above ++ [p])))), s) := by
  rw [exec_importTarget, hresolve]
  dsimp only
  rw [ImportStack.push_eq_error hstack hbelow hq]

/-- If it is not on the stack, an error that the import itself raises is not about a cycle. -/
theorem contains_of_cyclic {depth : Nat} {id : FileId} {dir q : Path} {target : Text} {s : Session}
    {chain : List Path}
    (h : (exec (importTarget options loader (assemble options loader depth) id dir target) s).1 =
      .error (.of (.imports (.cyclic q chain)))) :
    ∃ p, Import.resolve s.workspace.tree target dir options.includePaths = .ok p ∧
      s.stack.contains p = true := by
  rw [exec_importTarget] at h
  cases hresolve : Import.resolve s.workspace.tree target dir options.includePaths with
  | error e =>
    obtain ⟨paths, rfl⟩ : ∃ paths, e = .notFound target paths := by
      unfold Import.resolve at hresolve
      dsimp only at hresolve
      split at hresolve
      · split at hresolve <;> cases hresolve
      · exact ⟨_, (Except.error.inj hresolve).symm⟩
    rw [hresolve] at h
    cases h
  | ok p =>
    refine ⟨p, rfl, ?_⟩
    by_contra hcontains
    rw [hresolve] at h
    dsimp only at h
    rw [ImportStack.push_eq_ok (Bool.eq_false_iff.2 hcontains)] at h
    dsimp only at h
    split at h
    · cases h
    · revert h
      cases hnested : exec (assemble options loader depth _ _) _ with
      | mk result s₁ =>
        cases result with
        | ok map =>
          intro h
          cases h
        | error e =>
          intro h
          have hlocation := located_assemble hnested
          obtain rfl := Except.error.inj h
          cases hlocation

/-! ### Chains -/

/-- The assembly of a file passes through a session, before a directive or a target of an
import. -/
def Passes (options : Options) (loader : Loader) (v : Visit) (s : Session) : Prop :=
  (∃ depth before map ds, Comes options loader depth v before map ds s) ∨
    ∃ depth targets map, Asks options loader depth v targets map s

theorem Passes.reads {v : Visit} {s : Session} {tree : Tree} {root : SourceFile} {stack : ImportStack}
    (h : Passes options loader v s) (hproper : tree.Proper)
    (hv : v.session.Reads loader tree root v.file stack) : s.Reads loader tree root v.file stack := by
  obtain ⟨_, _, _, _, hcomes⟩ | ⟨_, _, _, hasks⟩ := h
  · exact hcomes.reads hproper hv
  · exact hasks.reads hproper hv

/-- What an assembly does behind an import that fails with a cause, the compilation fails
with. -/
theorem Visits.importTarget_fails {path dir : Path} {text : Text} {w : Workspace} {n depth : Nat}
    {v : Visit} {target : Text} {targets : List Text} {map : LineMap} {s s' : Session} {e : Error}
    (h : Visits options loader path dir text w n v) (hproper : w.tree.Proper)
    (hasks : Asks options loader depth v (target :: targets) map s)
    (hfails : ∀ nested, exec (importTarget options loader nested v.file v.dir target) s =
      (.error e, s')) :
    ∃ e', (exec (assembleRoot options loader path text dir) w).1 = .error e' ∧ e'.cause = e.cause := by
  have hdepth : depth ≤ max depth w.tree.fileCount := by omega
  obtain ⟨place, hassemble⟩ := (hasks.mono hdepth).fails (hfails _)
  obtain ⟨s₁, hroot⟩ := h.fails hproper (by omega) hassemble
  refine ⟨_, ?_, e.cause_locate place⟩
  rw [exec_assembleRoot, exec_inRoot, hroot]

end Assembly

/-- The files of a compilation as its imports order them: the root alone has no parent, each
other file comes behind its parent, and the chain that leads to a file from the root ends in
it and holds no path twice. -/
structure Compilation.Lineal (c : Compilation) : Prop where
  root : ∃ file, c.files[0]? = some file ∧ file.parent = none
  parent : ∀ id file, c.files[id]? = some file → id ≠ 0 → ∃ parent < id, file.parent = some parent
  first : ∀ id file, c.files[id]? = some file →
    (c.importChain id).head? = c.root?.map SourceFile.path
  last : ∀ id file, c.files[id]? = some file → (c.importChain id).getLast? = some file.path
  simple : ∀ id file, c.files[id]? = some file →
    (c.importChain id).Pairwise fun p q => p.same q = false

theorem Session.Reads.lineal {loader : Loader} {tree : Tree} {root : SourceFile}
    {stack : ImportStack} {id : FileId} {s : Session} (h : s.Reads loader tree root id stack) (map : LineMap) :
    Compilation.Lineal ⟨map, s.files⟩ := by
  have hchain {id : FileId} {file : SourceFile} (hfile : s.files[id]? = some file) :
      Lineage s.files id ((Compilation.mk map s.files).importChain id) := by
    obtain ⟨paths, hpaths⟩ := h.chains id (List.getElem?_eq_some_iff.1 hfile).1
    rw [hpaths.importChain_eq (c := ⟨map, s.files⟩)]
    exact hpaths
  refine ⟨?_, fun id file hfile hid => ?_, fun id file hfile => (hchain hfile).head?_eq,
    fun id file hfile => ?_, fun id file hfile => (hchain hfile).pairwise⟩
  · obtain ⟨file, hfile, -⟩ := h.chain.exists_file
    have hlength := Nat.zero_lt_of_lt (List.getElem?_eq_some_iff.1 hfile).1
    obtain ⟨paths, hpaths⟩ := h.chains 0 hlength
    obtain ⟨root, hroot, -⟩ := hpaths.exists_file
    rcases hpaths.parent_eq hroot with ⟨-, hparent⟩ | ⟨parent, hlt, -⟩
    · exact ⟨root, hroot, hparent⟩
    · exact absurd hlt (Nat.not_lt_zero parent)
  · exact ((hchain hfile).parent_eq hfile).resolve_left fun hroot => hid hroot.1
  · obtain ⟨file', hfile', hlast⟩ := (hchain hfile).exists_file
    obtain rfl := Option.some.inj (hfile'.symm.trans hfile)
    exact hlast

namespace Assembly

variable {options : Options} {loader : Loader} {path dir : Path} {text : Text} {w : Workspace}

theorem reads_of_assembleRoot (hproper : w.tree.Proper) {c : Compilation} {w' : Workspace}
    (h : Returns (assembleRoot options loader path text dir) w c w') :
    ∃ s, Session.Reads loader w.tree ⟨path, text, none⟩ 0 ⟨[path]⟩ s ∧ c.files = s.files := by
  obtain ⟨s, hreturns, hfiles, -⟩ := returns_assembleRoot.1 h
  exact ⟨s, preserves_importerAt hproper options (w.tree.fileCount + 1) 0 _ dir _ _ _
    (.initial loader w path text) hreturns, hfiles⟩

/-- Cycles of imports are found exactly where they close, and chains of imports are simple. -/
theorem assembleRoot_chains (options : Options) (loader : Loader) (path dir : Path) (text : Text)
    {w : Workspace} (hproper : w.tree.Proper) :
    -- the stack is the import chain of the file being read
    (∀ n v s, Visits options loader path dir text w n v → Passes options loader v s →
      s.stack.paths.Pairwise (fun p q => p.same q = false) ∧
        (Compilation.mk .empty s.files).importChain v.file = s.stack.paths) ∧
    -- an import is cyclic exactly if its file is on the stack
    (∀ n v depth target targets map s, Visits options loader path dir text w n v →
      Asks options loader depth v (target :: targets) map s → w.tree.fileCount ≤ n + depth →
      ((∃ q chain, (exec (importTarget options loader (importerAt options loader depth) v.file v.dir
          target) s).1 = .error (.of (.imports (.cyclic q chain)))) ↔
        ∃ p, Import.resolve s.workspace.tree target v.dir options.includePaths = .ok p ∧
          s.stack.contains p = true) ∧
      ∀ p, Import.resolve s.workspace.tree target v.dir options.includePaths = .ok p →
        s.stack.contains p = true →
        ∃ below q above, s.stack.paths = below ++ q :: above ∧ (∀ r ∈ below, r.same p = false) ∧
          q.same p = true ∧
          -- nothing is loaded, and the session stays as it is
          (∀ loader' nested, exec (importTarget options loader' nested v.file v.dir target) s =
            (.error (.of (.imports (.cyclic p (q :: above ++ [p])))), s)) ∧
          ∃ e, (exec (assembleRoot options loader path text dir) w).1 = .error e ∧
            e.cause = .imports (.cyclic p (q :: above ++ [p]))) ∧
    -- the files of the result
    ∀ c w', Returns (assembleRoot options loader path text dir) w c w' →
      c.root? = some ⟨path, text, none⟩ ∧ c.Lineal := by
  refine ⟨fun n v s hvisits hpasses => ?_,
    fun n v depth target targets map s hvisits hasks hdepth => ⟨⟨?_, ?_⟩, ?_⟩, fun c w' h => ?_⟩
  · obtain ⟨stack, hreads, -⟩ := hvisits.reads hproper
    have hchain := (hpasses.reads hproper hreads).chain
    rw [(hpasses.reads hproper hreads).stack_eq]
    exact ⟨hchain.pairwise, hchain.importChain_eq (c := ⟨.empty, s.files⟩)⟩
  · rintro ⟨q, chain, hcyclic⟩
    obtain ⟨rest, hreads, hrest⟩ := hvisits.reads hproper
    have hlength : (ImportStack.mk (path :: rest)).paths.length = n + 1 := by simp [hrest]
    rw [exec_importTarget_depth hproper (hasks.reads hproper hreads) (by omega)
      (show _ < _ + (depth + 1) by omega)] at hcyclic
    exact contains_of_cyclic hcyclic
  · rintro ⟨p, hresolve, hcontains⟩
    obtain ⟨below, q, above, hstack, hbelow, hq⟩ := ImportStack.contains_iff.1 hcontains
    exact ⟨p, q :: above ++ [p],
      congrArg Prod.fst (exec_importTarget_cyclic hresolve hstack hbelow hq)⟩
  · intro p hresolve hcontains
    obtain ⟨below, q, above, hstack, hbelow, hq⟩ := ImportStack.contains_iff.1 hcontains
    exact ⟨below, q, above, hstack, hbelow, hq,
      fun _ _ => exec_importTarget_cyclic hresolve hstack hbelow hq,
      hvisits.importTarget_fails hproper hasks
        fun _ => exec_importTarget_cyclic hresolve hstack hbelow hq⟩
  · obtain ⟨s, hreads, hfiles⟩ := reads_of_assembleRoot hproper h
    obtain ⟨map, files⟩ := c
    obtain rfl : files = s.files := hfiles
    exact ⟨hreads.first, hreads.lineal map⟩

/-- An assembly comes to the targets of an import that its file starts with. -/
theorem exists_asks (options : Options) (loader : Loader) (depth : Nat) (v : Visit)
    {targets : List Text}
    (h : (scan options.functions v.source.text).directives.head?.map Directive.kind =
      some (.imports targets)) :
    ∃ vars, Asks options loader depth v targets .empty { v.session with vars } := by
  obtain ⟨d, hd, hkind⟩ := Option.map_eq_some_iff.1 h
  obtain ⟨ds, hds⟩ := List.head?_eq_some_iff.1 hd
  have hcomes : Comes options loader depth v [] .empty (d :: ds) v.session := hds ▸ Comes.start
  exact ⟨_, .first hcomes hkind⟩

/-- Two files that import each other. -/
def twoFiles : Workspace :=
  Sample.workspace [("a.scss", "@import \"b\";\n"), ("b.scss", "@import \"a\";\n")]

/-- The second file imports the first, which is being read. -/
theorem assembleRoot_chains_twoFiles :
    ∃ e, (exec (assembleRoot Sample.options ⟨[⟨"/".toList⟩]⟩ ⟨"/a.scss".toList⟩
        "@import \"b\";\n".toList ⟨"/".toList⟩) twoFiles).1 = .error e ∧
      e.cause = .imports (.cyclic ⟨"/a.scss".toList⟩
        [⟨"/a.scss".toList⟩, ⟨"/b.scss".toList⟩, ⟨"/a.scss".toList⟩]) := by
  obtain ⟨vars, hasks⟩ := exists_asks Sample.options ⟨[⟨"/".toList⟩]⟩ 2
    ⟨0, ⟨"/".toList⟩, start twoFiles ⟨"/a.scss".toList⟩ "@import \"b\";\n".toList⟩
    (show _ = some (DirectiveKind.imports ["b".toList]) by decide +kernel)
  have hresolve : Import.resolve twoFiles.tree "b".toList ⟨"/".toList⟩ [] = .ok ⟨"/b.scss".toList⟩ := by
    decide +kernel
  have hload : (Loader.mk [⟨"/".toList⟩]).load twoFiles.tree ⟨"/b.scss".toList⟩ =
      .ok (⟨"/b.scss".toList⟩, "@import \"a\";\n".toList) := by decide +kernel
  have hpush : (ImportStack.mk [⟨"/a.scss".toList⟩]).push ⟨"/b.scss".toList⟩ =
      .ok ⟨[⟨"/a.scss".toList⟩, ⟨"/b.scss".toList⟩]⟩ := by decide
  have hvisits := Visits.root.enter ⟨2, _, _, _, _, _, _, _, hasks, ⟨_, hresolve, hpush, hload⟩, rfl⟩
  have hfirst : (scan Sample.options.functions "@import \"a\";\n".toList).directives.head?.map
      Directive.kind = some (.imports ["a".toList]) := by decide +kernel
  obtain ⟨vars', hasks'⟩ := exists_asks Sample.options ⟨[⟨"/".toList⟩]⟩ 2
    ⟨1, ⟨"/".toList⟩, ⟨twoFiles, [⟨⟨"/a.scss".toList⟩, "@import \"b\";\n".toList, none⟩,
      ⟨⟨"/b.scss".toList⟩, "@import \"a\";\n".toList, some 0⟩],
      ⟨[⟨"/a.scss".toList⟩, ⟨"/b.scss".toList⟩]⟩, vars⟩⟩ hfirst
  have hresolve' : Import.resolve twoFiles.tree "a".toList ⟨"/".toList⟩ [] = .ok ⟨"/a.scss".toList⟩ := by
    decide +kernel
  have hcontains : (ImportStack.mk [⟨"/a.scss".toList⟩, ⟨"/b.scss".toList⟩]).contains
      ⟨"/a.scss".toList⟩ = true := by decide
  obtain ⟨below, q, above, hstack, hbelow, -, -, e, he, hcause⟩ :=
    ((assembleRoot_chains Sample.options ⟨[⟨"/".toList⟩]⟩ ⟨"/a.scss".toList⟩ ⟨"/".toList⟩
      "@import \"b\";\n".toList (w := twoFiles) (by decide +kernel)).2.1 1 _ 2 _ _ _ _ hvisits hasks'
        (by decide)).2 _ hresolve' hcontains
  refine ⟨e, he, hcause.trans ?_⟩
  rcases below with _ | ⟨first, below⟩
  · obtain ⟨rfl, rfl⟩ := List.cons.inj hstack
    rfl
  · obtain ⟨rfl, -⟩ := List.cons.inj hstack
    exact absurd (hbelow _ List.mem_cons_self) (by decide)

/-! ### Depth -/

/-- The files being read, as addresses of the tree. -/
theorem Visits.exists_files {n : Nat} {v : Visit} (h : Visits options loader path dir text w n v)
    (hproper : w.tree.Proper) :
    ∃ files, v.session.stack = .below path files ∧ files.length = n ∧ w.tree.Distinct files ∧
      (files.map Tree.pathOf).Nodup ∧
      ∀ a ∈ files, w.tree.canonical (Tree.pathOf a) = .ok (Tree.pathOf a) := by
  obtain ⟨rest, hreads, hlength⟩ := h.reads hproper
  obtain ⟨files, hstack, hdistinct, hcanonical⟩ := hreads.exists_addresses
  obtain ⟨-, rfl⟩ := List.cons.inj (congrArg ImportStack.paths hstack)
  refine ⟨files, hreads.stack_eq, ?_, hdistinct, ?_, hcanonical⟩
  · rwa [List.length_map] at hlength
  · refine (List.pairwise_cons.1 hreads.chain.pairwise).2.imp fun hne => ?_
    rintro rfl
    simp [Path.same] at hne

/-- An import inside another puts one more file on the stack. -/
theorem Visits.stack_of_enters {n : Nat} {v v' : Visit} {files : List Address}
    (h : Visits options loader path dir text w n v) (hproper : w.tree.Proper)
    (henters : Enters options loader v v') (hstack : v.session.stack = .below path files) :
    ∃ a, a ∉ files ∧ v'.session.stack = .below path (files ++ [a]) := by
  obtain ⟨rest, hreads, -⟩ := h.reads hproper
  obtain ⟨p, hreads'⟩ := henters.reads hproper hreads
  obtain rfl : rest = files.map Tree.pathOf :=
    (List.cons.inj (congrArg ImportStack.paths (hreads.stack_eq.symm.trans hstack))).2
  obtain ⟨addresses, hstack', -, -⟩ := hreads'.exists_addresses
  have hpaths := (List.cons.inj (congrArg ImportStack.paths hstack')).2
  obtain ⟨front, last, rfl, -, hlast⟩ := List.append_eq_map_iff.1 hpaths
  obtain ⟨a, rfl, rfl⟩ := List.map_eq_singleton_iff.1 hlast
  refine ⟨a, fun ha => ?_, ?_⟩
  · -- the path is new on the stack
    have hnew := (List.pairwise_append.1 hreads'.chain.pairwise).2.2 (Tree.pathOf a)
      (List.mem_cons_of_mem _ (List.mem_map_of_mem ha)) _ (List.mem_singleton.2 rfl)
    simp [Path.same] at hnew
  · rw [hreads'.stack_eq]
    simp [ImportStack.below]

theorem Visits.acc {n : Nat} {v : Visit} (h : Visits options loader path dir text w n v)
    (hproper : w.tree.Proper) : Acc (fun v' v => Enters options loader v v') v := by
  -- the measure is the number of files that are not on the stack
  obtain ⟨k, hk⟩ : ∃ k, w.tree.fileCount < n + k := ⟨w.tree.fileCount + 1, by omega⟩
  induction k generalizing n v with
  | zero => exact absurd (h.le_fileCount hproper) (by omega)
  | succ k ih => exact .intro v fun v' henters => ih (h.enter henters) (by omega)

/-- Imports are not nested without end: each one inside another adds a file of the tree to the
stack that was not there. -/
theorem assembleRoot_wellFounded (options : Options) (loader : Loader) (path dir : Path) (text : Text)
    {w : Workspace} (hproper : w.tree.Proper) :
    Acc (fun v' v => Enters options loader v v') ⟨0, dir, start w path text⟩ ∧
    (∀ n v, Visits options loader path dir text w n v →
      n ≤ w.tree.fileCount ∧ ∃ files, v.session.stack = .below path files ∧ files.length = n ∧
        w.tree.Distinct files ∧ (files.map Tree.pathOf).Nodup ∧
        (∀ a ∈ files, w.tree.canonical (Tree.pathOf a) = .ok (Tree.pathOf a)) ∧
        ∀ v', Enters options loader v v' → ∃ a, a ∉ files ∧
          v'.session.stack = .below path (files ++ [a])) ∧
    ∀ depth, w.tree.fileCount ≤ depth →
      exec (assemble options loader depth 0 dir) (start w path text) =
        exec (assemble options loader w.tree.fileCount 0 dir) (start w path text) := by
  refine ⟨Visits.root.acc hproper, fun n v hvisits => ⟨hvisits.le_fileCount hproper, ?_⟩,
    fun depth hdepth => ?_⟩
  · obtain ⟨files, hstack, hlength, hdistinct, hnodup, hcanonical⟩ := hvisits.exists_files hproper
    exact ⟨files, hstack, hlength, hdistinct, hnodup, hcanonical, fun v' henters =>
      hvisits.stack_of_enters hproper henters hstack⟩
  · exact @exec_importerAt_eq options loader (depth + 1) (w.tree.fileCount + 1) _ _ _ _ _ hproper
      (.initial loader w path text) (by rw [List.length_singleton]; omega)
      (by rw [List.length_singleton]; omega) dir

/-- With two files that import each other no more than two imports are inside one another. -/
theorem assembleRoot_wellFounded_twoFiles :
    twoFiles.tree.Proper ∧ ∀ n v, Visits Sample.options ⟨[⟨"/".toList⟩]⟩ ⟨"/a.scss".toList⟩
      ⟨"/".toList⟩ "@import \"b\";\n".toList twoFiles n v → n ≤ 2 := by
  have hproper : twoFiles.tree.Proper := by decide +kernel
  exact ⟨hproper, fun n v h => ((assembleRoot_wellFounded _ _ _ _ _ hproper).2.1 n v h).1⟩

end Assembly

end StylePrep
