import StylePrep.Proofs.Lineage

/-!
# The course of a compilation

What a compilation does between its start and its end is given by four relations. In the
assembly of a file it comes to the rest of the directives (`Comes`) and, inside a directive,
to the rest of the targets (`Asks`), each time in some session. An import that opens a file
enters another assembly (`Enters`), so the assemblies that a compilation gets to are those
that can be reached from that of the root (`Visits`). In all of them imports may be nested as
deeply as one likes: the relations have no bound on the depth.

Where a compilation comes to, it satisfies the invariant of sessions (`Visits.reads`,
`Comes.reads`, `Asks.reads`). In particular no more files can be on the stack than the tree
has, so beyond that the bound on the depth makes no difference (`exec_importerAt_eq`). And a
failing import that a compilation comes to is what the compilation fails with
(`Visits.fails`).
-/

namespace StylePrep

open Text Step

/-- The assembly of a file at its start: the number of the file, the directory that its
imports are searched in first, and the session. -/
structure Visit where
  file : FileId
  dir : Path
  session : Session

def Visit.source (v : Visit) : SourceFile := (v.session.files[v.file]?).getD ⟨⟨[]⟩, [], none⟩

/-- The session in which a directive of the file is added. -/
def Visit.synced (v : Visit) (d : Directive) (s : Session) : Session :=
  { s with vars := s.vars.sync v.session.vars.innermost v.file d.scope }

@[simp] theorem Error.cause_locate (e : Error) (place : Text) : (e.locate place).cause = e.cause := by
  unfold locate
  split <;> rfl

theorem Error.isSome_locate (e : Error) (place : Text) : (e.locate place).location.isSome = true := by
  unfold locate
  split
  · rename_i h
    rw [h]
    rfl
  · rfl

/-- An error that has a location keeps it. -/
theorem Error.locate_of_isSome {e : Error} (h : e.location.isSome = true) (place : Text) :
    e.locate place = e := by
  obtain ⟨location, hlocation⟩ := Option.isSome_iff_exists.1 h
  rw [locate, hlocation]

namespace Assembly

section Relations

variable (options : Options) (loader : Loader)

/-- The assembly of a file comes to its directives `ds` in a session, with this text behind it
and this output. Up to `depth` imports are inside one another. -/
inductive Comes (depth : Nat) (v : Visit) : Text → LineMap → List Directive → Session → Prop
  | start : Comes depth v [] .empty (scan options.functions v.source.text).directives v.session
  | next {before : Text} {map map' : LineMap} {d : Directive} {ds : List Directive} {s s' : Session} :
      Comes depth v before map (d :: ds) s →
      Returns (addDirective options loader (importerAt options loader depth) v.file v.dir before
        map d) (v.synced d s) map' s' →
      Comes depth v (before ++ d.raw) map' ds s'

/-- The assembly of a file comes to targets of an import in a session. -/
inductive Asks (depth : Nat) (v : Visit) : List Text → LineMap → Session → Prop
  | first {before : Text} {map : LineMap} {d : Directive} {ds : List Directive} {s : Session}
      {targets : List Text} :
      Comes options loader depth v before map (d :: ds) s → d.kind = .imports targets →
      Asks depth v targets map (v.synced d s)
  | next {target : Text} {targets : List Text} {map child : LineMap} {s s' : Session} :
      Asks depth v (target :: targets) map s →
      Returns (importTarget options loader (importerAt options loader depth) v.file v.dir target)
        s child s' →
      Asks depth v targets (map.splice child) s'

/-- The assembly of a file enters that of a file it imports. -/
def Enters (v v' : Visit) : Prop :=
  ∃ depth target targets map s stack path text,
    Asks options loader depth v (target :: targets) map s ∧
      Opens options loader v.dir target s stack path text ∧
      v' = ⟨s.files.length, path.directory,
        { s with stack, files := s.files ++ [⟨path, text, some v.file⟩] }⟩

/-- The assembly of a root text gets to that of a file by so many imports inside one another. -/
inductive Visits (path dir : Path) (text : Text) (w : Workspace) : Nat → Visit → Prop
  | root : Visits path dir text w 0 ⟨0, dir, start w path text⟩
  | enter {n : Nat} {v v' : Visit} :
      Visits path dir text w n v → Enters options loader v v' → Visits path dir text w (n + 1) v'

end Relations

variable {options : Options} {loader : Loader} {depth depth' : Nat} {v v' : Visit}
variable {before : Text} {map : LineMap} {ds : List Directive} {targets : List Text} {s s' : Session}

/-! ### More depth -/

def Covers {α : Type} (x y : Assembly α) : Prop := ∀ s a s', Returns x s a s' → Returns y s a s'

theorem builds_covers (options : Options) : Builds options Covers where
  pure _ _ _ _ h := h
  throw _ _ _ _ _ h := absurd h not_returns_throw
  bind hx hf s b s' h := by
    obtain ⟨a, s₁, hfirst, hrest⟩ := returns_bind.1 h
    exact returns_bind.2 ⟨a, s₁, hx s a s₁ hfirst, hf a s₁ b s' hrest⟩
  locating _ hx s a s' h := returns_locating.2 (hx s a s' (returns_locating.1 h))
  modifyVars _ _ _ _ h := h
  source _ hf s a s' h := hf _ _ s a s' h
  sprite _ _ _ _ _ _ _ h := h

theorem importTarget_covers {nested nested' : Importer}
    (hnested : ∀ id dir, Covers (nested id dir) (nested' id dir)) (id : FileId) (dir : Path)
    (target : Text) : Covers (importTarget options loader nested id dir target)
      (importTarget options loader nested' id dir target) := by
  intro s map s' h
  obtain ⟨stack, path, text, hopens⟩ := opens_of_returns h
  rw [Returns, exec_importTarget_of_opens hopens] at h ⊢
  split at h <;> cases h
  rename_i s₁ hs₁
  rw [show exec (nested' _ _) _ = _ from hnested _ _ _ _ _ hs₁]

/-- An assembly that returns does so if imports may be nested more deeply. -/
theorem importerAt_covers (hdepth : depth ≤ depth') (id : FileId) (dir : Path) :
    Covers (importerAt options loader depth id dir) (importerAt options loader depth' id dir) := by
  induction depth generalizing depth' id dir with
  | zero =>
    intro s map s' h
    exact absurd h not_returns_importerAt_zero
  | succ depth ih =>
    obtain ⟨depth', rfl⟩ := Nat.exists_eq_succ_of_ne_zero (Nat.ne_of_gt (Nat.zero_lt_of_lt hdepth))
    rw [importerAt, importerAt, assemble_eq, assemble_eq]
    exact assembleFile_congr (builds_covers options)
      (importTarget_covers (fun id dir => ih (Nat.le_of_succ_le_succ hdepth) id dir) id dir)

theorem Comes.mono (h : Comes options loader depth v before map ds s) (hdepth : depth ≤ depth') :
    Comes options loader depth' v before map ds s := by
  induction h with
  | start => exact .start
  | next _ hadd ih =>
    exact .next ih (addDirective_congr (builds_covers options)
      (importTarget_covers (importerAt_covers hdepth) v.file v.dir) _ _ _ _ _ _ hadd)

theorem Asks.mono (h : Asks options loader depth v targets map s) (hdepth : depth ≤ depth') :
    Asks options loader depth' v targets map s := by
  induction h with
  | first hcomes hkind => exact .first (hcomes.mono hdepth) hkind
  | next _ himport ih =>
    exact .next ih (importTarget_covers (importerAt_covers hdepth) v.file v.dir _ _ _ _ himport)

/-! ### The rest of an assembly -/

/-- From where an assembly comes to, it goes on as it would from the start. -/
theorem Comes.exec_eq (h : Comes options loader depth v before map ds s) :
    exec (addDirectives options loader (importerAt options loader depth) v.file v.source.path v.dir
        v.session.vars.innermost [] .empty (scan options.functions v.source.text).directives)
        v.session =
      exec (addDirectives options loader (importerAt options loader depth) v.file v.source.path v.dir
        v.session.vars.innermost before map ds) s := by
  induction h with
  | start => rfl
  | @next before map map' d ds s s' _ hadd ih =>
    rw [ih, addDirectives, exec_bind]
    change exec (locating _ _ >>= _) (v.synced d s) = _
    rw [exec_bind, show exec (locating _ _) _ = _ from returns_locating.2 hadd]

theorem Asks.exec_eq (h : Asks options loader depth v targets map s) :
    ∃ place rest, exec (addDirectives options loader (importerAt options loader depth) v.file
        v.source.path v.dir v.session.vars.innermost [] .empty
        (scan options.functions v.source.text).directives) v.session =
      exec (locating place (importAll options loader (importerAt options loader depth) v.file v.dir
        targets map) >>= rest) s := by
  induction h with
  | @first before map d ds s targets hcomes hkind =>
    refine ⟨Compilation.place v.source.path d.line, fun map => addDirectives options loader
      (importerAt options loader depth) v.file v.source.path v.dir v.session.vars.innermost
      (before ++ d.raw) map ds, ?_⟩
    rw [hcomes.exec_eq, addDirectives, exec_bind]
    change exec (locating _ (addDirective options loader _ v.file v.dir before map d) >>= _) _ = _
    rw [addDirective, hkind]
    rfl
  | next _ himport ih =>
    obtain ⟨place, rest, hexec⟩ := ih
    refine ⟨place, rest, hexec.trans ?_⟩
    rw [exec_bind, exec_bind, exec_locating, exec_locating, importAll, exec_bind,
      show exec (importTarget _ _ _ _ _ _) _ = _ from himport]

theorem exec_assembleFile (options : Options) (loader : Loader) (nested : Importer) (v : Visit) :
    exec (assembleFile options loader nested v.file v.dir) v.session =
      match exec (addDirectives options loader nested v.file v.source.path v.dir
          v.session.vars.innermost [] .empty (scan options.functions v.source.text).directives)
          v.session with
      | (.error e, s) => (.error e, s)
      | (.ok map, s) => match (scan options.functions v.source.text).error? with
        | some e => (.error ((Error.of (.scan e)).locate (Compilation.place v.source.path e.line)), s)
        | none => (.ok map, s) := by
  change exec (addDirectives _ _ _ _ v.source.path _ v.session.vars.innermost _ _
    (scan options.functions v.source.text).directives >>= fun map =>
      match (scan options.functions v.source.text).error? with
      | some e => throw ((Error.of (.scan e)).locate (Compilation.place v.source.path e.line))
      | none => pure map) v.session = _
  rw [exec_bind]
  obtain ⟨_ | map, s⟩ := exec (addDirectives _ _ _ _ _ _ _ _ _ _) v.session
  · rfl
  · cases (scan options.functions v.source.text).error? <;> rfl

/-- The assembly of a file fails with the import that it comes to and that fails. -/
theorem Asks.fails {target : Text} {e : Error}
    (h : Asks options loader depth v (target :: targets) map s)
    (hfails : exec (importTarget options loader (importerAt options loader depth) v.file v.dir target)
      s = (.error e, s')) :
    ∃ place, exec (assemble options loader depth v.file v.dir) v.session =
      (.error (e.locate place), s') := by
  obtain ⟨place, rest, hexec⟩ := h.exec_eq
  rw [exec_bind, exec_locating, importAll, exec_bind, hfails] at hexec
  exact ⟨place, by rw [assemble_eq, exec_assembleFile, hexec]⟩

/-! ### The invariant -/

section Invariant

variable {tree : Tree} {root : SourceFile} {stack : ImportStack}

theorem preserves_addDirective (hproper : tree.Proper) (options : Options) (depth : Nat) (id : FileId)
    (stack : ImportStack) (dir : Path) (before : Text) (map : LineMap) (d : Directive) :
    Preserves (Session.Reads loader tree root id stack)
      (addDirective options loader (importerAt options loader depth) id dir before map d) :=
  @addDirective_congr _ _ (builds_reads options loader tree root id stack) loader loader _
    (importerAt options loader depth) id dir
    (preserves_importTarget hproper (importerAt_grows options loader depth)
      (preserves_importerAt hproper options depth)) before map d

theorem Comes.reads (h : Comes options loader depth v before map ds s) (hproper : tree.Proper)
    (hv : v.session.Reads loader tree root v.file stack) : s.Reads loader tree root v.file stack := by
  induction h with
  | start => exact hv
  | @next before map map' d ds s s' _ hadd ih =>
    have hsynced : (v.synced d s).Reads loader tree root v.file stack := ih.update (.refl _) rfl rfl
    exact preserves_addDirective hproper options depth v.file stack v.dir before map d _ _ _ hsynced
      hadd

theorem Asks.reads (h : Asks options loader depth v targets map s) (hproper : tree.Proper)
    (hv : v.session.Reads loader tree root v.file stack) : s.Reads loader tree root v.file stack := by
  induction h with
  | first hcomes _ => exact (hcomes.reads hproper hv).update (.refl _) rfl rfl
  | next _ himport ih =>
    exact preserves_importTarget hproper (importerAt_grows options loader depth)
      (preserves_importerAt hproper options depth) _ _ _ _ ih himport

/-- Where an import enters the assembly of a file, one more is on the stack. -/
theorem Enters.reads (h : Enters options loader v v') (hproper : tree.Proper)
    (hv : v.session.Reads loader tree root v.file stack) :
    ∃ p, v'.session.Reads loader tree root v'.file ⟨stack.paths ++ [p]⟩ := by
  obtain ⟨depth, target, targets, map, s, stack', path, text, hasks, hopens, rfl⟩ := h
  obtain ⟨hreads, hstack⟩ := (hasks.reads hproper hv).enter hproper hopens
  obtain ⟨paths⟩ := stack'
  obtain rfl : paths = stack.paths ++ [path] := hstack
  exact ⟨path, hreads⟩

/-- The files being read in an assembly that a compilation gets to. -/
theorem Visits.reads {path dir : Path} {text : Text} {w : Workspace} {n : Nat}
    (h : Visits options loader path dir text w n v) (hproper : w.tree.Proper) :
    ∃ rest, v.session.Reads loader w.tree ⟨path, text, none⟩ v.file ⟨path :: rest⟩ ∧
      rest.length = n := by
  induction h with
  | root => exact ⟨[], .initial loader w path text, rfl⟩
  | enter _ henters ih =>
    obtain ⟨rest, hreads, hlength⟩ := ih
    obtain ⟨p, hreads⟩ := henters.reads hproper hreads
    exact ⟨rest ++ [p], hreads, by simp [hlength]⟩

theorem Visits.le_fileCount {path dir : Path} {text : Text} {w : Workspace} {n : Nat}
    (h : Visits options loader path dir text w n v) (hproper : w.tree.Proper) :
    n ≤ w.tree.fileCount := by
  obtain ⟨rest, hreads, rfl⟩ := h.reads hproper
  exact Nat.le_of_succ_le_succ hreads.length_le

end Invariant

/-! ### Depth enough -/

theorem exec_bind_eq {α β : Type} {x y : Assembly α} {f g : α → Assembly β} {s : Session}
    (hx : exec x s = exec y s) (hf : ∀ a s', Returns x s a s' → exec (f a) s' = exec (g a) s') :
    exec (x >>= f) s = exec (y >>= g) s := by
  rw [exec_bind, exec_bind, ← hx]
  match hexec : exec x s with
  | (.ok a, s') => exact hf a s' hexec
  | (.error e, s') => rfl

theorem exec_importTarget_eq {nested nested' : Importer} {id : FileId} {dir : Path} {target : Text}
    (h : ∀ stack path text, Opens options loader dir target s stack path text →
      exec (nested s.files.length path.directory)
          { s with stack, files := s.files ++ [⟨path, text, some id⟩] } =
        exec (nested' s.files.length path.directory)
          { s with stack, files := s.files ++ [⟨path, text, some id⟩] }) :
    exec (importTarget options loader nested id dir target) s =
      exec (importTarget options loader nested' id dir target) s := by
  rw [exec_importTarget, exec_importTarget]
  cases hresolve : Import.resolve s.workspace.tree target dir options.includePaths with
  | error e => rfl
  | ok p =>
    dsimp only
    cases hpush : s.stack.push p with
    | error e => rfl
    | ok stack =>
      dsimp only
      cases hload : loader.load s.workspace.tree p with
      | error e => rfl
      | ok r =>
        dsimp only
        rw [h stack r.1 r.2 ⟨p, hresolve, hpush, hload⟩]

section Nested

variable {tree : Tree} {root : SourceFile} {stack : ImportStack} {nested nested' : Importer}
variable {id : FileId} {dir : Path}
variable (hkeeps : ∀ target, Preserves (Session.Reads loader tree root id stack)
  (importTarget options loader nested id dir target))
variable (himport : ∀ target s, s.Reads loader tree root id stack →
  exec (importTarget options loader nested id dir target) s =
    exec (importTarget options loader nested' id dir target) s)
include hkeeps himport

theorem exec_importAll_eq (targets : List Text) (map : LineMap)
    (hs : s.Reads loader tree root id stack) :
    exec (importAll options loader nested id dir targets map) s =
      exec (importAll options loader nested' id dir targets map) s := by
  induction targets generalizing map s with
  | nil => rfl
  | cons target targets ih =>
    exact exec_bind_eq (himport target s hs) fun child s' h => ih _ (hkeeps target s child s' hs h)

theorem exec_addDirective_eq (before : Text) (map : LineMap) (d : Directive)
    (hs : s.Reads loader tree root id stack) :
    exec (addDirective options loader nested id dir before map d) s =
      exec (addDirective options loader nested' id dir before map d) s := by
  unfold addDirective
  cases d.kind with
  | imports targets => exact exec_importAll_eq hkeeps himport targets map hs
  | plain => rfl
  | assign name lead value tail flags => rfl
  | sprite function args binding => rfl
  | custom name args => rfl

theorem exec_addDirectives_eq (path : Path) (base : Nat) (before : Text) (map : LineMap)
    (ds : List Directive) (hs : s.Reads loader tree root id stack) :
    exec (addDirectives options loader nested id path dir base before map ds) s =
      exec (addDirectives options loader nested' id path dir base before map ds) s := by
  induction ds generalizing before map s with
  | nil => rfl
  | cons d ds ih =>
    have hsynced : Session.Reads loader tree root id stack
        { s with vars := s.vars.sync base id d.scope } := hs.update (.refl _) rfl rfl
    refine exec_bind_eq rfl fun _ s₁ hsync => ?_
    obtain rfl := returns_modifyVars.1 hsync
    refine exec_bind_eq ?_ fun map' s₂ hadd => ih _ _ ?_
    · rw [exec_locating, exec_locating, exec_addDirective_eq hkeeps himport before map d hsynced]
    · exact @addDirective_congr _ _ (builds_reads options loader tree root id stack) loader loader nested
        nested id dir hkeeps before map d _ _ _ hsynced (returns_locating.1 hadd)

theorem exec_assembleFile_eq (hs : s.Reads loader tree root id stack) :
    exec (assembleFile options loader nested id dir) s =
      exec (assembleFile options loader nested' id dir) s := by
  have hexec := exec_assembleFile options loader nested ⟨id, dir, s⟩
  rw [exec_addDirectives_eq hkeeps himport _ _ _ _ _ hs] at hexec
  exact hexec.trans (exec_assembleFile options loader nested' ⟨id, dir, s⟩).symm

end Nested

/-- The assembly of a file is the same for every depth that is enough for all the files of the
tree that are not on the stack. -/
theorem exec_importerAt_eq {tree : Tree} {root : SourceFile} {stack : ImportStack} {id : FileId}
    (hproper : tree.Proper) (hs : s.Reads loader tree root id stack)
    (hdepth : tree.fileCount + 1 < stack.paths.length + depth)
    (hdepth' : tree.fileCount + 1 < stack.paths.length + depth') (dir : Path) :
    exec (importerAt options loader depth id dir) s =
      exec (importerAt options loader depth' id dir) s := by
  induction depth generalizing depth' id stack s dir with
  | zero =>
    have hle := hs.length_le
    omega
  | succ depth ih =>
    obtain _ | depth' := depth'
    · have hle := hs.length_le
      omega
    rw [importerAt, importerAt, assemble_eq, assemble_eq]
    refine exec_assembleFile_eq (preserves_importTarget hproper
      (importerAt_grows options loader depth) (preserves_importerAt hproper options depth))
      (fun target s hs => exec_importTarget_eq fun stack' path text hopens => ?_) hs
    obtain ⟨hreads, hstack⟩ := hs.enter hproper hopens
    have hlength : stack'.paths.length = stack.paths.length + 1 := by rw [hstack]; simp
    exact ih hreads (by omega) (by omega) _

theorem exec_importTarget_depth {tree : Tree} {root : SourceFile} {stack : ImportStack}
    {id : FileId} {dir : Path} {target : Text} (hproper : tree.Proper) (hs : s.Reads loader tree root id stack)
    (hdepth : tree.fileCount < stack.paths.length + depth)
    (hdepth' : tree.fileCount < stack.paths.length + depth') :
    exec (importTarget options loader (importerAt options loader depth) id dir target) s =
      exec (importTarget options loader (importerAt options loader depth') id dir target) s := by
  refine exec_importTarget_eq fun stack' path text hopens => ?_
  obtain ⟨hreads, hstack⟩ := hs.enter hproper hopens
  have hlength : stack'.paths.length = stack.paths.length + 1 := by rw [hstack]; simp
  exact exec_importerAt_eq hproper hreads (by omega) (by omega) _

/-! ### Errors -/

theorem located_addDirectives {id : FileId} {path dir : Path} {base : Nat} {nested : Importer}
    {e : Error}
    (h : exec (addDirectives options loader nested id path dir base before map ds) s = (.error e, s')) :
    e.location.isSome = true := by
  induction ds generalizing before map s with
  | nil => cases h
  | cons d ds ih =>
    rw [addDirectives, exec_bind] at h
    change exec (locating _ _ >>= _) _ = _ at h
    rw [exec_bind, exec_locating] at h
    revert h
    obtain ⟨e' | map', s₁⟩ := exec (addDirective _ _ _ _ _ _ _ _) _ <;> intro h
    · cases h
      exact e'.isSome_locate _
    · exact ih h

/-- The assembly of a file only fails with errors that have a location. -/
theorem located_assemble {id : FileId} {dir : Path} {e : Error}
    (h : exec (assemble options loader depth id dir) s = (.error e, s')) :
    e.location.isSome = true := by
  rw [assemble_eq, show exec (assembleFile _ _ _ _ _) s = _ from
    exec_assembleFile options loader _ ⟨id, dir, s⟩] at h
  revert h
  cases hadd : exec (addDirectives _ _ _ _ _ _ _ _ _ _) s with
  | mk result s₁ =>
    cases result with
    | error e' =>
      intro h
      cases h
      exact located_addDirectives hadd
    | ok map =>
      dsimp only
      split <;> intro h <;> cases h
      exact Error.isSome_locate _ _

/-- If the assembly that a compilation gets to fails, given depth enough, then the
compilation fails with the same error. -/
theorem Visits.fails {path dir : Path} {text : Text} {w : Workspace} {n : Nat} {e : Error}
    (h : Visits options loader path dir text w n v) (hproper : w.tree.Proper)
    (hdepth : w.tree.fileCount ≤ n + depth)
    (hfails : exec (assemble options loader depth v.file v.dir) v.session = (.error e, s')) :
    ∃ s, exec (assemble options loader w.tree.fileCount 0 dir) (start w path text) =
      (.error e, s) := by
  induction h generalizing depth s' with
  | root =>
    have hequal : exec (importerAt options loader (w.tree.fileCount + 1) 0 dir) (start w path text) =
        exec (importerAt options loader (depth + 1) 0 dir) (start w path text) :=
      exec_importerAt_eq hproper (.initial loader w path text) (by simp)
        (by rw [List.length_singleton]; omega) dir
    exact ⟨s', hequal.trans hfails⟩
  | @enter n v v' hvisits henters ih =>
    obtain ⟨rest, hreads', hrest⟩ := (hvisits.enter henters).reads hproper
    have hlength : (ImportStack.mk (path :: rest)).paths.length = n + 2 := by simp [hrest]
    obtain ⟨depth₀, target, targets, map, s, stack, path', text', hasks, hopens, rfl⟩ := henters
    -- both the way to the import and the import itself are the same with this depth
    have hdepth' : depth₀ ≤ max depth₀ depth + 1 := by omega
    have hequal := @exec_importerAt_eq options loader (max depth₀ depth + 1) (depth + 1) _ _ _ _ _
      hproper hreads' (by omega) (by omega) path'.directory
    have himport : exec (importTarget options loader (importerAt options loader (max depth₀ depth + 1))
        v.file v.dir target) s = (.error e, s') := by
      rw [exec_importTarget_of_opens hopens]
      rw [show exec (importerAt options loader (max depth₀ depth + 1) s.files.length
        path'.directory) _ = _ from hequal.trans hfails]
    obtain ⟨place, hfails'⟩ := (hasks.mono hdepth').fails himport
    rw [Error.locate_of_isSome (located_assemble hfails)] at hfails'
    exact ih (by omega) hfails'

end Assembly

end StylePrep
