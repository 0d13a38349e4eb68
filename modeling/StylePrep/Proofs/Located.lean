import StylePrep.Proofs.Faults
import StylePrep.Proofs.Permitted

/-!
# Where errors are located

An error of a compilation has one location, and it is the place where it was raised: the
path of the innermost file and, of a directive, its first line, or the line that the scan of
the file failed on.

What raises an error is given by `Raises`, on the course of a compilation. None of it raises
an error that has a location already (`adds_unlocated`), so the one that the file attaches is
the first; and one that is attached stays, through all the files that import this one
(`Visits.fails`). The other way round, a failing assembly either raises the error itself or
has it from a file it imports (`blames_of_assemble`), and imports are not nested without
end. So a compilation fails with an error exactly if a file it gets to raises it there
(`Request.run_located`).
-/

namespace StylePrep

open Text Step

variable {α : Type}

/-- The error that the file being assembled raises with a line. -/
def Visit.located (v : Visit) (cause : Cause) (line : Nat) : Error :=
  ⟨cause, some (Compilation.place v.source.path line)⟩

/-! ### Errors without a location -/

/-- A sequence fails if its first part does, or the second one behind it. -/
theorem Step.exec_bind_eq_error_iff {σ β : Type} {x : Step σ α} {f : α → Step σ β} {s s' : σ}
    {e : Error} : exec (x >>= f) s = (.error e, s') ↔
      exec x s = (.error e, s') ∨ ∃ a s₁, Returns x s a s₁ ∧ exec (f a) s₁ = (.error e, s') := by
  unfold Returns
  rw [exec_bind]
  obtain ⟨_ | a, s₁⟩ := exec x s <;> simp

/-- A step raises errors of one kind only. -/
def Step.FailsWith {σ : Type} (P : Error → Prop) (x : Step σ α) : Prop :=
  ∀ s e s', exec x s = (.error e, s') → P e

theorem Step.FailsWith.pure {σ : Type} {P : Error → Prop} (a : α) :
    FailsWith P (Pure.pure a : Step σ α) := by
  intro s e s' h
  cases h

theorem Step.FailsWith.throw {σ : Type} {P : Error → Prop} {e : Error} (he : P e) :
    FailsWith P (MonadExcept.throw e : Step σ α) := by
  intro s e' s' h
  cases h
  exact he

theorem Step.FailsWith.bind {σ β : Type} {P : Error → Prop} {x : Step σ α} {f : α → Step σ β}
    (hx : FailsWith P x) (hf : ∀ a, FailsWith P (f a)) : FailsWith P (x >>= f) := by
  intro s e s' h
  rcases exec_bind_eq_error_iff.1 h with hfirst | ⟨a, s₁, -, hrest⟩
  · exact hx s e s' hfirst
  · exact hf a s₁ e s' hrest

theorem Step.FailsWith.mono {σ : Type} {P Q : Error → Prop} {x : Step σ α} (hx : FailsWith P x)
    (hPQ : ∀ e, P e → Q e) : FailsWith Q x :=
  fun s e s' h => hPQ e (hx s e s' h)

/-- What fails in the images or in packing them says so, and no more. -/
def Error.IsSprite (e : Error) : Prop := ∃ cause, e = .of (.sprite cause)

namespace Expand

variable (config : SpriteConfig)

theorem spriteMap_failsWith (pattern : Text) (spacing : Nat) :
    FailsWith Error.IsSprite (spriteMap config pattern spacing) := by
  intro w e w' h
  rw [exec_spriteMap] at h
  split at h
  · cases h
    exact ⟨_, rfl⟩
  · dsimp only at h
    split at h
    · cases h
      exact ⟨_, rfl⟩
    · revert h
      obtain ⟨_ | sheet, cache, tree⟩ := SheetCache.getOrPack _ _ _ w.tree <;> intro h <;> cases h
      exact ⟨_, rfl⟩

theorem sizeOf_failsWith (name : Text) : FailsWith Error.IsSprite (sizeOf config name) := by
  intro w e w' h
  rw [exec_sizeOf] at h
  unfold sizeIn at h
  split at h
  · split at h <;> cases h
    exact ⟨_, rfl⟩
  · cases h
    exact ⟨_, rfl⟩

theorem contentOf_failsWith (name : Text) : FailsWith Error.IsSprite (contentOf config name) := by
  intro w e w' h
  rw [exec_contentOf] at h
  unfold contentIn at h
  split at h <;> cases h
  exact ⟨_, rfl⟩

end Expand

/-- A step raises errors without a location only. -/
def Step.Unlocated {σ : Type} (x : Step σ α) : Prop :=
  ∀ s e s', exec x s = (.error e, s') → e.location = none

theorem Error.IsSprite.location {e : Error} (h : e.IsSprite) : e.location = none := by
  obtain ⟨cause, rfl⟩ := h
  rfl

theorem Step.congruence_unlocated {σ : Type} : Congruence fun (x _ : Step σ _) => Unlocated x where
  pure := FailsWith.pure
  throw _ _ := FailsWith.throw rfl
  bind := FailsWith.bind

theorem Expand.accesses_unlocated (config : SpriteConfig) :
    Accesses config fun x _ => Unlocated x where
  toCongruence := congruence_unlocated
  map pattern spacing w e w' h := (spriteMap_failsWith config pattern spacing w e w' h).location
  size name w e w' h := (sizeOf_failsWith config name w e w' h).location
  content name w e w' h := (contentOf_failsWith config name w e w' h).location

namespace Assembly

theorem adds_unlocated (options : Options) : Adds options fun x _ => Unlocated x where
  toCongruence := congruence_unlocated
  modifyVars _ _ _ _ h := by cases h
  sprite function args line indent s e s' h := by
    unfold expandSprite at h
    rw [exec_bind, exec_get] at h
    dsimp only at h
    rw [exec_task] at h
    obtain ⟨herror, -⟩ := Prod.mk.inj h
    exact @Expand.expand_congr _ _ line line (Expand.accesses_unlocated options.sprites) _ _
      (fun _ => rfl) function.name args indent s.workspace e _ (Prod.ext herror rfl)

variable {options : Options} {loader : Loader} {nested : Importer} {id : FileId} {dir : Path}
variable {depth n : Nat} {v v' : Visit} {before : Text} {map : LineMap} {d : Directive}
variable {ds : List Directive} {target : Text} {targets : List Text} {s s' : Session} {e : Error}
variable {cause : Cause} {line : Nat}

/-- A directive that is no import raises errors without a location. -/
theorem exists_cause_of_addDirective (hkind : ∀ targets, d.kind ≠ .imports targets)
    (h : exec (addDirective options loader nested id dir before map d) s = (.error e, s')) :
    ∃ cause, e = .of cause :=
  ⟨e.cause, congrArg (Error.mk e.cause) (@addDirective_congr_of_imports _ _ (adds_unlocated options)
    loader loader nested nested id dir before map d (fun targets h => absurd h (hkind targets))
    s e s' h)⟩

/-! ### Imports that fail -/

/-- Why an import opens no file: its target is not found, the file is being read, or it cannot
be loaded. -/
inductive Refuses (options : Options) (loader : Loader) (dir : Path) (target : Text) (s : Session) :
    Cause → Prop
  | unresolved {error : ImportError} :
      Import.resolve s.workspace.tree target dir options.includePaths = .error error →
      Refuses options loader dir target s (.imports error)
  | cyclic {p : Path} {error : ImportError} :
      Import.resolve s.workspace.tree target dir options.includePaths = .ok p →
      s.stack.push p = .error error → Refuses options loader dir target s (.imports error)
  | unloaded {p : Path} {stack : ImportStack} {error : FileError} :
      Import.resolve s.workspace.tree target dir options.includePaths = .ok p →
      s.stack.push p = .ok stack → loader.load s.workspace.tree p = .error error →
      Refuses options loader dir target s (.file error)

theorem Refuses.exec_importTarget (h : Refuses options loader dir target s cause)
    (nested : Importer) (id : FileId) : ∃ s', exec (importTarget options loader nested id dir target) s =
      (.error (.of cause), s') := by
  have hexec := Assembly.exec_importTarget options loader nested id dir target s
  cases h with
  | unresolved hresolve =>
    simp only [hresolve] at hexec
    exact ⟨_, hexec⟩
  | cyclic hresolve hpush =>
    simp only [hresolve, hpush] at hexec
    exact ⟨_, hexec⟩
  | unloaded hresolve hpush hload =>
    simp only [hresolve, hpush, hload] at hexec
    exact ⟨_, hexec⟩

/-- An import that fails is refused, or the assembly of its file fails. -/
theorem exec_importTarget_eq_error
    (h : exec (importTarget options loader nested id dir target) s = (.error e, s')) :
    (∃ cause, Refuses options loader dir target s cause ∧ e = .of cause) ∨
      ∃ stack path text, Opens options loader dir target s stack path text ∧
        exec (nested s.files.length path.directory)
          { s with stack, files := s.files ++ [⟨path, text, some id⟩] } = (.error e, s') := by
  rw [exec_importTarget] at h
  cases hresolve : Import.resolve s.workspace.tree target dir options.includePaths with
  | error error =>
    rw [hresolve] at h
    cases h
    exact .inl ⟨_, .unresolved hresolve, rfl⟩
  | ok p =>
    rw [hresolve] at h
    dsimp only at h
    cases hpush : s.stack.push p with
    | error error =>
      rw [hpush] at h
      cases h
      exact .inl ⟨_, .cyclic hresolve hpush, rfl⟩
    | ok stack =>
      rw [hpush] at h
      dsimp only at h
      cases hload : loader.load s.workspace.tree p with
      | error error =>
        rw [hload] at h
        cases h
        exact .inl ⟨_, .unloaded hresolve hpush hload, rfl⟩
      | ok r =>
        rw [hload] at h
        refine .inr ⟨stack, r.1, r.2, ⟨p, hresolve, hpush, hload⟩, ?_⟩
        revert h
        dsimp only
        obtain ⟨_ | map, s₁⟩ := exec (nested _ _) _ <;> intro h <;> cases h
        rfl

/-- Behind targets that are imported, the import goes on with the others. -/
theorem exec_importAll_append {done : List Text} {map' : LineMap}
    (h : Returns (importAll options loader nested id dir done map) s map' s') :
    exec (importAll options loader nested id dir (done ++ targets) map) s =
      exec (importAll options loader nested id dir targets map') s' := by
  induction done generalizing map s with
  | nil =>
    obtain ⟨rfl, rfl⟩ := returns_pure.1 h
    rfl
  | cons first done ih =>
    obtain ⟨child, s₁, hfirst, hdone⟩ := returns_bind.1 h
    rw [List.cons_append, importAll, exec_bind, show exec (importTarget _ _ _ _ _ _) s = _ from hfirst]
    exact ih hdone

/-- An import fails with the first of its targets that does. -/
theorem exec_importAll_eq_error
    (h : exec (importAll options loader nested id dir targets map) s = (.error e, s')) :
    ∃ done target rest map' s₁, targets = done ++ target :: rest ∧
      Returns (importAll options loader nested id dir done map) s map' s₁ ∧
      exec (importTarget options loader nested id dir target) s₁ = (.error e, s') := by
  induction targets generalizing map s with
  | nil => cases h
  | cons first targets ih =>
    rw [importAll, exec_bind] at h
    cases hfirst : exec (importTarget options loader nested id dir first) s with
    | mk result s₁ =>
      rw [hfirst] at h
      cases result with
      | error e' =>
        cases h
        exact ⟨[], first, targets, map, s, rfl, rfl, hfirst⟩
      | ok child =>
        obtain ⟨done, target, rest, map', s₂, rfl, hdone, htarget⟩ := ih h
        exact ⟨first :: done, target, rest, map', s₂, rfl,
          returns_bind.2 ⟨child, s₁, hfirst, hdone⟩, htarget⟩

theorem Asks.importAll {done : List Text} {map' : LineMap}
    (h : Asks options loader depth v (done ++ targets) map s)
    (hdone : Returns (importAll options loader (importerAt options loader depth) v.file v.dir done map)
      s map' s') : Asks options loader depth v targets map' s' := by
  induction done generalizing map s with
  | nil =>
    obtain ⟨rfl, rfl⟩ := returns_pure.1 hdone
    exact h
  | cons first done ih =>
    obtain ⟨child, s₁, hfirst, hdone⟩ := returns_bind.1 hdone
    exact ih (h.next hfirst) hdone

/-! ### What raises an error -/

section Raises

variable (options : Options) (loader : Loader)

/-- The file being assembled raises an error itself, with this line: at the end of its
directives, if the scan failed there, or at a directive. The line of a directive is its first
one, and an import raises what refuses one of its targets. -/
inductive Raises (v : Visit) : Cause → Nat → Prop
  | scan {depth : Nat} {before : Text} {map : LineMap} {s : Session} {error : ScanError} :
      Comes options loader depth v before map [] s →
      (scan options.functions v.source.text).error? = some error → Raises v (.scan error) error.line
  | directive {depth : Nat} {before : Text} {map : LineMap} {d : Directive} {ds : List Directive}
      {s s' : Session} {cause : Cause} :
      Comes options loader depth v before map (d :: ds) s → (∀ targets, d.kind ≠ .imports targets) →
      exec (addDirective options loader (importerAt options loader depth) v.file v.dir before map d)
        (v.synced d s) = (.error (.of cause), s') → Raises v cause d.line
  | target {depth : Nat} {before : Text} {map map' : LineMap} {d : Directive} {ds : List Directive}
      {s s' : Session} {done rest : List Text} {target : Text} {cause : Cause} :
      Comes options loader depth v before map (d :: ds) s →
      d.kind = .imports (done ++ target :: rest) →
      Returns (importAll options loader (importerAt options loader depth) v.file v.dir done map)
        (v.synced d s) map' s' →
      Refuses options loader v.dir target s' cause → Raises v cause d.line

end Raises

/-- The directives behind those that an assembly has added. -/
theorem Comes.exists_append (h : Comes options loader depth v before map ds s) :
    ∃ done, (scan options.functions v.source.text).directives = done ++ ds ∧
      before = Directive.texts done := by
  induction h with
  | start => exact ⟨[], rfl, rfl⟩
  | @next before map map' d ds s s' _ _ ih =>
    obtain ⟨done, hds, rfl⟩ := ih
    exact ⟨done ++ [d], by simp [hds], by simp⟩

/-- An assembly comes to a directive where it stands in the text, and its line is the first
one that it is on. -/
theorem Comes.stands (h : Comes options loader depth v before map (d :: ds) s) :
    before ++ d.raw <+: v.source.text ∧ d.line = 1 + before.newlines := by
  obtain ⟨done, hds, rfl⟩ := h.exists_append
  refine ⟨List.IsPrefix.trans ?_ (Scan.scan_cover options.functions v.source.text).2.2,
    Scan.line_of_scan hds⟩
  rw [hds]
  exact ⟨Directive.texts ds, by simp⟩

/-- A directive that is not plain text is not empty. -/
theorem Comes.raw_ne_nil (h : Comes options loader depth v before map (d :: ds) s)
    (hkind : d.kind ≠ .plain) : d.raw ≠ [] := by
  obtain ⟨done, hds, -⟩ := h.exists_append
  have hmem : d ∈ (scan options.functions v.source.text).directives := by simp [hds]
  obtain ⟨c, found, rest, indent, -, -, hraw⟩ :=
    (Scan.form_of_mem_scanFrom hmem).resolve_left hkind
  simp [hraw]

/-- The line that an error is raised with is one of the file. -/
theorem Raises.onLine (h : Raises options loader v cause line) : v.source.text.OnLine 1 line := by
  have hdirective {depth before map d ds s} (hcomes : Comes options loader depth v before map (d :: ds) s)
      (hkind : d.kind ≠ .plain) : v.source.text.OnLine 1 d.line := by
    obtain ⟨⟨rest, hrest⟩, hline⟩ := hcomes.stands
    exact ⟨before, d.raw ++ rest, by simp [← hrest], by simp [hcomes.raw_ne_nil hkind], hline⟩
  cases h with
  | scan _ herror => exact Scan.onLine_of_scan herror
  | directive hcomes hkind hfails =>
    refine hdirective hcomes fun hplain => ?_
    rw [addDirective, hplain] at hfails
    cases hfails
  | target hcomes hkind => exact hdirective hcomes (by simp [hkind])

/-! ### Failing assemblies -/

/-- A directive that fails ends the assembly of its file. -/
theorem Comes.fails (h : Comes options loader depth v before map (d :: ds) s)
    (hfails : exec (addDirective options loader (importerAt options loader depth) v.file v.dir before
      map d) (v.synced d s) = (.error e, s')) :
    exec (assemble options loader depth v.file v.dir) v.session =
      (.error (e.locate (Compilation.place v.source.path d.line)), s') := by
  have hadd : exec (addDirectives options loader (importerAt options loader depth) v.file
      v.source.path v.dir v.session.vars.innermost before map (d :: ds)) s =
        (.error (e.locate (Compilation.place v.source.path d.line)), s') := by
    rw [addDirectives, exec_bind]
    change exec (locating _ _ >>= _) (v.synced d s) = _
    rw [exec_bind, exec_locating, hfails]
  rw [assemble_eq, exec_assembleFile, h.exec_eq, hadd]

/-- What is imported makes no difference to a directive that is no import. -/
theorem addDirective_eq (hkind : ∀ targets, d.kind ≠ .imports targets) (nested nested' : Importer) :
    addDirective options loader nested id dir before map d =
      addDirective options loader nested' id dir before map d := by
  unfold addDirective
  cases h : d.kind with
  | imports targets => exact absurd h (hkind targets)
  | plain => rfl
  | assign name lead value tail flags => rfl
  | sprite function args binding => rfl
  | custom name args => rfl

/-- If a file raises an error, its assembly fails with it, for depths as large as one likes. -/
theorem Raises.exec_assemble (h : Raises options loader v cause line) (least : Nat) :
    ∃ depth s', least ≤ depth ∧ exec (assemble options loader depth v.file v.dir) v.session =
      (.error (v.located cause line), s') := by
  cases h with
  | @scan depth before map s error hcomes herror =>
    have hcomes' := hcomes.mono (Nat.le_max_left depth least)
    refine ⟨max depth least, s, Nat.le_max_right depth least, ?_⟩
    rw [assemble_eq, exec_assembleFile, hcomes'.exec_eq, herror]
    rfl
  | @directive depth before map d ds s s' _ hcomes hkind hfails =>
    have hcomes' := hcomes.mono (Nat.le_max_left depth least)
    rw [addDirective_eq hkind _ (importerAt options loader (max depth least))] at hfails
    exact ⟨max depth least, s', Nat.le_max_right depth least, hcomes'.fails hfails⟩
  | @target depth before map map' d ds s s' done rest target _ hcomes hkind hdone hrefuses =>
    have hle := Nat.le_max_left depth least
    obtain ⟨s₁, hfails⟩ := hrefuses.exec_importTarget
      (importerAt options loader (max depth least)) v.file
    have hdone' := importAll_congr (builds_covers options)
      (importTarget_covers (importerAt_covers hle) v.file v.dir) done map _ _ _ hdone
    refine ⟨max depth least, s₁, Nat.le_max_right depth least,
      (hcomes.mono hle).fails (e := .of cause) ?_⟩
    rw [addDirective, hkind]
    change exec (importAll _ _ _ _ _ _ _) _ = _
    rw [exec_importAll_append hdone', importAll, exec_bind, hfails]

/-- Who is to blame for an error of an assembly: its file raises it, or the assembly of a file
that it imports fails with it. -/
inductive Blames (options : Options) (loader : Loader) (depth : Nat) (v : Visit) : Error → Prop
  | own {cause : Cause} {line : Nat} :
      Raises options loader v cause line → Blames options loader depth v (v.located cause line)
  | imported {v' : Visit} {s' : Session} {e : Error} {place : Text} :
      Enters options loader v v' →
      exec (importerAt options loader depth v'.file v'.dir) v'.session = (.error e, s') →
      Blames options loader depth v (e.locate place)

theorem Comes.blames (hcomes : Comes options loader depth v before map (d :: ds) s)
    (h : exec (addDirective options loader (importerAt options loader depth) v.file v.dir before map d)
      (v.synced d s) = (.error e, s')) :
    Blames options loader depth v (e.locate (Compilation.place v.source.path d.line)) := by
  by_cases hkind : ∀ targets, d.kind ≠ .imports targets
  · obtain ⟨cause, rfl⟩ := exists_cause_of_addDirective hkind h
    exact .own (.directive hcomes hkind h)
  · obtain ⟨targets, hkind⟩ : ∃ targets, d.kind = .imports targets := by simpa using hkind
    rw [addDirective, hkind] at h
    obtain ⟨done, target, rest, map', s₁, rfl, hdone, htarget⟩ := exec_importAll_eq_error h
    rcases exec_importTarget_eq_error htarget with ⟨cause, hrefuses, rfl⟩ |
      ⟨stack, path, text, hopens, hnested⟩
    · exact .own (.target hcomes hkind hdone hrefuses)
    · have hasks := (Asks.first hcomes hkind).importAll hdone
      exact .imported ⟨depth, target, rest, map', s₁, stack, path, text, hasks, hopens, rfl⟩ hnested

theorem Comes.blames_of_addDirectives (hcomes : Comes options loader depth v before map ds s)
    (h : exec (addDirectives options loader (importerAt options loader depth) v.file v.source.path
      v.dir v.session.vars.innermost before map ds) s = (.error e, s')) :
    Blames options loader depth v e := by
  induction ds generalizing before map s with
  | nil => cases h
  | cons d ds ih =>
    rw [addDirectives, exec_bind] at h
    change exec (locating _ _ >>= _) (v.synced d s) = _ at h
    rw [exec_bind, exec_locating] at h
    cases hadd : exec (addDirective options loader (importerAt options loader depth) v.file v.dir
        before map d) (v.synced d s) with
    | mk result s₁ =>
      rw [hadd] at h
      cases result with
      | error e' =>
        cases h
        exact hcomes.blames hadd
      | ok map' => exact ih (hcomes.next hadd) h

theorem Comes.exists_end {map' : LineMap} (hcomes : Comes options loader depth v before map ds s)
    (h : Returns (addDirectives options loader (importerAt options loader depth) v.file v.source.path
      v.dir v.session.vars.innermost before map ds) s map' s') :
    ∃ before', Comes options loader depth v before' map' [] s' := by
  induction ds generalizing before map s with
  | nil =>
    obtain ⟨rfl, rfl⟩ := returns_pure.1 h
    exact ⟨before, hcomes⟩
  | cons d ds ih =>
    obtain ⟨map₁, s₁, hadd, hrest⟩ := returns_addDirectives_cons.1 h
    exact ih (hcomes.next hadd) hrest

/-- Someone is to blame for every error. -/
theorem blames_of_assemble
    (h : exec (assemble options loader depth v.file v.dir) v.session = (.error e, s')) :
    Blames options loader depth v e := by
  rw [assemble_eq, exec_assembleFile] at h
  cases hadd : exec (addDirectives options loader (importerAt options loader depth) v.file
      v.source.path v.dir v.session.vars.innermost [] .empty
      (scan options.functions v.source.text).directives) v.session with
  | mk result s₁ =>
    rw [hadd] at h
    cases result with
    | error e' =>
      cases h
      exact Comes.start.blames_of_addDirectives hadd
    | ok map =>
      cases herror : (scan options.functions v.source.text).error? with
      | none => simp [herror] at h
      | some error =>
        simp only [herror] at h
        cases h
        obtain ⟨before, hend⟩ := Comes.start.exists_end hadd
        exact .own (.scan hend herror)

/-- What a compilation fails with is raised by a file that it gets to. -/
theorem Visits.exists_raises {path dir : Path} {text : Text} {w : Workspace}
    (h : Visits options loader path dir text w n v) (hproper : w.tree.Proper)
    (hdepth : w.tree.fileCount ≤ n + depth)
    (hfails : exec (assemble options loader depth v.file v.dir) v.session = (.error e, s')) :
    ∃ n' v' cause line, Visits options loader path dir text w n' v' ∧
      Raises options loader v' cause line ∧ e = v'.located cause line := by
  induction depth generalizing n v e s' with
  | zero =>
    cases blames_of_assemble hfails with
    | own hraises => exact ⟨n, v, _, _, h, hraises, rfl⟩
    | imported henters =>
      have hle := (h.enter henters).le_fileCount hproper
      omega
  | succ depth ih =>
    cases blames_of_assemble hfails with
    | own hraises => exact ⟨n, v, _, _, h, hraises, rfl⟩
    | imported henters hnested =>
      rw [Error.locate_of_isSome (located_assemble hnested)]
      exact ih (h.enter henters) (by omega) hnested

theorem exec_assembleRoot_eq_error {path dir : Path} {text : Text} {w : Workspace} :
    (exec (assembleRoot options loader path text dir) w).1 = .error e ↔
      ∃ s, exec (assemble options loader w.tree.fileCount 0 dir) (start w path text) =
        (.error e, s) := by
  rw [exec_assembleRoot, exec_inRoot]
  obtain ⟨_ | map, s⟩ := exec (assemble options loader w.tree.fileCount 0 dir) (start w path text) <;>
    simp

/-- The file being assembled is one of those read. -/
theorem Visits.getElem?_file {path dir : Path} {text : Text} {w : Workspace}
    (h : Visits options loader path dir text w n v) (hproper : w.tree.Proper) :
    v.session.files[v.file]? = some v.source := by
  obtain ⟨rest, hreads, -⟩ := h.reads hproper
  obtain ⟨file, hfile, -⟩ := hreads.chain.exists_file
  rw [Visit.source, hfile, Option.getD_some]

end Assembly

namespace Preprocess.Request

/-- If a compilation fails whose root can be read, then with an error that is located at the
place where it was raised: in the innermost file, on the first line of the directive or on the
line that the scan failed on. The files that import this one leave it as it is. -/
theorem run_located (options : Options) (request : Request) {w : Workspace}
    (hproper : w.tree.Proper) {root : SourceFile} {dir : Path}
    (hroot : request.root options w.tree = .ok (root, dir)) :
    -- the errors of the compilation are those that its files raise
    (∀ e, (exec (request.run options) w).1 = .error e ↔
      ∃ n v cause line, request.Visits options w n v ∧
        Assembly.Raises options (request.loader options w.tree) v cause line ∧
        e = ⟨cause, some (Compilation.place v.source.path line)⟩) ∧
    -- the line is one of the file
    (∀ n v cause line, request.Visits options w n v →
      Assembly.Raises options (request.loader options w.tree) v cause line →
      v.session.files[v.file]? = some v.source ∧ 1 ≤ line ∧ line ≤ v.source.text.physicalLines) ∧
    -- the line of a directive is its first
    (∀ depth v before map d ds s,
      Assembly.Comes options (request.loader options w.tree) depth v before map (d :: ds) s →
      before ++ d.raw <+: v.source.text ∧ d.line = 1 + before.newlines) ∧
    -- an error goes through all files that import the one that raised it
    ∀ n v depth e s', request.Visits options w n v → w.tree.fileCount ≤ n + depth →
      exec (Assembly.assemble options (request.loader options w.tree) depth v.file v.dir) v.session =
        (.error e, s') → (exec (request.run options) w).1 = .error e := by
  have hrun (e : Error) : (exec (request.run options) w).1 = .error e ↔
      ∃ s, exec (Assembly.assemble options (request.loader options w.tree) w.tree.fileCount 0 dir)
        (Assembly.start w root.path root.text) = (.error e, s) := by
    rw [exec_run, hroot]
    exact Assembly.exec_assembleRoot_eq_error
  have hvisits {n : Nat} {v : Visit} (h : request.Visits options w n v) :
      Assembly.Visits options (request.loader options w.tree) root.path dir root.text w n v := by
    obtain ⟨root', dir', hroot', hvisits⟩ := h
    obtain ⟨rfl, rfl⟩ := Prod.mk.inj (Except.ok.inj (hroot'.symm.trans hroot))
    exact hvisits
  refine ⟨fun e => ⟨fun h => ?_, ?_⟩, fun n v cause line hv hraises => ?_,
    fun depth v before map d ds s hcomes => hcomes.stands, fun n v depth e s' hv hdepth hfails => ?_⟩
  · obtain ⟨s, hfails⟩ := (hrun e).1 h
    obtain ⟨n, v, cause, line, hv, hraises, he⟩ :=
      Assembly.Visits.root.exists_raises hproper (by omega) hfails
    exact ⟨n, v, cause, line, ⟨root, dir, hroot, hv⟩, hraises, he⟩
  · rintro ⟨n, v, cause, line, hv, hraises, rfl⟩
    obtain ⟨depth, s', hdepth, hfails⟩ := hraises.exec_assemble w.tree.fileCount
    exact (hrun _).2 ((hvisits hv).fails hproper (by omega) hfails)
  · exact ⟨(hvisits hv).getElem?_file hproper, hraises.onLine.bounds⟩
  · exact (hrun e).2 ((hvisits hv).fails hproper hdepth hfails)

/-- A file that the root imports, with a comment that is not closed from its second line on. -/
theorem run_located_import :
    ∃ n v cause line, Request.Visits Sample.options (.source "-".toList "@import \"b\";\n".toList)
        (Sample.workspace [("b.scss", "c\n/* d\n")]) n v ∧
      Assembly.Raises Sample.options (loader Sample.options
        (Sample.workspace [("b.scss", "c\n/* d\n")]).tree
        (.source "-".toList "@import \"b\";\n".toList)) v cause line ∧
      (⟨.scan ⟨2, .unterminatedComment⟩, some "/b.scss:2".toList⟩ : Error) =
        ⟨cause, some (Compilation.place v.source.path line)⟩ := by
  refine ((run_located Sample.options (.source "-".toList "@import \"b\";\n".toList)
    (w := Sample.workspace [("b.scss", "c\n/* d\n")]) (by decide +kernel) rfl).1 _).1 ?_
  decide +kernel

end Preprocess.Request

end StylePrep
