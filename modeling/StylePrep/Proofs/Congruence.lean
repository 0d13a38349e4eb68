import StylePrep.Proofs.Agreement

/-!
# Judgements that go through a compilation

Much of what is said about compilations holds of a sequence of steps as soon as it holds
of its parts: that two of them agree, that a property of the state is kept, that one run
follows another. Such a judgement on pairs of steps is a `Congruence`.

A compilation has few steps that read or change anything outside of it. A congruence that
holds of those holds of the expansion of every call (`Expand.expand_congr`), and one that
also holds of importing a target holds of the assembly of a file
(`Assembly.assembleFile_congr`). Both walks are made here, once for all judgements.
-/

namespace StylePrep

variable {α : Type}

/-- A judgement on pairs of steps that a sequence has from its parts. What the cause of an
error is does not count. -/
structure Step.Congruence {σ : Type} (J : ∀ {α : Type}, Step σ α → Step σ α → Prop) : Prop where
  pure : ∀ {α : Type} (a : α), J (Pure.pure a) (Pure.pure a)
  throw : ∀ {α : Type} (c c' : Cause),
    J (MonadExcept.throw (Error.of c) : Step σ α) (MonadExcept.throw (Error.of c'))
  bind : ∀ {α β : Type} {x y : Step σ α} {f g : α → Step σ β},
    J x y → (∀ a, J (f a) (g a)) → J (x >>= f) (y >>= g)

/-- All that a step does to the state is related by `L`. -/
def Step.Advances {σ : Type} (L : σ → σ → Prop) (x : Step σ α) : Prop := ∀ s, L s (exec x s).2

theorem Step.Advances.bind {σ β : Type} {L : σ → σ → Prop}
    (trans : ∀ s s' s'', L s s' → L s' s'' → L s s'') {x : Step σ α} {f : α → Step σ β}
    (hx : Advances L x) (hf : ∀ a, Advances L (f a)) : Advances L (x >>= f) := by
  intro s
  have hfirst := hx s
  rw [exec_bind]
  revert hfirst
  obtain ⟨_ | a, s'⟩ := exec x s <;> intro hfirst
  · exact hfirst
  · exact trans _ _ _ hfirst (hf a s')

theorem Step.congruence_advances {σ : Type} {L : σ → σ → Prop} (refl : ∀ s, L s s)
    (trans : ∀ s s' s'', L s s' → L s' s'' → L s s'') : Congruence fun x _ => Advances L x where
  pure _ s := refl s
  throw _ _ s := refl s
  bind := Advances.bind trans

/-! ### Calls -/

namespace Expand

open Text Step

def sizeOf (config : SpriteConfig) (name : Text) : Task Size := do
  let path := config.imageDir.join ⟨name⟩
  let tree ← Task.tree
  if tree.isFile path then
    match Image.size? tree path with
    | some size => pure size
    | none => Task.fail (.sprite (.packFailure name .undecodable))
  else Task.fail (.sprite (.missingImage name))

def contentOf (config : SpriteConfig) (name : Text) : Task Bytes := do
  match (← Task.tree).read (config.imageDir.join ⟨name⟩) with
  | .error _ => Task.fail (.sprite (.missingImage name))
  | .ok bytes => pure bytes

/-- The same for a given tree. -/
def sizeIn (config : SpriteConfig) (name : Text) (tree : Tree) : Except Error Size :=
  if tree.isFile (config.imageDir.join ⟨name⟩) then
    match Image.size? tree (config.imageDir.join ⟨name⟩) with
    | some size => .ok size
    | none => .error (.of (.sprite (.packFailure name .undecodable)))
  else .error (.of (.sprite (.missingImage name)))

/-- The same for a given tree. -/
def contentIn (config : SpriteConfig) (name : Text) (tree : Tree) : Except Error Bytes :=
  match tree.read (config.imageDir.join ⟨name⟩) with
  | .error _ => .error (.of (.sprite (.missingImage name)))
  | .ok bytes => .ok bytes

theorem exec_sizeOf (config : SpriteConfig) (name : Text) (w : Workspace) :
    exec (sizeOf config name) w = (sizeIn config name w.tree, w) := by
  unfold sizeOf sizeIn
  change exec (if w.tree.isFile _ then _ else _) w = _
  split
  · cases Image.size? w.tree (config.imageDir.join ⟨name⟩) <;> rfl
  · rfl

theorem exec_contentOf (config : SpriteConfig) (name : Text) (w : Workspace) :
    exec (contentOf config name) w = (contentIn config name w.tree, w) := by
  unfold contentIn
  change exec (match w.tree.read _ with | .error _ => _ | .ok _ => _) w = _
  cases w.tree.read (config.imageDir.join ⟨name⟩) <;> rfl

/-- A judgement that holds of everything an expansion looks up in the workspace. -/
structure Inspects (config : SpriteConfig) (J : ∀ {α : Type}, Task α → Task α → Prop) : Prop
    extends Congruence J where
  size : ∀ name, J (sizeOf config name) (sizeOf config name)
  content : ∀ name, J (contentOf config name) (contentOf config name)

/-- A judgement that holds of everything an expansion does to the workspace. -/
structure Accesses (config : SpriteConfig) (J : ∀ {α : Type}, Task α → Task α → Prop) : Prop
    extends Congruence J where
  map : ∀ pattern spacing, J (spriteMap config pattern spacing) (spriteMap config pattern spacing)
  size : ∀ name, J (sizeOf config name) (sizeOf config name)
  content : ∀ name, J (contentOf config name) (contentOf config name)

/-- A judgement that holds of everything the expansion of a call does besides packing, where `call`
stands on the left and `call'` on the right. What it complains about does not count. -/
structure Handles (config : SpriteConfig) (call call' : Invocation)
    (J : ∀ {α : Type}, Task α → Task α → Prop) : Prop where
  pure : ∀ {α : Type} (a : α), J (Pure.pure a) (Pure.pure a)
  bind : ∀ {α β : Type} {x y : Task α} {f g : α → Task β},
    J x y → (∀ a, J (f a) (g a)) → J (x >>= f) (y >>= g)
  fail : ∀ {α : Type} (fault fault' : ArgumentFault),
    J (call.fail fault : Task α) (call'.fail fault')
  missing : ∀ {α : Type} (name : Text), J (Task.fail (.sprite (.missingImage name)) : Task α)
    (Task.fail (.sprite (.missingImage name)))
  size : ∀ name, J (sizeOf config name) (sizeOf config name)
  content : ∀ name, J (contentOf config name) (contentOf config name)

variable {J : ∀ {α : Type}, Task α → Task α → Prop} {config : SpriteConfig} {line line' : Nat}

theorem Accesses.inspects (hJ : Accesses config J) : Inspects config J :=
  ⟨hJ.toCongruence, hJ.size, hJ.content⟩

theorem Inspects.handles (hJ : Inspects config J) (call call' : Invocation) :
    Handles config call call' J where
  pure := hJ.pure
  bind := hJ.bind
  fail _ _ := hJ.throw _ _
  missing _ := hJ.throw _ _
  size := hJ.size
  content := hJ.content

section Calls

variable {resolve resolve' : Text → Task Argument} {call call' : Invocation}
variable (hJ : Handles config call call' J)
include hJ

theorem argument_congr (hcalls : call'.args = call.args)
    (hresolve : ∀ raw ∈ call.args, J (resolve raw) (resolve' raw)) (i : Nat) :
    J (argument resolve call i) (argument resolve' call' i) := by
  unfold argument
  rw [hcalls]
  cases hraw : call.args[i]? with
  | none => exact hJ.fail _ _
  | some raw => exact hresolve raw (List.mem_of_getElem? hraw)

theorem shift_congr (offset : Int) (edge : Nat) :
    J (shift call offset edge) (shift call' offset edge) := by
  unfold shift
  split
  · exact hJ.pure _
  · exact hJ.fail _ _

section Positions

variable (hargs : ∀ i, J (argument resolve call i) (argument resolve' call' i))
include hargs

theorem textArg_congr (i : Nat) :
    J (textArg config resolve call i) (textArg config resolve' call' i) := by
  refine hJ.bind (hargs i) fun a => ?_
  cases a <;> exact hJ.pure _

theorem sheetArg_congr (i : Nat) : J (sheetArg resolve call i) (sheetArg resolve' call' i) := by
  refine hJ.bind (hargs i) fun a => ?_
  cases a with
  | text t => exact hJ.fail _ _
  | sheet sheet => exact hJ.pure _

theorem frameArg_congr (sheet : Sheet) (i : Nat) :
    J (frameArg config resolve call sheet i) (frameArg config resolve' call' sheet i) := by
  refine hJ.bind (textArg_congr hJ hargs i) fun t => ?_
  cases sheet.frame? t with
  | none => exact hJ.missing _
  | some frame => exact hJ.pure _

theorem sheetAndFrame_congr :
    J (sheetAndFrame config resolve call) (sheetAndFrame config resolve' call') :=
  hJ.bind (sheetArg_congr hJ hargs 0) fun sheet =>
    hJ.bind (frameArg_congr hJ hargs sheet 1) fun _ => hJ.pure _

theorem imageSize_congr : J (imageSize config resolve call) (imageSize config resolve' call') :=
  hJ.bind (textArg_congr hJ hargs 0) hJ.size

end Positions

variable (hlength : call'.args.length = call.args.length)
include hlength

theorem checkArity_congr (least most : Nat) :
    J (call.checkArity least most) (call'.checkArity least most) := by
  unfold Invocation.checkArity
  rw [hlength]
  split
  · exact hJ.pure _
  · exact hJ.fail _ _

variable (hargs : ∀ i, J (argument resolve call i) (argument resolve' call' i))
include hargs

theorem offsetArg_congr (i : Nat) :
    J (offsetArg config resolve call i) (offsetArg config resolve' call' i) := by
  unfold offsetArg
  rw [hlength]
  split
  · refine hJ.bind (textArg_congr hJ hargs i) fun t => ?_
    cases parsePx t with
    | none => exact hJ.fail _ _
    | some offset => exact hJ.pure _
  · exact hJ.pure _

theorem position_congr (frame : Frame) :
    J (position config resolve call frame) (position config resolve' call' frame) :=
  hJ.bind (offsetArg_congr hJ hlength hargs 2) fun dx =>
    hJ.bind (offsetArg_congr hJ hlength hargs 3) fun dy =>
      hJ.bind (shift_congr hJ dx _) fun _ => hJ.bind (shift_congr hJ dy _) fun _ => hJ.pure _

theorem spacingArg_congr :
    J (spacingArg config resolve call) (spacingArg config resolve' call') := by
  unfold spacingArg
  rw [hlength]
  split
  · refine hJ.bind (textArg_congr hJ hargs 1) fun t => ?_
    cases parsePx t with
    | none => exact hJ.fail _ _
    | some n =>
      simp only
      split
      · exact hJ.pure _
      · exact hJ.fail _ _
  · exact hJ.pure _

omit hJ hlength hargs in
/-- Reading an image and going on with its contents. -/
theorem contentOf_bind (name : Text) (f : Bytes → Task α) :
    (do match (← Task.tree).read (config.imageDir.join ⟨name⟩) with
      | .error _ => Task.fail (.sprite (.missingImage name))
      | .ok bytes => f bytes) = contentOf config name >>= f := by
  rw [contentOf, bind_assoc]
  refine bind_congr fun tree => ?_
  cases tree.read (config.imageDir.join ⟨name⟩) with
  | error e => rfl
  | ok bytes => exact (pure_bind bytes f).symm

/-- A judgement goes through the expansion of a call if it holds of each argument. Packing matters
to sprite maps only. -/
theorem expandFunction_congr (indent : Text) (function : SpriteFunction)
    (hmap : function = .spriteMap → ∀ pattern spacing,
      J (spriteMap config pattern spacing) (spriteMap config pattern spacing)) :
    J (expandFunction config resolve call indent function)
      (expandFunction config resolve' call' indent function) := by
  have hplain {x y : Task Text} (h : J x y) : J (plain x) (plain y) :=
    hJ.bind h fun _ => hJ.pure _
  have harity (least most : Nat) : J (call.checkArity least most) (call'.checkArity least most) :=
    checkArity_congr hJ hlength least most
  have htext (i : Nat) : J (textArg config resolve call i) (textArg config resolve' call' i) :=
    textArg_congr hJ hargs i
  have hframe : J (sheetAndFrame config resolve call) (sheetAndFrame config resolve' call') :=
    sheetAndFrame_congr hJ hargs
  have hsize : J (imageSize config resolve call) (imageSize config resolve' call') :=
    imageSize_congr hJ hargs
  cases function with
  | spriteMap =>
    exact hJ.bind (harity 1 2) fun _ => hJ.bind (htext 0) fun pattern =>
      hJ.bind (spacingArg_congr hJ hlength hargs) fun spacing =>
        hJ.bind (hmap rfl pattern spacing) fun _ => hJ.pure _
  | sprite =>
    exact hplain (hJ.bind (harity 2 4) fun _ => hJ.bind hframe fun (_, frame) =>
      hJ.bind (position_congr hJ hlength hargs frame) fun _ => hJ.pure _)
  | spriteUrl =>
    exact hplain (hJ.bind (harity 1 1) fun _ =>
      hJ.bind (sheetArg_congr hJ hargs 0) fun _ => hJ.pure _)
  | spritePosition =>
    exact hplain (hJ.bind (harity 2 4) fun _ => hJ.bind hframe fun (_, frame) =>
      position_congr hJ hlength hargs frame)
  | spriteFile => exact hplain (hJ.bind (harity 2 2) fun _ => hJ.bind hframe fun _ => hJ.pure _)
  | spriteWidth => exact hplain (hJ.bind (harity 2 2) fun _ => hJ.bind hframe fun _ => hJ.pure _)
  | spriteHeight => exact hplain (hJ.bind (harity 2 2) fun _ => hJ.bind hframe fun _ => hJ.pure _)
  | spriteDimensions =>
    exact hplain (hJ.bind (harity 2 2) fun _ => hJ.bind hframe fun _ => hJ.pure _)
  | imageUrl =>
    refine hplain (hJ.bind (harity 1 2) fun _ => hJ.bind (htext 0) fun t => ?_)
    dsimp only
    rw [hlength]
    split
    · exact hJ.bind (hJ.bind (htext 1) fun _ => hJ.pure _) fun _ => hJ.pure _
    · exact hJ.bind (hJ.pure _) fun _ => hJ.pure _
  | imageWidth => exact hplain (hJ.bind (harity 1 1) fun _ => hJ.bind hsize fun _ => hJ.pure _)
  | imageHeight => exact hplain (hJ.bind (harity 1 1) fun _ => hJ.bind hsize fun _ => hJ.pure _)
  | inlineImage =>
    refine hplain (hJ.bind (harity 1 2) fun _ => hJ.bind (htext 0) fun t => ?_)
    refine (contentOf_bind t _).symm ▸ (contentOf_bind t _).symm ▸
      hJ.bind (hJ.content t) fun bytes => ?_
    dsimp only
    rw [hlength]
    split
    · exact hJ.bind (htext 1) fun _ => hJ.pure _
    · exact hJ.bind (hJ.pure _) fun _ => hJ.pure _

end Calls

section Arguments

variable (hJ : ∀ name args, Handles config ⟨name, args, line⟩ ⟨name, args, line'⟩ J)
variable (hmap : ∀ pattern spacing,
  J (spriteMap config pattern spacing) (spriteMap config pattern spacing))
variable {vars vars' : VariableTable} (hvars : ∀ name, vars'.get? name = vars.get? name)
include hJ hmap hvars

theorem resolve_congr (steps : Nat) (name : Text) (args : List Text) (raw : Text) :
    J (resolve config vars steps ⟨name, args, line⟩ raw)
      (resolve config vars' steps ⟨name, args, line'⟩ raw) := by
  induction steps generalizing name args raw with
  | zero => exact (hJ name args).fail _ _
  | succ steps ih =>
    unfold resolve
    dsimp only
    cases reference? (trim raw) with
    | some variableName =>
      dsimp only
      rw [hvars]
      cases vars.get? variableName with
      | none => exact (hJ name args).fail _ _
      | some value =>
        cases value with
        | sheet sheet => exact (hJ name args).pure _
        | raw value => exact ih name args value
    | none =>
      dsimp only
      cases (Call.parse? (trim raw)).bind fun c => (SpriteFunction.ofName? c.name).map (c, ·) with
      | none => exact (hJ name args).pure _
      | some call =>
        obtain ⟨call, function⟩ := call
        have hcall := hJ call.name call.args
        refine hcall.bind (expandFunction_congr hcall (by rfl)
          (argument_congr hcall (by rfl) fun raw _ => ih call.name call.args raw) [] function
          fun _ => hmap) fun x => ?_
        cases x.sheet? <;> exact hcall.pure _

/-- A judgement goes through the expansions of calls on a line if it goes through all calls there. -/
theorem expand_congr_of_handles (name : Text) (args : List Text) (indent : Text) :
    J (expand config vars ⟨name, args, line⟩ indent)
      (expand config vars' ⟨name, args, line'⟩ indent) := by
  unfold expand
  dsimp only
  cases SpriteFunction.ofName? name with
  | none => exact (hJ name args).fail _ _
  | some function =>
    exact expandFunction_congr (hJ name args) (by rfl)
      (argument_congr (hJ name args) (by rfl) fun raw _ =>
        resolve_congr hJ hmap hvars maxSteps name args raw)
      indent function fun _ => hmap

end Arguments

/-- A judgement goes through an expansion. The tables have to give the same values, and
the lines may differ. -/
theorem expand_congr (hJ : Accesses config J) {vars vars' : VariableTable}
    (hvars : ∀ name, vars'.get? name = vars.get? name) (name : Text) (args : List Text)
    (indent : Text) :
    J (expand config vars ⟨name, args, line⟩ indent)
      (expand config vars' ⟨name, args, line'⟩ indent) :=
  expand_congr_of_handles (fun _ _ => hJ.inspects.handles _ _) hJ.map hvars name args indent

end Expand

/-! ### Files -/

namespace Assembly

open Step

/-- Assemble a file, given its text and the variables that are visible at its start. -/
def assembleSource (options : Options) (loader : Loader) (nested : Importer) (file : FileId)
    (dir : Path) (source : SourceFile) (vars : VariableTable) : Assembly LineMap := do
  let outcome := scan options.functions source.text
  let map ← addDirectives options loader nested file source.path dir vars.innermost [] .empty
    outcome.directives
  match outcome.error? with
  | some e => throw ((Error.of (.scan e)).locate (Compilation.place source.path e.line))
  | none => pure map

/-- An import: the target is found, put on the stack and read, and then it is assembled. -/
theorem exec_importTarget (options : Options) (loader : Loader) (nested : Importer) (file : FileId)
    (dir : Path) (target : Text) (s : Session) :
    exec (importTarget options loader nested file dir target) s =
      match Import.resolve s.workspace.tree target dir options.includePaths with
      | .error e => (.error (.of (.imports e)), s)
      | .ok path => match s.stack.push path with
        | .error e => (.error (.of (.imports e)), s)
        | .ok stack => match loader.load s.workspace.tree path with
          | .error e => (.error (.of (.file e)), { s with stack })
          | .ok (path, text) =>
            match exec (nested s.files.length path.directory)
              { s with stack, files := s.files ++ [⟨path, text, some file⟩] } with
            | (.ok map, s') => (.ok map, { s' with stack := s'.stack.pop })
            | (.error e, s') => (.error e, s') := by
  unfold importTarget
  rw [exec_bind, exec_get]
  dsimp only
  cases Import.resolve s.workspace.tree target dir options.includePaths with
  | error e => rfl
  | ok path =>
    dsimp only [ofExcept]
    rw [pure_bind, exec_bind, exec_get]
    dsimp only
    cases s.stack.push path with
    | error e => rfl
    | ok stack =>
      dsimp only [ofExcept]
      rw [pure_bind, exec_bind, exec_modify]
      dsimp only
      cases loader.load s.workspace.tree path with
      | error e => rfl
      | ok r =>
        have hadd (source : SourceFile) (s : Session) : exec (addFile source) s =
            (.ok s.files.length, { s with files := s.files ++ [source] }) := rfl
        dsimp only [ofExcept]
        rw [pure_bind, exec_bind, hadd]
        dsimp only
        rw [exec_bind]
        obtain ⟨_ | map, s'⟩ := exec (nested _ _) _ <;> rfl

/-- A judgement that holds of everything a directive other than an import does. -/
structure Adds (options : Options) (J : ∀ {α : Type}, Assembly α → Assembly α → Prop) : Prop
    extends Congruence J where
  modifyVars : ∀ f, J (modifyVars f) (modifyVars f)
  sprite : ∀ function args line indent, J (expandSprite options function args line indent)
    (expandSprite options function args line indent)

/-- A judgement that holds of everything the assembly of a file does, apart from imports. -/
structure Builds (options : Options) (J : ∀ {α : Type}, Assembly α → Assembly α → Prop) : Prop
    extends Adds options J where
  locating : ∀ {α : Type} {x y : Assembly α} (place : Text),
    J x y → J (locating place x) (locating place y)
  source : ∀ {α : Type} {f g : SourceFile → VariableTable → Assembly α} (id : FileId),
    (∀ source vars, J (f source vars) (g source vars)) →
      J (do let source ← file id; f source (← get).vars) (do let source ← file id; g source (← get).vars)

variable {J : ∀ {α : Type}, Assembly α → Assembly α → Prop} {options : Options}

section Adds

variable (hJ : Adds options J)
include hJ

theorem ofExcept_congr {ε : Type} (cause : ε → Cause) (x : Except ε α) :
    J (ofExcept cause x) (ofExcept cause x) := by
  cases x with
  | error e => exact hJ.throw _ _
  | ok a => exact hJ.pure _

theorem normalizeCall_congr (functions : FunctionTable) (name : Text) (args : List Text)
    (line : Nat) :
    J (normalizeCall functions name args line) (normalizeCall functions name args line) := by
  unfold normalizeCall
  cases functions.get? name with
  | none => exact hJ.throw _ _
  | some sig => exact hJ.bind (ofExcept_congr hJ _ _) fun _ => hJ.pure _

theorem expandDirectives_congr (ds : List Directive) :
    J (expandDirectives options ds) (expandDirectives options ds) := by
  induction ds with
  | nil => exact hJ.pure _
  | cons d ds ih =>
    rw [expandDirectives_cons]
    refine hJ.bind ?_ fun _ => hJ.bind ih fun _ => hJ.pure _
    unfold expandPiece
    cases d.kind with
    | plain => exact hJ.pure _
    | imports targets => exact hJ.pure _
    | assign name lead value tail flags => exact hJ.pure _
    | sprite function args binding => exact hJ.bind (hJ.sprite _ _ _ _) fun _ => hJ.pure _
    | custom name args => exact hJ.bind (normalizeCall_congr hJ _ _ _ _) fun _ => hJ.pure _

theorem expandValue_congr (value : Text) (line : Nat) :
    J (expandValue options value line) (expandValue options value line) := by
  refine hJ.bind (expandDirectives_congr hJ _) fun _ => ?_
  cases (Scan.scanText options.functions .expression line value).error? with
  | none => exact hJ.pure _
  | some e => exact hJ.throw _ _

variable {loader loader' : Loader} {nested nested' : Importer} {file : FileId} {dir : Path}

/-- The targets matter only if the directive is an import. -/
theorem addDirective_congr_of_imports (before : Text) (map : LineMap) (d : Directive)
    (himports : ∀ targets, d.kind = .imports targets →
      J (importAll options loader nested file dir targets map)
        (importAll options loader' nested' file dir targets map)) :
    J (addDirective options loader nested file dir before map d)
      (addDirective options loader' nested' file dir before map d) := by
  unfold addDirective
  cases hkind : d.kind with
  | plain => exact hJ.pure _
  | imports targets => exact himports targets hkind
  | assign name lead value tail flags =>
    refine hJ.bind (expandValue_congr hJ value d.line) fun expanded => ?_
    cases expanded <;> exact hJ.bind (hJ.modifyVars _) fun _ => hJ.pure _
  | sprite function args binding =>
    refine hJ.bind (hJ.sprite _ _ _ _) fun expansion => ?_
    cases binding with
    | none => exact hJ.pure _
    | some binding =>
      dsimp only
      cases expansion.sheet? with
      | none => exact hJ.pure _
      | some sheet => exact hJ.bind (hJ.modifyVars _) fun _ => hJ.pure _
  | custom name args => exact hJ.bind (normalizeCall_congr hJ _ _ _ _) fun _ => hJ.pure _

end Adds

variable (hJ : Builds options J) {loader loader' : Loader} {nested nested' : Importer}
variable {file : FileId} {dir : Path}
variable (himport : ∀ target, J (importTarget options loader nested file dir target)
  (importTarget options loader' nested' file dir target))
include hJ himport

theorem importAll_congr (targets : List Text) (map : LineMap) :
    J (importAll options loader nested file dir targets map)
      (importAll options loader' nested' file dir targets map) := by
  induction targets generalizing map with
  | nil => exact hJ.pure _
  | cons target targets ih => exact hJ.bind (himport target) fun child => ih (map.splice child)

theorem addDirective_congr (before : Text) (map : LineMap) (d : Directive) :
    J (addDirective options loader nested file dir before map d)
      (addDirective options loader' nested' file dir before map d) :=
  addDirective_congr_of_imports hJ.toAdds before map d fun targets _ =>
    importAll_congr hJ himport targets map

theorem addDirectives_congr (path : Path) (base : Nat) (before : Text) (map : LineMap)
    (ds : List Directive) :
    J (addDirectives options loader nested file path dir base before map ds)
      (addDirectives options loader' nested' file path dir base before map ds) := by
  induction ds generalizing before map with
  | nil => exact hJ.pure _
  | cons d ds ih =>
    exact hJ.bind (hJ.modifyVars _) fun _ =>
      hJ.bind (hJ.locating _ (addDirective_congr hJ himport before map d)) fun map =>
        ih (before ++ d.raw) map

/-- A judgement that holds of the imports of a file goes through its assembly. -/
theorem assembleFile_congr :
    J (assembleFile options loader nested file dir)
      (assembleFile options loader' nested' file dir) := by
  refine hJ.source (f := assembleSource options loader nested file dir)
    (g := assembleSource options loader' nested' file dir) file fun source vars => ?_
  refine hJ.bind (addDirectives_congr hJ himport source.path vars.innermost [] .empty _) fun _ => ?_
  cases (scan options.functions source.text).error? with
  | none => exact hJ.pure _
  | some e => exact hJ.locating (Compilation.place source.path e.line) (hJ.throw _ _)

end Assembly

/-! ### What becomes of the workspace -/

section Workspace

open Step

variable {L : Workspace → Workspace → Prop} {options : Options}

/-- All that a step does to the workspace of its session is related by `L`. -/
abbrev Assembly.Advances (L : Workspace → Workspace → Prop) (x : Assembly α) : Prop :=
  Step.Advances (fun s s' : Session => L s.workspace s'.workspace) x

variable (refl : ∀ w, L w w) (trans : ∀ w w' w'', L w w' → L w' w'' → L w w'')
variable (hmap : ∀ pattern spacing, Step.Advances L (Expand.spriteMap options.sprites pattern spacing))

include refl

theorem Assembly.Advances.of_eq {x : Assembly α}
    (hx : ∀ s, (exec x s).2.workspace = s.workspace) : Assembly.Advances L x := by
  intro s
  rw [hx]
  exact refl _

/-- An import does to the workspace what the assembly of the imported file does. -/
theorem Assembly.advances_importTarget {loader : Loader} {nested : Assembly.Importer}
    (hnested : ∀ file dir, Assembly.Advances L (nested file dir)) (file : FileId) (dir : Path)
    (target : Text) :
    Assembly.Advances L (Assembly.importTarget options loader nested file dir target) := by
  intro s
  rw [Assembly.exec_importTarget]
  split
  · exact refl _
  · split
    · exact refl _
    · rename_i stack _
      split
      · exact refl _
      · rename_i path text _
        have hstep := hnested s.files.length path.directory
          { s with stack, files := s.files ++ [⟨path, text, some file⟩] }
        revert hstep
        obtain ⟨_ | map, s'⟩ := exec (nested _ _) _ <;> exact id

include trans hmap

/-- Only sprite maps change the workspace in an expansion. -/
theorem Expand.accesses_advances : Accesses options.sprites fun x _ => Step.Advances L x where
  toCongruence := congruence_advances refl trans
  map := hmap
  size name w := by
    rw [exec_sizeOf]
    exact refl w
  content name w := by
    rw [exec_contentOf]
    exact refl w

namespace Assembly

theorem builds_advances : Builds options fun x _ => Assembly.Advances L x where
  toCongruence := congruence_advances (fun s => refl s.workspace) fun _ _ _ => trans _ _ _
  locating place hx s := by
    rw [exec_locating]
    have hstep := hx s
    revert hstep
    obtain ⟨_ | a, s'⟩ := exec _ s <;> exact id
  modifyVars f s := refl _
  source id hf s := hf _ _ s
  sprite function args line indent s := by
    unfold expandSprite
    rw [exec_bind, exec_get]
    dsimp only
    rw [exec_task]
    exact @Expand.expand_congr _ _ line line (Expand.accesses_advances refl trans hmap) _ _
      (fun _ => rfl) function.name args indent s.workspace

theorem advances_assemble (loader : Loader) (depth : Nat) (file : FileId) (dir : Path) :
    Assembly.Advances L (assemble options loader depth file dir) := by
  have hfile {nested : Importer} (hnested : ∀ file dir, Assembly.Advances L (nested file dir))
      (file : FileId) (dir : Path) :
      Assembly.Advances L (assembleFile options loader nested file dir) :=
    @assembleFile_congr _ _ (builds_advances refl trans hmap) loader loader nested nested file dir
      (advances_importTarget refl hnested file dir)
  induction depth generalizing file dir with
  | zero => exact hfile (fun _ _ => .of_eq refl fun _ => rfl) file dir
  | succ depth ih => exact hfile ih file dir

end Assembly

end Workspace

end StylePrep
