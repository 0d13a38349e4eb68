import StylePrep.Preprocess.Assemble

/-!
# Runs that agree

Compilations and the tasks below them can fail and change a state. Two of them
agree from given states if both succeed, with related results and related final
states, or both fail. Which error is raised does not count: errors name lines, and
lines are exactly what differs between the texts compared later.

The rules follow the structure of a step: agreement of a sequence comes from
agreement of its parts (`Agree.bind`), and locating an error changes nothing
(`Agree.locating`). The same judgement serves for steps of a compilation, whose
state is a session, and for tasks, whose state is a workspace.
-/

namespace StylePrep

/-- A step that can fail and that changes a state. -/
abbrev Step (σ α : Type) := ExceptT Error (StateM σ) α

variable {σ τ α β γ δ : Type}

namespace Step

def exec (x : Step σ α) (s : σ) : Except Error α × σ := (ExceptT.run x).run s

@[simp] theorem exec_pure (a : α) (s : σ) : exec (pure a) s = (.ok a, s) := rfl

@[simp] theorem exec_throw (e : Error) (s : σ) : exec (throw e : Step σ α) s = (.error e, s) := rfl

@[simp] theorem exec_get (s : σ) : exec (get : Step σ σ) s = (.ok s, s) := rfl

@[simp] theorem exec_set (s s' : σ) : exec (set s' : Step σ PUnit) s = (.ok ⟨⟩, s') := rfl

@[simp] theorem exec_modify (f : σ → σ) (s : σ) :
    exec (modify f : Step σ PUnit) s = (.ok ⟨⟩, f s) := rfl

/-- What a sequence does, from what its first part does. -/
theorem exec_bind (x : Step σ α) (f : α → Step σ β) (s : σ) :
    exec (x >>= f) s = match exec x s with
      | (.ok a, s') => exec (f a) s'
      | (.error e, s') => (.error e, s') := by
  change (ExceptT.bindCont f (exec x s).1 : StateM σ (Except Error β)) (exec x s).2 = _
  obtain ⟨_ | _, _⟩ := exec x s <;> rfl

/-- A step that comes to an end without an error. -/
def Returns (x : Step σ α) (s : σ) (a : α) (s' : σ) : Prop := exec x s = (.ok a, s')

theorem Returns.det {x : Step σ α} {s s₁ s₂ : σ} {a₁ a₂ : α} (h₁ : Returns x s a₁ s₁)
    (h₂ : Returns x s a₂ s₂) : a₁ = a₂ ∧ s₁ = s₂ := by
  have h := h₁.symm.trans h₂
  exact ⟨Except.ok.inj (congrArg Prod.fst h), congrArg Prod.snd h⟩

/-- What holds of all that a step returns can be decided by taking it. -/
instance {x : Step σ α} {s : σ} {P : α → σ → Prop} [∀ a s', Decidable (P a s')] :
    Decidable (∀ a s', Returns x s a s' → P a s') :=
  match hx : exec x s with
  | (.ok a, s') => decidable_of_iff (P a s') ⟨fun hp a' s₁ h => by
      obtain ⟨rfl, rfl⟩ := Returns.det hx h
      exact hp, fun h => h a s' hx⟩
  | (.error _, _) => .isTrue fun _ _ h => by
      rw [Returns, hx] at h
      cases h

/-- A sequence returns exactly if its parts do, one after the other. -/
theorem returns_bind {x : Step σ α} {f : α → Step σ β} {s s' : σ} {b : β} :
    Returns (x >>= f) s b s' ↔ ∃ a s₁, Returns x s a s₁ ∧ Returns (f a) s₁ b s' := by
  unfold Returns
  rw [exec_bind]
  obtain ⟨_ | a, s₁⟩ := exec x s
  · simp
  · constructor
    · intro h
      exact ⟨a, s₁, rfl, h⟩
    · rintro ⟨_, _, h, hf⟩
      cases h
      exact hf

@[simp] theorem returns_pure {a b : α} {s s' : σ} :
    Returns (pure a) s b s' ↔ b = a ∧ s' = s := by
  simp [Returns, eq_comm]

@[simp] theorem not_returns_throw {e : Error} {a : α} {s s' : σ} :
    ¬ Returns (throw e : Step σ α) s a s' := by
  simp [Returns]

@[simp] theorem returns_get {a s s' : σ} : Returns (get : Step σ σ) s a s' ↔ a = s ∧ s' = s := by
  simp [Returns, eq_comm]

@[simp] theorem returns_modify {f : σ → σ} {s s' : σ} {u : PUnit} :
    Returns (modify f : Step σ PUnit) s u s' ↔ s' = f s := by
  simp [Returns, eq_comm]

/-- Two steps agree from two states: both return, with related results and
states, or both fail. -/
def Agree (R : α → σ → β → τ → Prop) (x : Step σ α) (y : Step τ β) (s : σ) (t : τ) : Prop :=
  match exec x s, exec y t with
  | (.ok a, s'), (.ok b, t') => R a s' b t'
  | (.error _, _), (.error _, _) => True
  | _, _ => False

namespace Agree

variable {R R' : α → σ → β → τ → Prop} {Q : γ → σ → δ → τ → Prop}
variable {x : Step σ α} {y : Step τ β} {s : σ} {t : τ}

theorem mono (h : Agree R x y s t) (imp : ∀ a s' b t', R a s' b t' → R' a s' b t') :
    Agree R' x y s t := by
  unfold Agree at h ⊢
  split <;> simp_all

theorem pure {a : α} {b : β} (h : R a s b t) : Agree R (Pure.pure a) (Pure.pure b) s t := h

theorem throw (e e' : Error) :
    Agree R (MonadExcept.throw e) (MonadExcept.throw e') s t := trivial

theorem bind {f : α → Step σ γ} {g : β → Step τ δ} (first : Agree R x y s t)
    (rest : ∀ a s' b t', R a s' b t' → Agree Q (f a) (g b) s' t') :
    Agree Q (x >>= f) (y >>= g) s t := by
  unfold Agree at first ⊢
  rw [exec_bind, exec_bind]
  revert first
  obtain ⟨_ | a, s'⟩ := exec x s <;> obtain ⟨_ | b, t'⟩ := exec y t <;> intro first
  · trivial
  · exact first.elim
  · exact first.elim
  · exact rest a s' b t' first

theorem of_returns {a : α} {s' : σ} {b : β} {t' : τ} (hx : Returns x s a s') (hy : Returns y t b t')
    (h : R a s' b t') : Agree R x y s t := by
  unfold Agree
  rw [hx, hy]
  exact h

theorem fails (hx : ∀ a s', ¬ Returns x s a s') (hy : ∀ b t', ¬ Returns y t b t') :
    Agree R x y s t := by
  unfold Agree
  unfold Returns at hx hy
  revert hx hy
  obtain ⟨_ | a, s'⟩ := exec x s <;> obtain ⟨_ | b, t'⟩ := exec y t <;> intro hx hy
  · trivial
  · exact hy b t' rfl
  · exact hx a s' rfl
  · exact absurd rfl (hx a s')

theorem trans {υ ε : Type} {Q : β → τ → ε → υ → Prop} {S : α → σ → ε → υ → Prop} {z : Step υ ε}
    {u : υ} (first : Agree R x y s t) (second : Agree Q y z t u)
    (comp : ∀ a s' b t' c u', R a s' b t' → Q b t' c u' → S a s' c u') : Agree S x z s u := by
  unfold Agree at first second ⊢
  revert first second
  obtain ⟨_ | a, s'⟩ := exec x s <;> obtain ⟨_ | b, t'⟩ := exec y t <;>
    obtain ⟨_ | c, u'⟩ := exec z u <;> intro first second
  · trivial
  · exact second.elim
  · exact first.elim
  · exact first.elim
  · exact first.elim
  · exact first.elim
  · exact second.elim
  · exact comp a s' b t' c u' first second

theorem symm (h : Agree R x y s t) : Agree (fun b t' a s' => R a s' b t') y x t s := by
  unfold Agree at h ⊢
  revert h
  obtain ⟨_ | a, s'⟩ := exec x s <;> obtain ⟨_ | b, t'⟩ := exec y t <;> intro h <;> exact h

/-- Both sides return or neither does. -/
theorem returns_iff (h : Agree R x y s t) :
    (∃ a s', Returns x s a s') ↔ ∃ b t', Returns y t b t' := by
  unfold Agree at h
  unfold Returns
  revert h
  obtain ⟨_ | a, s'⟩ := exec x s <;> obtain ⟨_ | b, t'⟩ := exec y t <;> intro h
  · simp
  · exact h.elim
  · exact h.elim
  · exact ⟨fun _ => ⟨b, t', rfl⟩, fun _ => ⟨a, s', rfl⟩⟩

theorem related (h : Agree R x y s t) {a : α} {s' : σ} {b : β} {t' : τ} (hx : Returns x s a s')
    (hy : Returns y t b t') : R a s' b t' := by
  unfold Agree at h
  rw [hx, hy] at h
  exact h

theorem get_bind {f : σ → Step σ γ} {g : τ → Step τ δ} (h : Agree Q (f s) (g t) s t) :
    Agree Q (MonadState.get >>= f) (MonadState.get >>= g) s t := h

theorem modify_bind {u : σ → σ} {v : τ → τ} {f : PUnit → Step σ γ} {g : PUnit → Step τ δ}
    (h : Agree Q (f ⟨⟩) (g ⟨⟩) (u s) (v t)) :
    Agree Q (MonadState.modifyGet (fun s => (⟨⟩, u s)) >>= f)
      (MonadState.modifyGet (fun t => (⟨⟩, v t)) >>= g) s t := h

theorem of_returns_iff (h : (∃ a s', Returns x s a s') ↔ ∃ b t', Returns y t b t')
    (hrel : ∀ a s' b t', Returns x s a s' → Returns y t b t' → R a s' b t') : Agree R x y s t := by
  by_cases hx : ∃ a s', Returns x s a s'
  · obtain ⟨b, t', hy⟩ := h.1 hx
    obtain ⟨a, s', hx⟩ := hx
    exact .of_returns hx hy (hrel a s' b t' hx hy)
  · refine .fails (fun a s' ha => hx ⟨a, s', ha⟩) fun b t' hb => hx (h.2 ⟨b, t', hb⟩)

/-- Two steps that return the same. -/
theorem of_same {x y : Step σ α} (h : ∀ a s', Returns x s a s' ↔ Returns y s a s') :
    Agree (fun a s' b t' => b = a ∧ t' = s') x y s s := by
  refine .of_returns_iff (exists_congr fun a => exists_congr (h a)) fun a s' b t' hx hy => ?_
  exact (((h a s').1 hx).det hy).imp Eq.symm Eq.symm

/-- Two sequences with the same first step. -/
theorem bind_same {Q : γ → σ → δ → σ → Prop} {x : Step σ α} {f : α → Step σ γ} {g : α → Step σ δ}
    (rest : ∀ a s', Returns x s a s' → Agree Q (f a) (g a) s' s') :
    Agree Q (x >>= f) (x >>= g) s s := by
  unfold Agree
  rw [exec_bind, exec_bind]
  cases hx : exec x s with
  | mk result s' =>
    cases result with
    | error e => trivial
    | ok a => exact rest a s' hx

/-- A first step on one side alone, which returns. -/
theorem after {f : α → Step σ γ} {y : Step τ δ} {a : α} {s' : σ} (hx : Returns x s a s')
    (h : Agree Q (f a) y s' t) : Agree Q (x >>= f) y s t := by
  unfold Agree at h ⊢
  rw [exec_bind, hx]
  exact h

/-- A step whose result is rewritten at the end. -/
theorem bind_pure {Q : γ → σ → α → σ → Prop} {x : Step σ α} {f : α → γ}
    (h : ∀ a s', Q (f a) s' a s') : Agree Q (x >>= fun a => Pure.pure (f a)) x s s := by
  unfold Agree
  rw [exec_bind]
  obtain ⟨_ | a, s'⟩ := exec x s
  · trivial
  · exact h a s'

end Agree

end Step

namespace Assembly

open Step

theorem exec_locating (place : Text) (x : Assembly α) (s : Session) :
    exec (locating place x) s = match exec x s with
      | (.ok a, s') => (.ok a, s')
      | (.error e, s') => (.error (e.locate place), s') := by
  unfold locating exec
  simp only [tryCatch, tryCatchThe, MonadExceptOf.tryCatch, ExceptT.tryCatch, ExceptT.run_mk,
    StateT.run_bind]
  rw [ExceptT.run]
  obtain ⟨_ | _, _⟩ := StateT.run x s <;> rfl

@[simp] theorem returns_locating {place : Text} {x : Assembly α} {s s' : Session} {a : α} :
    Returns (locating place x) s a s' ↔ Returns x s a s' := by
  unfold Returns
  rw [exec_locating]
  obtain ⟨_ | _, _⟩ := exec x s <;> simp

theorem exec_task (x : Task α) (s : Session) :
    exec (task x) s = ((exec x s.workspace).1, { s with workspace := (exec x s.workspace).2 }) := by
  have hrun : x.runIn s.workspace = exec x s.workspace := rfl
  unfold task
  rw [exec_bind, exec_get]
  dsimp only
  rw [hrun]
  obtain ⟨_ | _, _⟩ := exec x s.workspace <;> rfl

theorem returns_task {x : Task α} {s s' : Session} {a : α} :
    Returns (task x) s a s' ↔
      ∃ w, Returns x s.workspace a w ∧ s' = { s with workspace := w } := by
  unfold Returns
  rw [exec_task]
  obtain ⟨_ | b, w⟩ := exec x s.workspace <;> simp [and_assoc, eq_comm]

end Assembly

namespace Step.Agree

open Assembly

variable {R : α → Session → β → Session → Prop} {s t : Session}

theorem locating {x : Assembly α} {y : Assembly β} (place place' : Text) (h : Agree R x y s t) :
    Agree R (Assembly.locating place x) (Assembly.locating place' y) s t := by
  unfold Agree at h ⊢
  rw [exec_locating, exec_locating]
  revert h
  obtain ⟨_ | a, s'⟩ := exec x s <;> obtain ⟨_ | b, t'⟩ := exec y t <;> intro h <;> exact h

theorem ofExcept_bind {ε γ : Type} {Q : γ → Session → δ → Session → Prop} {cause : ε → Cause}
    {x : Except ε α} {f : α → Assembly γ} {g : α → Assembly δ}
    (rest : ∀ a, x = .ok a → Agree Q (f a) (g a) s t) :
    Agree Q (Assembly.ofExcept cause x >>= f) (Assembly.ofExcept cause x >>= g) s t := by
  cases x with
  | error e => trivial
  | ok a => exact rest a rfl

theorem modifyVars_bind {u v : VariableTable → VariableTable} {f : Unit → Assembly α}
    {g : Unit → Assembly β}
    (h : Agree R (f ()) (g ()) { s with vars := u s.vars } { t with vars := v t.vars }) :
    Agree R (Assembly.modifyVars u >>= f) (Assembly.modifyVars v >>= g) s t := h

theorem addFile_bind {file : SourceFile} {f : FileId → Assembly α} {y : Assembly β}
    (h : Agree R (f s.files.length) y { s with files := s.files ++ [file] } t) :
    Agree R (Assembly.addFile file >>= f) y s t := h

theorem locating_left {x : Assembly α} {y : Assembly β} (place : Text) (h : Agree R x y s t) :
    Agree R (Assembly.locating place x) y s t := by
  unfold Agree at h ⊢
  rw [exec_locating]
  revert h
  obtain ⟨_ | a, s'⟩ := exec x s <;> obtain ⟨_ | b, t'⟩ := exec y t <;> intro h <;> exact h

/-- Tasks that agree in the workspaces of two sessions agree in the sessions. -/
theorem task {x : Task α} {y : Task β} {Q : α → Workspace → β → Workspace → Prop}
    (h : Agree Q x y s.workspace t.workspace)
    (imp : ∀ a w b w', Q a w b w' → R a { s with workspace := w } b { t with workspace := w' }) :
    Agree R (Assembly.task x) (Assembly.task y) s t := by
  unfold Agree at h ⊢
  rw [exec_task, exec_task]
  revert h
  obtain ⟨_ | a, w⟩ := exec x s.workspace <;> obtain ⟨_ | b, w'⟩ := exec y t.workspace <;> intro h
  · trivial
  · exact h.elim
  · exact h.elim
  · exact imp a w b w' h

end Step.Agree

/-! ### Single steps of a compilation -/

namespace Assembly

open Step

@[simp] theorem returns_ofExcept {ε : Type} {cause : ε → Cause} {x : Except ε α} {a : α}
    {s s' : Session} : Returns (ofExcept cause x) s a s' ↔ x = .ok a ∧ s' = s := by
  cases x <;> simp [ofExcept, eq_comm]

@[simp] theorem returns_addFile {file : SourceFile} {id : FileId} {s s' : Session} :
    Returns (addFile file) s id s' ↔
      id = s.files.length ∧ s' = { s with files := s.files ++ [file] } := by
  have h : exec (addFile file) s =
      (.ok s.files.length, { s with files := s.files ++ [file] }) := rfl
  simp [Returns, h, eq_comm]

@[simp] theorem returns_file {id : FileId} {source : SourceFile} {s s' : Session} :
    Returns (Assembly.file id) s source s' ↔
      source = (s.files[id]?).getD ⟨⟨[]⟩, [], none⟩ ∧ s' = s := by
  have h : exec (Assembly.file id) s = (.ok ((s.files[id]?).getD ⟨⟨[]⟩, [], none⟩), s) := rfl
  simp [Returns, h, eq_comm]

@[simp] theorem returns_modifyVars {f : VariableTable → VariableTable} {u : Unit} {s s' : Session} :
    Returns (modifyVars f) s u s' ↔ s' = { s with vars := f s.vars } := by
  have h : exec (modifyVars f) s = (.ok (), { s with vars := f s.vars }) := rfl
  simp [Returns, h, eq_comm]

end Assembly

/-! ### Steps in the workspace alone -/

namespace Assembly

open Step

/-- A step that changes nothing but the workspace of the session. -/
def InWorkspace (x : Assembly α) : Prop :=
  ∀ s : Session, ∃ w, (exec x s).2 = { s with workspace := w }

namespace InWorkspace

theorem pure (a : α) : InWorkspace (Pure.pure a : Assembly α) := fun s => ⟨s.workspace, rfl⟩

theorem throw (e : Error) : InWorkspace (MonadExcept.throw e : Assembly α) :=
  fun s => ⟨s.workspace, rfl⟩

theorem task (x : Task α) : InWorkspace (Assembly.task x) := by
  intro s
  rw [exec_task]
  exact ⟨_, rfl⟩

theorem bind {x : Assembly α} {f : α → Assembly β} (hx : InWorkspace x)
    (hf : ∀ a, InWorkspace (f a)) : InWorkspace (x >>= f) := by
  intro s
  rw [exec_bind]
  obtain ⟨w, hw⟩ := hx s
  revert hw
  obtain ⟨_ | a, s'⟩ := exec x s <;> intro hw
  · exact ⟨w, hw⟩
  · obtain ⟨w', hw'⟩ := hf a s'
    refine ⟨w', hw'.trans ?_⟩
    rw [show s' = { s with workspace := w } from hw]

end InWorkspace

theorem ofExcept_inWorkspace {ε : Type} (cause : ε → Cause) (x : Except ε α) :
    InWorkspace (ofExcept cause x) := by
  cases x with
  | ok a => exact .pure a
  | error e => exact .throw _

theorem expandSprite_inWorkspace (options : Options) (function : SpriteFunction) (args : List Text)
    (line : Nat) (indent : Text) :
    InWorkspace (expandSprite options function args line indent) := by
  refine .bind (fun s => ⟨s.workspace, rfl⟩) ?_
  intro s
  exact .task _

theorem normalizeCall_inWorkspace (functions : FunctionTable) (name : Text) (args : List Text)
    (line : Nat) : InWorkspace (normalizeCall functions name args line) := by
  unfold normalizeCall
  split
  · exact .throw _
  · exact .bind (ofExcept_inWorkspace _ _) fun values => .pure _

/-- The text of one directive found in a value, and whether it is a call. -/
def expandPiece (options : Options) (d : Directive) : Assembly (Text × Bool) :=
  match d.kind with
  | .sprite function args _ => do
    let expansion ← expandSprite options function args d.line []
    pure (expansion.text, true)
  | .custom name args => do
    let text ← normalizeCall options.functions name args d.line
    pure (text, true)
  | _ => pure (d.raw, false)

theorem expandDirectives_cons (options : Options) (d : Directive) (ds : List Directive) :
    expandDirectives options (d :: ds) = (do
      let piece ← expandPiece options d
      let rest ← expandDirectives options ds
      pure (piece.1 ++ rest.1, piece.2 || rest.2)) := by
  rw [expandDirectives, expandPiece]
  cases d.kind <;> simp only [bind_assoc]

theorem expandPiece_inWorkspace (options : Options) (d : Directive) :
    InWorkspace (expandPiece options d) := by
  unfold expandPiece
  split
  · exact .bind (expandSprite_inWorkspace _ _ _ _ _) fun expansion => .pure _
  · exact .bind (normalizeCall_inWorkspace _ _ _ _) fun text => .pure _
  · exact .pure _

theorem expandDirectives_inWorkspace (options : Options) (ds : List Directive) :
    InWorkspace (expandDirectives options ds) := by
  induction ds with
  | nil => exact .pure _
  | cons d ds ih =>
    rw [expandDirectives_cons]
    exact .bind (expandPiece_inWorkspace options d) fun piece => .bind ih fun rest => .pure _

theorem expandValue_inWorkspace (options : Options) (value : Text) (line : Nat) :
    InWorkspace (expandValue options value line) := by
  refine .bind (expandDirectives_inWorkspace _ _) fun (text, changed) => ?_
  simp only
  split
  · exact .throw _
  · exact .pure _

theorem InWorkspace.vars_eq {x : Assembly α} (h : InWorkspace x) {s s' : Session} {a : α}
    (hx : Returns x s a s') : s'.vars = s.vars := by
  obtain ⟨w, hw⟩ := h s
  rw [hx] at hw
  rw [show s' = _ from hw]

/-- Such a step agrees with itself and leaves all else as it is. -/
theorem InWorkspace.agree {x : Assembly α} (h : InWorkspace x) (s : Session) :
    Agree (fun a s' b t' => b = a ∧ t' = s' ∧ ∃ w, s' = { s with workspace := w }) x x s s := by
  obtain ⟨w, hw⟩ := h s
  unfold Agree
  revert hw
  obtain ⟨_ | a, s'⟩ := exec x s <;> intro hw
  · trivial
  · exact ⟨rfl, rfl, w, hw⟩

/-! ### Roots -/

/-- The session that the assembly of a root text starts in. -/
def start (w : Workspace) (path : Path) (text : Text) : Session :=
  ⟨w, [⟨path, text, none⟩], ⟨[path]⟩, .empty⟩

/-- Do a step in the session of a root text, told how deep imports may go, and keep
the files it read. -/
def inRoot (x : Nat → Assembly α) (path : Path) (text : Text) : Task (α × List SourceFile) := do
  let workspace ← get
  let (result, session) := exec (x workspace.tree.fileCount) (start workspace path text)
  set session.workspace
  match result with
  | .ok a => pure (a, session.files)
  | .error e => throw e

theorem exec_inRoot (x : Nat → Assembly α) (path : Path) (text : Text) (w : Workspace) :
    exec (inRoot x path text) w = match exec (x w.tree.fileCount) (start w path text) with
      | (.ok a, s) => (.ok (a, s.files), s.workspace)
      | (.error e, s) => (.error e, s.workspace) := by
  unfold inRoot
  rw [exec_bind, exec_get]
  change (match exec (x w.tree.fileCount) (start w path text) with
    | (result, session) => exec (match result with
      | .ok a => Pure.pure (a, session.files)
      | .error e => MonadExcept.throw e : Task (α × List SourceFile)) session.workspace) = _
  obtain ⟨_ | a, s⟩ := exec (x w.tree.fileCount) (start w path text) <;> rfl

theorem returns_inRoot {x : Nat → Assembly α} {path : Path} {text : Text} {w w' : Workspace} {a : α}
    {files : List SourceFile} :
    Returns (inRoot x path text) w (a, files) w' ↔
      ∃ s, Returns (x w.tree.fileCount) (start w path text) a s ∧ files = s.files ∧
        w' = s.workspace := by
  unfold Returns
  rw [exec_inRoot]
  obtain ⟨_ | b, s⟩ := exec (x w.tree.fileCount) (start w path text)
  · simp
  · simp only [Prod.mk.injEq, Except.ok.injEq]
    constructor
    · rintro ⟨⟨rfl, rfl⟩, rfl⟩
      exact ⟨s, ⟨rfl, rfl⟩, rfl, rfl⟩
    · rintro ⟨s', ⟨rfl, rfl⟩, rfl, rfl⟩
      exact ⟨⟨rfl, rfl⟩, rfl⟩

theorem exec_assembleRoot (options : Options) (loader : Loader) (path dir : Path) (text : Text)
    (w : Workspace) :
    exec (assembleRoot options loader path text dir) w =
      match exec (inRoot (assemble options loader · 0 dir) path text) w with
      | (.ok (map, files), w') => (.ok ⟨map, files⟩, w')
      | (.error e, w') => (.error e, w') := by
  have hrun : (ExceptT.run (assemble options loader w.tree.fileCount 0 dir)).run
      ⟨w, [⟨path, text, none⟩], ⟨[path]⟩, .empty⟩ =
    exec (assemble options loader w.tree.fileCount 0 dir) (start w path text) := rfl
  rw [exec_inRoot]
  unfold assembleRoot
  rw [exec_bind, exec_get]
  dsimp only
  rw [hrun]
  obtain ⟨_ | map, s⟩ := exec (assemble options loader w.tree.fileCount 0 dir) (start w path text)
    <;> rfl

/-- A file is assembled from its directives, and none of them may be missing. -/
theorem returns_assembleFile {options : Options} {loader : Loader} {nested : Importer} {id : FileId}
    {dir : Path} {s s' : Session} {source : SourceFile} {map : LineMap}
    (hsource : s.files[id]? = some source) :
    Returns (assembleFile options loader nested id dir) s map s' ↔
      (scan options.functions source.text).error? = none ∧
        Returns (addDirectives options loader nested id source.path dir s.vars.innermost [] .empty
          (scan options.functions source.text).directives) s map s' := by
  unfold assembleFile
  simp only [returns_bind, returns_file, returns_get, hsource, Option.getD_some]
  constructor
  · rintro ⟨_, _, ⟨rfl, rfl⟩, _, _, ⟨rfl, rfl⟩, map', s₁, hadd, hend⟩
    split at hend
    · exact absurd hend not_returns_throw
    case h_2 herror =>
      obtain ⟨rfl, rfl⟩ := returns_pure.1 hend
      exact ⟨herror, hadd⟩
  · rintro ⟨herror, hadd⟩
    refine ⟨source, s, ⟨rfl, rfl⟩, s, s, ⟨rfl, rfl⟩, map, s', hadd, ?_⟩
    rw [herror]
    exact returns_pure.2 ⟨rfl, rfl⟩

/-- The assembly of a root text is that of a file, in the session that starts it. -/
theorem returns_assembleRoot {options : Options} {loader : Loader} {path dir : Path} {text : Text}
    {w w' : Workspace} {c : Compilation} :
    Returns (assembleRoot options loader path text dir) w c w' ↔
      ∃ s, Returns (assemble options loader w.tree.fileCount 0 dir) (start w path text) c.map s ∧
        c.files = s.files ∧ w' = s.workspace := by
  rw [← returns_inRoot (x := (assemble options loader · 0 dir))]
  unfold Returns
  rw [exec_assembleRoot]
  obtain ⟨_ | ⟨map, files⟩, w''⟩ := exec (inRoot (assemble options loader · 0 dir) path text) w
  · simp
  · obtain ⟨map', files'⟩ := c
    simp

end Assembly

end StylePrep
