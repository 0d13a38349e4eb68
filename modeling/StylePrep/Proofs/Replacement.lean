import Mathlib.Data.List.Forall2
import StylePrep.Proofs.Expansion
import StylePrep.Proofs.Pieces

/-!
# What replaces a directive

The text that replaces an assignment or a call is worked out from the workspace and
from look-ups of variables. The line of the directive and the rest of the session
play no part in it, so two sessions with equal workspaces and look-ups give the same
text and go on with equal workspaces.

For values this takes one more step: a value is scanned again, from the line of its
directive, and the directives found in it must not depend on that line
(`scanText_alike`).
-/

namespace StylePrep

open Text

namespace Scan

/-- Two directives of the same kind and spelling, perhaps in different places. -/
structure Alike (d d' : Directive) : Prop where
  kind : d'.kind = d.kind
  raw : d'.raw = d.raw

/-- Two points of two scans with the same surroundings in the same column, with the
same text collected since the same column. -/
structure Parallel (cur : Cursor) (run : Run) (cur' : Cursor) (run' : Run) : Prop where
  context : cur'.context = cur.context
  column : cur'.place.column = cur.place.column
  text : run'.text = run.text
  start : run'.start.column = run.start.column

theorem column_advance {l l' : Location} (h : l'.column = l.column) (t : Text) :
    (l'.advance t).column = (l.advance t).column := by
  induction t generalizing l l' with
  | nil => exact h
  | cons c t ih =>
    refine ih ?_
    unfold Location.next
    split <;> simp [h]

theorem flush_alike {run run' : Run} (h : run'.text = run.text) :
    List.Forall₂ Alike run.flush run'.flush := by
  unfold Run.flush
  rw [h]
  split
  · exact .nil
  · exact .cons ⟨rfl, rfl⟩ .nil

theorem complete_alike {cur cur' : Cursor} {run run' : Run} (h : Parallel cur run cur' run') (c : Char)
    (found : Found) : List.Forall₂ Alike (complete cur run c found) (complete cur' run' c found) := by
  have hindent : run'.indent = run.indent := by
    unfold Run.indent
    rw [h.text, h.start]
  unfold complete
  rw [hindent, h.text]
  refine List.rel_append (flush_alike ?_) (.cons ⟨rfl, rfl⟩ .nil)
  rfl

/-- Scans from parallel points report the same along the same pieces. -/
theorem trail_alike (ps : List Piece) {cur cur' : Cursor} {run run' : Run}
    (h : Parallel cur run cur' run') :
    Option.Rel (fun x y => List.Forall₂ Alike x.1 y.1 ∧ y.2.2.text = x.2.2.text)
      (trail cur run ps) (trail cur' run' ps) := by
  induction ps generalizing cur cur' run run' with
  | nil => exact .some ⟨.nil, h.text⟩
  | cons p ps ih =>
    cases p with
    | act c found =>
      set next := cur.step c found.tail { cur.context with atStatement := found.atStatement }
      set next' := cur'.step c found.tail { cur'.context with atStatement := found.atStatement }
      have hcolumn : next'.place.column = next.place.column := column_advance h.column _
      have hnext : Parallel next (.fresh next) next' (.fresh next') :=
        ⟨by simp [next, next', Cursor.step, h.context], hcolumn, rfl, hcolumn⟩
      have hrest := ih hnext
      rw [trail, trail]
      revert hrest
      cases trail next (.fresh next) ps <;> cases trail next' (.fresh next') ps <;> intro hrest
      · exact .none
      · cases hrest
      · cases hrest
      · cases hrest with
        | some hrest =>
          exact .some ⟨List.rel_append (complete_alike h c found) hrest.1, hrest.2⟩
    | token c tail effect =>
      rw [trail, trail, h.context]
      cases effect.result? cur.context with
      | none => exact .none
      | some context =>
        refine ih ⟨rfl, column_advance h.column _, ?_, h.start⟩
        simp [Run.extend, h.text]

/-- The line a text is scanned from changes only places and errors. -/
theorem scanText_alike (functions : FunctionTable) (mode : Mode) (line line' : Nat) (t : Text) :
    ((scanText functions mode line t).error? ≠ none ∧
      (scanText functions mode line' t).error? ≠ none) ∨
    ((scanText functions mode line t).error? = none ∧
      (scanText functions mode line' t).error? = none ∧
      List.Forall₂ Alike (scanText functions mode line t).directives
        (scanText functions mode line' t).directives) := by
  set statement := decide (mode = .sheet)
  obtain ⟨u, v, word', statement', rfl, hwalk, hend⟩ := exists_walk functions false statement t
  have hshows (line : Nat) : Shows (Cursor.start mode line) false statement := ⟨rfl, rfl⟩
  have hparallel : Parallel (.start mode line) (.fresh (.start mode line)) (.start mode line')
      (.fresh (.start mode line')) := ⟨rfl, rfl, rfl, rfl⟩
  have htrail := trail_alike (lex functions false statement (u ++ v)).1 hparallel
  obtain ⟨hsome, hnone⟩ := hwalk.scanFrom_eq (hshows line) (.fresh (.start mode line))
  obtain ⟨hsome', hnone'⟩ := hwalk.scanFrom_eq (hshows line') (.fresh (.start mode line'))
  generalize trail (.start mode line) (.fresh (.start mode line)) _ = x at htrail hsome hnone
  generalize trail (.start mode line') (.fresh (.start mode line')) _ = y at htrail hsome' hnone'
  cases htrail with
  | none => exact .inl ⟨hnone rfl, hnone' rfl⟩
  | @some x y hrel =>
    obtain ⟨ds, cur, run⟩ := x
    obtain ⟨ds', cur', run'⟩ := y
    obtain ⟨hcur, hscan⟩ := hsome _ _ _ rfl
    obtain ⟨hcur', hscan'⟩ := hsome' _ _ _ rfl
    unfold scanText
    rw [hscan, hscan']
    split at hend
    case isTrue =>
      subst hend
      rw [scanFrom, scanFrom]
      exact .inr ⟨rfl, rfl, List.rel_append hrel.1 (flush_alike hrel.2)⟩
    case isFalse =>
      obtain ⟨e, he⟩ := scanFrom_stuck hcur run hend
      obtain ⟨e', he'⟩ := scanFrom_stuck hcur' run' hend
      rw [he, he']
      exact .inl ⟨by simp [Outcome.prepend], by simp [Outcome.prepend]⟩

end Scan

namespace Assembly

open Step

variable {α β : Type}

/-- Equal results, and two sessions that go on with equal workspaces. -/
def Beside (s t : Session) (a : α) (s' : Session) (b : α) (t' : Session) : Prop :=
  b = a ∧ ∃ w, s' = { s with workspace := w } ∧ t' = { t with workspace := w }

/-- Two sessions in which the same texts replace directives. -/
structure Level (s t : Session) : Prop where
  workspace : t.workspace = s.workspace
  vars : ∀ name, t.vars.get? name = s.vars.get? name

theorem Level.beside {s t : Session} (h : Level s t) (a : α) : Beside s t a s a t :=
  ⟨rfl, s.workspace, rfl, by rw [← h.workspace]⟩

/-- Steps side by side, one after the other. -/
theorem Beside.bind {s t : Session} {x y : Assembly α} {f g : α → Assembly β}
    (first : Agree (Beside s t) x y s t)
    (rest : ∀ a w, Agree (Beside { s with workspace := w } { t with workspace := w }) (f a) (g a)
      { s with workspace := w } { t with workspace := w }) :
    Agree (Beside s t) (x >>= f) (y >>= g) s t := by
  refine .bind first ?_
  rintro _ _ a _ ⟨rfl, w, rfl, rfl⟩
  exact (rest a w).mono fun _ _ _ _ ⟨heq, w', hs, ht⟩ => ⟨heq, w', hs, ht⟩

theorem Level.within {s t : Session} (h : Level s t) (w : Workspace) :
    Level { s with workspace := w } { t with workspace := w } := ⟨rfl, h.vars⟩

section Replacing

variable {s t : Session} (h : Level s t) (options : Options) (line line' : Nat)
include h

theorem expandSprite_agree (function : SpriteFunction) (args : List Text) (indent : Text) :
    Agree (Beside s t) (expandSprite options function args line indent)
      (expandSprite options function args line' indent) s t := by
  have hget : Agree (fun a s' b t' => (a = s ∧ s' = s) ∧ b = t ∧ t' = t) (get : Assembly Session)
      (get : Assembly Session) s t := ⟨⟨rfl, rfl⟩, rfl, rfl⟩
  refine .bind hget fun a s' b t' hstates => ?_
  obtain ⟨⟨rfl, rfl⟩, rfl, rfl⟩ := hstates
  have halike := @Expand.expand_alike _ options.sprites line line' (fun _ _ => Alike.refl _) _ _ h.vars
    function.name args indent s'.workspace trivial
  refine .task (show Agree _ _ _ s'.workspace t'.workspace by rw [h.workspace]; exact halike) ?_
  rintro x w x' w' ⟨rfl, rfl, -⟩
  exact ⟨rfl, w', rfl, rfl⟩

theorem normalizeCall_agree (name : Text) (args : List Text) :
    Agree (Beside s t) (normalizeCall options.functions name args line)
      (normalizeCall options.functions name args line') s t := by
  unfold normalizeCall
  cases options.functions.get? name with
  | none => trivial
  | some sig =>
    dsimp only
    unfold Signature.normalize
    cases sig.bind args with
    | error fault => trivial
    | ok values => exact h.beside _

theorem expandPiece_agree {d d' : Directive} (hd : Scan.Alike d d') :
    Agree (Beside s t) (expandPiece options d) (expandPiece options d') s t := by
  unfold expandPiece
  rw [hd.kind, hd.raw]
  cases d.kind with
  | sprite function args binding =>
    exact Beside.bind (expandSprite_agree h options d.line d'.line function args []) fun expansion w =>
      (h.within w).beside _
  | custom name args =>
    exact Beside.bind (normalizeCall_agree h options d.line d'.line name args) fun text w =>
      (h.within w).beside _
  | imports => exact h.beside _
  | assign => exact h.beside _
  | plain => exact h.beside _

omit h in
theorem expandDirectives_agree {s t : Session} (h : Level s t) {ds ds' : List Directive}
    (hds : List.Forall₂ Scan.Alike ds ds') :
    Agree (Beside s t) (expandDirectives options ds) (expandDirectives options ds') s t := by
  induction hds generalizing s t with
  | nil => exact h.beside _
  | cons hd _ ih =>
    rw [expandDirectives_cons, expandDirectives_cons]
    exact Beside.bind (expandPiece_agree h options hd) fun piece w =>
      Beside.bind (ih (h.within w)) fun rest w' => ((h.within w).within w').beside _

/-- The value of a variable does not depend on the line it stands on. -/
theorem expandValue_agree (value : Text) :
    Agree (Beside s t) (expandValue options value line) (expandValue options value line') s t := by
  have hfails {line : Nat} {s : Session}
      (herror : (Scan.scanText options.functions .expression line value).error? ≠ none) :
      ∀ a s', ¬ Returns (expandValue options value line) s a s' := by
    intro a s' hreturns
    obtain ⟨⟨text, changed⟩, s₁, -, hlast⟩ := returns_bind.1 hreturns
    dsimp only at hlast
    split at hlast
    · exact not_returns_throw hlast
    · exact herror ‹_›
  rcases Scan.scanText_alike options.functions .expression line line' value with
    ⟨herror, herror'⟩ | ⟨herror, herror', hds⟩
  · exact .fails (hfails herror) (hfails herror')
  · refine Beside.bind (expandDirectives_agree options h hds) fun result w => ?_
    obtain ⟨text, changed⟩ := result
    rw [herror, herror']
    exact (h.within w).beside _

end Replacing

/-! ### Assignments and calls -/

/-- The text that replaces a directive spelled `raw` on `line`, which is no import;
`indent` is what its line starts with. -/
def replacement (options : Options) (line : Nat) (indent raw : Text) : DirectiveKind → Assembly Text
  | .assign name lead value tail flags => do
    match ← expandValue options value line with
    | none =>
      modifyVars (·.assign name (.raw value) flags)
      pure raw
    | some expanded =>
      modifyVars (·.assign name (.raw expanded) flags)
      pure (lead ++ expanded ++ tail)
  | .sprite function args binding => do
    let expansion ← expandSprite options function args line indent
    match binding with
    | none => pure expansion.text
    | some binding =>
      match expansion.sheet? with
      | some sheet => modifyVars (·.assign binding.name (.sheet sheet) binding.flags)
      | none => pure ()
      let terminated := (trimEnd raw).getLast? = some ';'
      pure (bindingText binding expansion.text terminated)
  | .custom name args => normalizeCall options.functions name args line
  | .plain => pure raw
  | .imports _ => pure raw

/-- Of an assignment the value is put out as it is expanded, and all else as it is. -/
theorem returns_replacement_assign {s s' : Session} {options : Options} {line : Nat}
    {indent raw text name lead value tail : Text} {flags : AssignFlags} (hraw : raw = lead ++ value ++ tail)
    (h : Returns (replacement options line indent raw (.assign name lead value tail flags)) s text s') :
    ∃ value? s₁, Returns (expandValue options value line) s value? s₁ ∧
      text = lead ++ value?.getD value ++ tail := by
  obtain ⟨value?, s₁, hvalue, h⟩ := returns_bind.1 h
  refine ⟨value?, s₁, hvalue, ?_⟩
  cases value? with
  | none =>
    obtain ⟨_, _, -, hpure⟩ := returns_bind.1 h
    exact (returns_pure.1 hpure).1.trans hraw
  | some expanded =>
    obtain ⟨_, _, -, hpure⟩ := returns_bind.1 h
    exact (returns_pure.1 hpure).1

theorem returns_replacement_bound {s s' : Session} {options : Options} {line : Nat} {indent raw text : Text}
    {f : SpriteFunction} {args : List Text} {binding : Binding}
    (h : Returns (replacement options line indent raw (.sprite f args (some binding))) s text s') :
    ∃ e s₁, Returns (expandSprite options f args line indent) s e s₁ ∧
      text = bindingText binding e.text (decide ((trimEnd raw).getLast? = some ';')) := by
  obtain ⟨e, s₁, he, h⟩ := returns_bind.1 h
  refine ⟨e, s₁, he, ?_⟩
  dsimp only at h
  split at h
  · obtain ⟨_, _, -, hpure⟩ := returns_bind.1 h
    exact (returns_pure.1 hpure).1
  · exact (returns_pure.1 h).1

/-- What a replacement does to the variables: nothing, or one assignment. -/
inductive Update : (VariableTable → VariableTable) → Prop where
  | none : Update id
  | assign (name : Text) (value : Value) (flags : AssignFlags) : Update (·.assign name value flags)

/-- Equal results, equal workspaces, and the same update of the variables. -/
def Updated (s t : Session) (a : α) (s' : Session) (b : α) (t' : Session) : Prop :=
  b = a ∧ ∃ w f, Update f ∧ s' = { s with workspace := w, vars := f s.vars } ∧
    t' = { t with workspace := w, vars := f t.vars }

theorem Beside.updated {s t s' t' : Session} {a b : α} (h : Beside s t a s' b t') :
    Updated s t a s' b t' := by
  obtain ⟨rfl, w, rfl, rfl⟩ := h
  exact ⟨rfl, w, id, .none, rfl, rfl⟩

theorem replacement_agree {s t : Session} (h : Level s t) (options : Options) (line line' : Nat)
    (indent raw : Text) (kind : DirectiveKind) :
    Agree (Updated s t) (replacement options line indent raw kind)
      (replacement options line' indent raw kind) s t := by
  cases kind with
  | assign name lead value tail flags =>
    refine .bind (expandValue_agree h options line line' value) ?_
    rintro _ _ expanded? _ ⟨rfl, w, rfl, rfl⟩
    cases expanded? with
    | none => exact ⟨rfl, w, _, .assign name _ flags, rfl, rfl⟩
    | some expanded => exact ⟨rfl, w, _, .assign name _ flags, rfl, rfl⟩
  | sprite function args binding =>
    refine .bind (expandSprite_agree h options line line' function args indent) ?_
    rintro _ _ expansion _ ⟨rfl, w, rfl, rfl⟩
    cases binding with
    | none => exact ⟨rfl, w, id, .none, rfl, rfl⟩
    | some binding =>
      dsimp only
      cases expansion.sheet? with
      | none => exact ⟨rfl, w, id, .none, rfl, rfl⟩
      | some sheet => exact ⟨rfl, w, _, .assign binding.name _ binding.flags, rfl, rfl⟩
  | custom name args =>
    exact (normalizeCall_agree h options line line' name args).mono fun _ _ _ _ hb => hb.updated
  | plain => exact (h.beside raw).updated
  | imports targets => exact (h.beside raw).updated

/-- What a replacement changes in the session. -/
theorem updated_of_replacement {s s' : Session} {options : Options} {line : Nat} {indent raw text : Text}
    {kind : DirectiveKind} (h : Returns (replacement options line indent raw kind) s text s') :
    ∃ w f, Update f ∧ s' = { s with workspace := w, vars := f s.vars } := by
  have hlevel : Level s s := ⟨rfl, fun _ => rfl⟩
  obtain ⟨-, w, f, hf, hs', -⟩ := (replacement_agree hlevel options line line indent raw kind).related h h
  exact ⟨w, f, hf, hs'⟩

/-! ### Workspaces without files -/

/-- A step that makes no file where there is none. -/
def Fileless (x : Assembly α) : Prop :=
  ∀ s a s', Returns x s a s' → s.workspace.tree.fileCount = 0 → s'.workspace.tree.fileCount = 0

namespace Fileless

theorem pure (a : α) : Fileless (Pure.pure a : Assembly α) := by
  intro s b s' h hs
  obtain ⟨-, rfl⟩ := returns_pure.1 h
  exact hs

theorem throw (e : Error) : Fileless (MonadExcept.throw e : Assembly α) :=
  fun _ _ _ h => absurd h not_returns_throw

theorem modifyVars (f : VariableTable → VariableTable) : Fileless (Assembly.modifyVars f) := by
  intro s _ s' h hs
  rw [returns_modifyVars.1 h]
  exact hs

theorem bind {x : Assembly α} {f : α → Assembly β} (hx : Fileless x) (hf : ∀ a, Fileless (f a)) :
    Fileless (x >>= f) := by
  intro s b s' h hs
  obtain ⟨a, s₁, hfirst, hrest⟩ := returns_bind.1 h
  exact hf a s₁ b s' hrest (hx s a s₁ hfirst hs)

end Fileless

section Making

variable (options : Options) (line : Nat)

/-- Without files there are no images, so no sheet is written. -/
theorem expandSprite_fileless (function : SpriteFunction) (args : List Text) (indent : Text) :
    Fileless (expandSprite options function args line indent) := by
  intro s expansion s' h hs
  obtain ⟨_, s₁, hget, htask⟩ := returns_bind.1 h
  obtain ⟨rfl, rfl⟩ := returns_get.1 hget
  have halike := @Expand.expand_alike _ options.sprites line line
    (Expand.spriteMap_fileless options.sprites) s₁.vars s₁.vars (fun _ => rfl) function.name args indent
    s₁.workspace hs
  have hagree : Agree (fun _ s' _ _ => s'.workspace.tree.fileCount = 0)
      (Assembly.task _) (Assembly.task _) s₁ s₁ := .task halike fun _ _ _ _ h => h.2.2
  exact hagree.related htask htask

theorem normalizeCall_fileless (functions : FunctionTable) (name : Text) (args : List Text) :
    Fileless (normalizeCall functions name args line) := by
  unfold normalizeCall
  cases functions.get? name with
  | none => exact .throw _
  | some sig =>
    have hvalues : Fileless (ofExcept .scan (sig.normalize args line)) := by
      cases sig.normalize args line with
      | error e => exact .throw _
      | ok values => exact .pure _
    exact hvalues.bind fun values => .pure _

theorem expandDirectives_fileless (ds : List Directive) : Fileless (expandDirectives options ds) := by
  induction ds with
  | nil => exact .pure _
  | cons d ds ih =>
    rw [expandDirectives_cons]
    refine .bind ?_ fun piece => .bind ih fun rest => Fileless.pure _
    unfold expandPiece
    cases d.kind with
    | sprite function args binding =>
      exact .bind (expandSprite_fileless options d.line function args []) fun _ => .pure _
    | custom name args => exact .bind (normalizeCall_fileless d.line _ name args) fun _ => .pure _
    | imports => exact .pure _
    | assign => exact .pure _
    | plain => exact .pure _

theorem expandValue_fileless (value : Text) : Fileless (expandValue options value line) := by
  refine (expandDirectives_fileless options _).bind fun result => ?_
  cases (Scan.scanText options.functions .expression line value).error? with
  | none => exact .pure _
  | some e => exact .throw _

theorem replacement_fileless (indent raw : Text) (kind : DirectiveKind) :
    Fileless (replacement options line indent raw kind) := by
  cases kind with
  | assign name lead value tail flags =>
    refine .bind (expandValue_fileless options line value) fun expanded? => ?_
    cases expanded? with
    | none => exact .bind (.modifyVars _) fun _ => .pure _
    | some expanded => exact .bind (.modifyVars _) fun _ => .pure _
  | sprite function args binding =>
    refine .bind (expandSprite_fileless options line function args indent) fun expansion => ?_
    cases binding with
    | none => exact .pure _
    | some binding =>
      dsimp only
      cases expansion.sheet? with
      | none => exact Fileless.pure _
      | some sheet => exact .bind (.modifyVars _) fun _ => .pure _
  | custom name args => exact normalizeCall_fileless line options.functions name args
  | plain => exact .pure _
  | imports targets => exact .pure _

end Making

end Assembly

end StylePrep
