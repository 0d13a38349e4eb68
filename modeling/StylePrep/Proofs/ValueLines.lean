import StylePrep.Proofs.Located
import StylePrep.Proofs.Sample

/-!
# Lines of errors in values

The value of a variable is scanned on its own when it is expanded, its lines numbered from that of
the directive. A call in it that cannot be expanded is reported on the line of its first character
(`expandPiece_blames`), and so is a token that the scan comes to a halt at.

So the line of an error is that of the directive and the line feeds of the value in front of what
is at fault. The line feeds between the `$` and the value are not counted: an error is on the line
where its cause stands in the file exactly if there are none (`line_of_value_error`).
-/

namespace StylePrep

open Text Step

/-! ### Calls -/

/-- An error that is on this line if it is about a malformed directive. -/
def Error.Blames (line : Nat) (e : Error) : Prop := ∀ err, e.cause = .scan err → err.line = line

/-- What goes wrong in a call on this line: the call itself, which is malformed, or a sprite. -/
inductive Error.OfCall (line : Nat) : Error → Prop
  | malformed {err : ScanError} (hline : err.line = line) : OfCall line (.of (.scan err))
  | sprite {e : Error} (he : e.IsSprite) : OfCall line e

theorem Error.OfCall.blames {e : Error} {line : Nat} (h : e.OfCall line) : e.Blames line := by
  intro err herr
  cases h with
  | malformed hline =>
    cases herr
    exact hline
  | sprite he =>
    obtain ⟨cause, rfl⟩ := he
    cases herr

namespace Expand

variable {config : SpriteConfig} {line : Nat}

theorem handles_ofCall (name : Text) (args : List Text) :
    Handles config ⟨name, args, line⟩ ⟨name, args, line⟩
      fun x _ => FailsWith (Error.OfCall line) x where
  pure := FailsWith.pure
  bind := FailsWith.bind
  fail _ _ := FailsWith.throw (.malformed rfl)
  missing _ := FailsWith.throw (.sprite ⟨_, rfl⟩)
  size image := (sizeOf_failsWith config image).mono fun _ => .sprite
  content image := (contentOf_failsWith config image).mono fun _ => .sprite

/-- A call is to blame on the line it is on, and so are the calls in its arguments. -/
theorem expand_ofCall (vars : VariableTable) (name : Text) (args : List Text) (indent : Text) :
    FailsWith (Error.OfCall line) (expand config vars ⟨name, args, line⟩ indent) :=
  expand_congr_of_handles (J := fun x _ => FailsWith (Error.OfCall line) x) handles_ofCall
    (fun pattern spacing => (spriteMap_failsWith config pattern spacing).mono fun _ => .sprite)
    (fun _ => rfl) name args indent

end Expand

namespace Assembly

open Scan

variable {options : Options} {line : Nat} {s s' : Session} {e : Error} {err : ScanError}

theorem expandSprite_ofCall (function : SpriteFunction) (args : List Text) (indent : Text) :
    FailsWith (Error.OfCall line) (expandSprite options function args line indent) := by
  intro s e s' h
  unfold expandSprite at h
  rw [exec_bind, exec_get] at h
  dsimp only at h
  rw [exec_task] at h
  obtain ⟨herror, -⟩ := Prod.mk.inj h
  exact Expand.expand_ofCall s.vars function.name args indent s.workspace e _ (Prod.ext herror rfl)

theorem normalizeCall_ofCall (functions : FunctionTable) (name : Text) (args : List Text) :
    FailsWith (Error.OfCall line) (normalizeCall functions name args line) := by
  unfold normalizeCall
  cases functions.get? name with
  | none => exact .throw (.malformed rfl)
  | some sig =>
    refine .bind ?_ fun _ => .pure _
    unfold Signature.normalize
    cases sig.bind args with
    | error fault => exact .throw (.malformed rfl)
    | ok values => exact .pure _

theorem expandPiece_ofCall (d : Directive) :
    FailsWith (Error.OfCall d.line) (expandPiece options d) := by
  unfold expandPiece
  split
  · exact .bind (expandSprite_ofCall _ _ _) fun _ => .pure _
  · exact .bind (normalizeCall_ofCall _ _ _) fun _ => .pure _
  · exact .pure _

/-- A directive in a value is to blame on the line it starts on. -/
theorem expandPiece_blames (d : Directive) :
    FailsWith (Error.Blames d.line) (expandPiece options d) :=
  (expandPiece_ofCall d).mono fun _ => Error.OfCall.blames

/-! ### Values -/

/-- Directives that cannot be expanded have a first one that cannot. -/
theorem exists_of_expandDirectives {ds : List Directive}
    (h : exec (expandDirectives options ds) s = (.error e, s')) :
    ∃ done d later piece s₁, ds = done ++ d :: later ∧
      Returns (expandDirectives options done) s piece s₁ ∧
      exec (expandPiece options d) s₁ = (.error e, s') := by
  induction ds generalizing s with
  | nil => cases h
  | cons d ds ih =>
    rw [expandDirectives_cons] at h
    rcases exec_bind_eq_error_iff.1 h with hpiece | ⟨piece, s₁, hpiece, hlater⟩
    · exact ⟨[], d, ds, ([], false), s, rfl, rfl, hpiece⟩
    · rcases exec_bind_eq_error_iff.1 hlater with hothers | ⟨others, s₂, -, hpure⟩
      · obtain ⟨done, d', later, rest, s₃, rfl, hdone, hfails⟩ := ih hothers
        have hmore : Returns (expandDirectives options (d :: done)) s
            (piece.1 ++ rest.1, piece.2 || rest.2) s₃ := by
          rw [expandDirectives_cons]
          exact returns_bind.2 ⟨piece, s₁, hpiece, returns_bind.2 ⟨rest, s₃, hdone, rfl⟩⟩
        exact ⟨d :: done, d', later, _, s₃, rfl, hmore, hfails⟩
      · cases hpure

/-- Directives fail at the first one that does. -/
theorem expandDirectives_fails {done later : List Directive} {d : Directive} {piece : Text × Bool}
    {s₁ : Session} (hdone : Returns (expandDirectives options done) s piece s₁)
    (hfails : exec (expandPiece options d) s₁ = (.error e, s')) :
    exec (expandDirectives options (done ++ d :: later)) s = (.error e, s') := by
  induction done generalizing s piece with
  | nil =>
    obtain ⟨-, rfl⟩ := returns_pure.1 hdone
    rw [List.nil_append, expandDirectives_cons, exec_bind, hfails]
  | cons d' done ih =>
    rw [expandDirectives_cons] at hdone
    obtain ⟨first, s₂, hfirst, hothers⟩ := returns_bind.1 hdone
    obtain ⟨others, s₃, hothers, hpure⟩ := returns_bind.1 hothers
    obtain ⟨-, rfl⟩ := returns_pure.1 hpure
    rw [List.cons_append, expandDirectives_cons, exec_bind, hfirst]
    dsimp only
    rw [exec_bind, ih hothers]

/-- The expansion of a value fails at what `rest` starts with: the first call that cannot be
expanded, or else what the scan of the value comes to a halt at. -/
inductive ValueFails (options : Options) (line : Nat) (value : Text) (s : Session) :
    Text → Text → Complaint → Prop where
  | call {done later : List Directive} {d : Directive} {rest : Text} {piece : Text × Bool}
      {s₁ s₂ : Session} {e : Error} {err : ScanError}
      (hscan : (scanText options.functions .expression line value).directives = done ++ d :: later)
      (hrest : d.raw <+: rest) (hdone : Returns (expandDirectives options done) s piece s₁)
      (hfails : exec (expandPiece options d) s₁ = (.error e, s₂)) (herr : e.cause = .scan err) :
      ValueFails options line value s (Directive.texts done) rest err.complaint
  | token {before rest : Text} {piece : Text × Bool} {s₁ : Session} {complaint : Complaint}
      (hdone : Returns (expandDirectives options
        (scanText options.functions .expression line value).directives) s piece s₁)
      (hhalts : Halts options.functions (.start .expression line) before rest complaint) :
      ValueFails options line value s before rest complaint

/-- An error in a value that is scanned from `line` on is so many lines further down as there are
line feeds in front of what is at fault. -/
theorem line_of_expandValue {value : Text}
    (h : exec (expandValue options value line) s = (.error e, s')) (herr : e.cause = .scan err) :
    ∃ before rest, value = before ++ rest ∧
      ValueFails options line value s before rest err.complaint ∧
      err.line = line + before.newlines := by
  unfold expandValue at h
  rcases exec_bind_eq_error_iff.1 h with hds | ⟨result, s₁, hds, hend⟩
  · obtain ⟨done, d, later, piece, s₁, hscan, hdone, hfails⟩ := exists_of_expandDirectives hds
    obtain ⟨⟨after, hvalue⟩, hline⟩ := stands_of_scanText hscan
    refine ⟨Directive.texts done, d.raw ++ after, by rw [← hvalue, List.append_assoc],
      .call hscan (List.prefix_append _ _) hdone hfails herr, ?_⟩
    rw [expandPiece_blames d s₁ e s' hfails err herr, hline]
  · dsimp only at hend
    cases herror : (scanText options.functions .expression line value).error? with
    | none =>
      rw [herror] at hend
      cases hend
    | some err' =>
      rw [herror] at hend
      cases hend
      cases herr
      obtain ⟨before, rest, hvalue, hhalts, hline⟩ := halts_of_scanFrom herror
      exact ⟨before, rest, hvalue, .token hds hhalts, hline⟩

/-- What is at fault in a value makes its expansion fail. -/
theorem ValueFails.exists_error {value before rest : Text} {complaint : Complaint}
    (h : ValueFails options line value s before rest complaint) (hvalue : value = before ++ rest) :
    ∃ e s', exec (expandValue options value line) s = (.error e, s') ∧
      e.cause = .scan ⟨line + before.newlines, complaint⟩ := by
  unfold expandValue
  dsimp only
  cases h with
  | @call done later d _ piece s₁ s₂ e err hscan _ hdone hfails herr =>
    refine ⟨e, s₂, ?_, ?_⟩
    · rw [exec_bind, hscan, expandDirectives_fails hdone hfails]
    · rw [herr, ← (stands_of_scanText hscan).2, ← expandPiece_blames d s₁ e s₂ hfails err herr]
  | @token _ _ piece s₁ _ hdone hhalts =>
    have herror := hhalts.error?_scanFrom (.fresh (.start .expression line))
    rw [← hvalue] at herror
    change (scanText options.functions .expression line value).error? = _ at herror
    refine ⟨.of (.scan ⟨line + before.newlines, complaint⟩), s₁, ?_, rfl⟩
    rw [exec_bind, hdone, herror]
    rfl

/-- The expansion of a value fails with an error about a malformed directive exactly if something
in the value is at fault, and the error is on the line of that, counted from `line`. -/
theorem expandValue_eq_error_iff {value : Text} :
    (∃ e s', exec (expandValue options value line) s = (.error e, s') ∧ e.cause = .scan err) ↔
      ∃ before rest, value = before ++ rest ∧
        ValueFails options line value s before rest err.complaint ∧
        err.line = line + before.newlines := by
  constructor
  · rintro ⟨e, s', h, herr⟩
    exact line_of_expandValue h herr
  · rintro ⟨before, rest, hvalue, hfails, hline⟩
    rw [show err = ⟨line + before.newlines, err.complaint⟩ by rw [← hline]]
    exact hfails.exists_error hvalue

/-- An error in the value of a variable is on the line of the directive, and so many lines further
down as there are line feeds in the value in front of what is at fault. It is on the line where
that stands in the file exactly if the value starts on the line of the `$`. -/
theorem line_of_value_error {t : Text} {d : Directive} {name lead value tail : Text}
    {flags : AssignFlags} (hd : d ∈ (scan options.functions t).directives)
    (hkind : d.kind = .assign name lead value tail flags)
    (h : exec (expandValue options value d.line) s = (.error e, s')) (herr : e.cause = .scan err) :
    ∃ front before rest back, t = front ++ d.raw ++ back ∧ d.line = 1 + front.newlines ∧
      d.raw = lead ++ (before ++ rest) ++ tail ∧ value = before ++ rest ∧
      ValueFails options d.line value s before rest err.complaint ∧
      err.line = d.line + before.newlines ∧
      (err.line = 1 + newlines (front ++ lead ++ before) ↔ lead.newlines = 0) := by
  obtain ⟨ds, ds', hds⟩ := List.append_of_mem hd
  obtain ⟨⟨back, ht⟩, hline⟩ := stands_of_scanText hds
  obtain ⟨before, rest, rfl, hfails, herror⟩ := line_of_expandValue h herr
  refine ⟨Directive.texts ds, before, rest, back, ht.symm, hline,
    (scan_cover options.functions t).2.1 d hd hkind, rfl, hfails, herror, ?_⟩
  rw [herror, hline, newlines_append, newlines_append]
  omega

/-- A value that starts beside its variable, and a call on its second line. -/
theorem line_of_value_error_beside :
    let t := "$a: b\n  sprite-url($m);\n".toList
    let s := start (Sample.workspace []) ⟨"/a.scss".toList⟩ t
    ∃ front before rest back,
      t = front ++ ("$a: ".toList ++ (before ++ rest) ++ ";".toList) ++ back ∧
      ValueFails Sample.options 1 "b\n  sprite-url($m)".toList s before rest
        (.argument "sprite-url".toList (.undefinedVariable "m".toList)) ∧
      2 = 1 + newlines (front ++ "$a: ".toList ++ before) := by
  intro t s
  let d : Directive :=
    ⟨.assign "a".toList "$a: ".toList "b\n  sprite-url($m)".toList ";".toList {},
      ⟨⟨0, 1, 1⟩, ⟨23, 2, 18⟩⟩, "$a: b\n  sprite-url($m);".toList, []⟩
  have hd : d ∈ (scan Sample.options.functions t).directives := by decide +kernel
  have h : exec (expandValue Sample.options "b\n  sprite-url($m)".toList d.line) s =
      (.error (.of (.scan ⟨2, .argument "sprite-url".toList (.undefinedVariable "m".toList)⟩)), s) := by
    decide +kernel
  obtain ⟨front, before, rest, back, ht, -, hraw, -, hfails, -, hline⟩ :=
    line_of_value_error hd rfl h rfl
  exact ⟨front, before, rest, back, hraw ▸ ht, hfails, hline.2 (by decide)⟩

/-- A call on the line below its variable is reported on the line of the variable. -/
theorem value_error_below :
    let t := "$a:\n  sprite-url($m);\n".toList
    let s := start (Sample.workspace []) ⟨"/a.scss".toList⟩ t
    ∃ d ∈ (scan Sample.options.functions t).directives,
      d.kind = .assign "a".toList "$a:\n  ".toList "sprite-url($m)".toList ";".toList {} ∧
      (exec (expandValue Sample.options "sprite-url($m)".toList d.line) s).1 = .error (.of (.scan
        ⟨1, .argument "sprite-url".toList (.undefinedVariable "m".toList)⟩)) ∧
      1 ≠ d.line + newlines "$a:\n  ".toList := by
  decide +kernel

end Assembly

end StylePrep
