import StylePrep.Proofs.Grammar
import StylePrep.Proofs.Resolution
import StylePrep.Proofs.Shapes

/-!
# Calls in arguments

A call in an argument can be replaced by a variable that holds what the call is expanded to
(`Expand.expand_through_variable`). The two are resolved differently. What the call returns is
unquoted and done with, while the text of the variable is looked at again, with fewer steps left;
but it is neither a variable nor a call (`Shaped.spriteCall?_eq_none`). And the call itself is
expanded with all steps instead of those left in an argument; but an expansion that returns did not
run out of them (`resolve_echoes`).

All this is about expansions that return. That one did tells that all arguments could be resolved
(`expandFunction_demands`), since no function leaves an argument aside.
-/

namespace StylePrep

namespace Step

variable {σ α β : Type} {s : σ}

/-- All that a step returns from a state another one returns, and both leave the state alone. -/
def Echoes (s : σ) (x y : Step σ α) : Prop := ∀ a s', Returns x s a s' → s' = s ∧ Returns y s a s

/-- All that a step returns from a state another one returns. -/
def Covers (s : σ) (x y : Step σ α) : Prop := ∀ a s', Returns x s a s' → Returns y s a s'

/-- A step returns from a state only if something holds. -/
def Demands (s : σ) (P : Prop) (x : Step σ α) : Prop := ∀ a s', Returns x s a s' → P

theorem Echoes.of_throw (e : Error) (y : Step σ α) : Echoes s (MonadExcept.throw e) y :=
  fun _ _ h => absurd h not_returns_throw

theorem Echoes.of_returns {x y : Step σ α} {a : α} (hx : Returns x s a s) (hy : Returns y s a s) :
    Echoes s x y := by
  intro b s' h
  obtain ⟨rfl, rfl⟩ := Returns.det hx h
  exact ⟨rfl, hy⟩

theorem congruence_echoes (s : σ) : Congruence (Echoes s) where
  pure a b s' h := by
    obtain ⟨rfl, rfl⟩ := returns_pure.1 h
    exact ⟨rfl, h⟩
  throw c c' := .of_throw _ _
  bind hx hf b s' h := by
    obtain ⟨a, s₁, hfirst, hrest⟩ := returns_bind.1 h
    obtain ⟨rfl, hfirst'⟩ := hx a s₁ hfirst
    obtain ⟨rfl, hrest'⟩ := hf a b s' hrest
    exact ⟨rfl, returns_bind.2 ⟨a, _, hfirst', hrest'⟩⟩

theorem Echoes.covers {x y : Step σ α} (h : Echoes s x y) : Covers s x y := by
  intro a s' hreturns
  obtain ⟨rfl, hreturns'⟩ := h a s' hreturns
  exact hreturns'

theorem Covers.bind {x y : Step σ α} {f g : α → Step σ β} (hx : Echoes s x y)
    (hf : ∀ a, Covers s (f a) (g a)) : Covers s (x >>= f) (y >>= g) := by
  intro b s' h
  obtain ⟨a, s₁, hfirst, hrest⟩ := returns_bind.1 h
  obtain ⟨rfl, hfirst'⟩ := hx a s₁ hfirst
  exact returns_bind.2 ⟨a, _, hfirst', hf a b s' hrest⟩

theorem Demands.first {P : Prop} {x : Step σ α} {f : α → Step σ β} (h : Demands s P x) :
    Demands s P (x >>= f) := by
  intro b s' hreturns
  obtain ⟨a, s₁, hfirst, -⟩ := returns_bind.1 hreturns
  exact h a s₁ hfirst

theorem Demands.rest {P : Prop} {x : Step σ α} {f : α → Step σ β} (hx : Echoes s x x)
    (hf : ∀ a, Demands s P (f a)) : Demands s P (x >>= f) := by
  intro b s' hreturns
  obtain ⟨a, s₁, hfirst, hrest⟩ := returns_bind.1 hreturns
  obtain ⟨rfl, -⟩ := hx a s₁ hfirst
  exact hf a b s' hrest

end Step

namespace VariableTable

theorem lookup_cons (name name' : Text) (value : Value) (vars : Variables) :
    List.lookup name' ((name, value) :: vars) =
      if name' = name then some value else List.lookup name' vars := by
  rw [List.lookup_cons]
  by_cases heq : name' = name
  · simp [heq]
  · simp [heq, beq_eq_false_iff_ne.2 heq]

theorem get?_concat (root : Variables) (outer : List BlockScope) (scope : BlockScope) (name : Text) :
    VariableTable.get? ⟨root, outer ++ [scope]⟩ name =
      (scope.vars.lookup name).or (VariableTable.get? ⟨root, outer⟩ name) := by
  rw [get?, get?, List.reverse_concat, List.findSome?_cons]
  cases scope.vars.lookup name <;> rfl

/-- A new variable has its value, and the others keep theirs. -/
theorem get?_assign_of_fresh {table : VariableTable} {name : Text} (h : table.get? name = none)
    (value : Value) (flags : AssignFlags) (name' : Text) :
    (table.assign name value flags).get? name' =
      if name' = name then some value else table.get? name' := by
  have hfresh : ¬ (flags.isDefault = true ∧ (table.get? name).isSome = true) := by simp [h]
  rw [assign, if_neg hfresh]
  obtain ⟨root, blocks⟩ := table
  obtain ⟨hblocks, -⟩ := Option.or_eq_none_iff.1 h
  have hroot : VariableTable.get? ⟨(name, value) :: root, blocks⟩ name' =
      if name' = name then some value else VariableTable.get? ⟨root, blocks⟩ name' := by
    unfold get?
    dsimp only
    rw [lookup_cons]
    split
    case isTrue heq => rw [heq, hblocks, Option.none_or]
    case isFalse => rfl
  split
  case isTrue => exact hroot
  case isFalse =>
    rcases List.eq_nil_or_concat' blocks with rfl | ⟨outer, scope, rfl⟩
    · exact hroot
    · have hassign : assignInnermost ⟨root, outer ++ [scope]⟩ name value =
          ⟨root, outer ++ [{ scope with vars := (name, value) :: scope.vars }]⟩ := by
        simp [assignInnermost]
      rw [hassign, get?_concat, get?_concat, lookup_cons]
      split <;> rfl

theorem get?_assign_self {table : VariableTable} {name : Text} (h : table.get? name = none)
    (value : Value) (flags : AssignFlags) :
    (table.assign name value flags).get? name = some value := by
  rw [get?_assign_of_fresh h, if_pos rfl]

theorem get?_assign_mono {table : VariableTable} {name : Text} (h : table.get? name = none)
    (value : Value) (flags : AssignFlags) (name' : Text) (value' : Value)
    (hget : table.get? name' = some value') :
    (table.assign name value flags).get? name' = some value' := by
  have hne : name' ≠ name := by
    rintro rfl
    cases h.symm.trans hget
  rw [get?_assign_of_fresh h, if_neg hne, hget]

end VariableTable

namespace Call

open Text Delimited

/-- A text that is a call starts with its name, and a parenthesis comes next. -/
theorem exists_of_parse? {t : Text} {call : Call} (hstops : Stops isSpace t)
    (h : parse? t = some call) : IsName call.name ∧ ∃ rest, t = call.name ++ '(' :: rest := by
  obtain ⟨b, htrim, hname, -, -⟩ := parse?_eq_some_iff.1 h
  obtain ⟨u, hu, -⟩ := exists_spaces t
  have hend : trim t = trimEnd t := by rw [trim, trimStart_of_stops hstops]
  refine ⟨hname, b ++ [')'] ++ u, ?_⟩
  rw [hu, ← hend, htrim]
  simp

end Call

theorem SpriteFunction.ofName?_name (f : SpriteFunction) : ofName? f.name = some f := by
  cases f <;> decide

namespace Expand

open Text Step Delimited

/-! ### Texts that replace calls -/

theorem head?_of_reference? {t name : Text} (h : reference? t = some name) : t.head? = some '$' := by
  obtain ⟨rest, hafter, -⟩ := Option.bind_eq_some_iff.1 h
  rw [after?_eq_some_iff.1 hafter]
  rfl

theorem spriteCall?_eq_some_iff {raw : Text} {c : Call} {function : SpriteFunction} :
    spriteCall? raw = some (c, function) ↔
      Call.parse? raw = some c ∧ SpriteFunction.ofName? c.name = some function := by
  have htrim : Call.parse? (trim raw) = Call.parse? raw := by rw [Call.parse?, trim_trim, Call.parse?]
  rw [spriteCall?, htrim]
  constructor
  · intro h
    obtain ⟨c', hparse, hname⟩ := Option.bind_eq_some_iff.1 h
    obtain ⟨function', hname', heq⟩ := Option.map_eq_some_iff.1 hname
    cases heq
    exact ⟨hparse, hname'⟩
  · rintro ⟨hparse, hname⟩
    rw [hparse, Option.bind_some, hname]
    rfl

/-- A call is no variable. -/
theorem reference?_of_parse? {raw : Text} {c : Call} (h : Call.parse? raw = some c) :
    reference? (trim raw) = none := by
  obtain ⟨b, htrim, hname, -, -⟩ := Call.parse?_eq_some_iff.1 h
  rw [Option.eq_none_iff_forall_ne_some]
  intro name href
  have hhead := head?_of_reference? href
  obtain ⟨d, rest, hcons⟩ := List.exists_cons_of_ne_nil hname.ne_nil
  rw [htrim, hcons] at hhead
  obtain rfl : d = '$' := Option.some.inj hhead
  exact absurd (hname.isWordChar '$' (by rw [hcons]; exact List.mem_cons_self)) (by decide)

theorem Shaped.exists_head? {t : Text} (h : Shaped t) :
    ∃ c, t.head? = some c ∧ isSpace c = false ∧ c ≠ '$' := by
  cases h with
  | quoted p => exact ⟨'"', rfl, by decide, by decide⟩
  | address p hrest hhead => exact ⟨'u', rfl, by decide, by decide⟩
  | @simple c t hc ht =>
    refine ⟨c, rfl, ?_, ?_⟩
    · rw [← Bool.not_eq_true]
      exact fun hspace => by simp [isWordChar_of_isSpace hspace] at hc
    · rintro rfl
      exact absurd hc (by decide)

theorem Shaped.stops {t : Text} (h : Shaped t) : Stops isSpace t := by
  obtain ⟨c, hhead, hspace, -⟩ := h.exists_head?
  intro d hd
  rw [hhead] at hd
  exact Option.some.inj hd ▸ hspace

/-- What replaces a call is no variable. -/
theorem Shaped.reference?_eq_none {t : Text} (h : Shaped t) : reference? (trim t) = none := by
  obtain ⟨c, hhead, -, hne⟩ := h.exists_head?
  rw [Option.eq_none_iff_forall_ne_some]
  intro name href
  have hprefix : trim t <+: t := by
    rw [trim, trimStart_of_stops h.stops]
    exact trimEnd_isPrefix t
  obtain ⟨u, hu⟩ := hprefix
  rw [← hu, List.head?_append, head?_of_reference? href, Option.some_or] at hhead
  exact hne (Option.some.inj hhead).symm

/-- What replaces a call is no call of a sprite function. -/
theorem Shaped.spriteCall?_eq_none {t : Text} (h : Shaped t) : spriteCall? t = none := by
  rw [Option.eq_none_iff_forall_ne_some]
  rintro ⟨c, function⟩ hcall
  obtain ⟨hparse, hfunction⟩ := spriteCall?_eq_some_iff.1 hcall
  obtain ⟨hname, rest, ht⟩ := Call.exists_of_parse? h.stops hparse
  have hword : t.takeWhile isWordChar = c.name := by
    rw [ht, takeWhile_append_of_stops hname.isWordChar fun d hd => by
      obtain rfl : '(' = d := Option.some.inj hd
      decide]
  cases h with
  | quoted p => exact hname.ne_nil (hword.symm.trans rfl)
  | address p hrest hhead =>
    have hurl : c.name = "url".toList := hword.symm.trans rfl
    have hnone : SpriteFunction.ofName? "url".toList = none := by decide
    rw [hurl, hnone] at hfunction
    cases hfunction
  | simple hc hsimple =>
    have hparen : '(' ∈ c.name ++ '(' :: rest := by simp
    rw [← ht] at hparen
    exact absurd (hsimple '(' hparen) (by decide)

/-- A text that replaces a call stands for itself. -/
theorem Shaped.resolve {config : SpriteConfig} {vars : VariableTable} {steps : Nat}
    {call : Invocation} {t : Text} (h : Shaped t) :
    resolve config vars (steps + 1) call t = pure (.text (unquote t)) :=
  resolve_of_text h.reference?_eq_none h.spriteCall?_eq_none

/-! ### Arguments without sprite maps -/

/-- No sprite map is called in what an argument stands for. -/
def Mapless (vars : VariableTable) : Nat → Text → Prop
  | 0, _ => True
  | steps + 1, raw =>
    match held? vars raw with
    | some value => Mapless vars steps value
    | none =>
      match spriteCall? raw with
      | some (c, function) => function ≠ .spriteMap ∧ ∀ arg ∈ c.args, Mapless vars steps arg
      | none => True

theorem Mapless.of_held? {vars : VariableTable} {steps : Nat} {raw value : Text}
    (h : Mapless vars (steps + 1) raw) (hheld : held? vars raw = some value) :
    Mapless vars steps value := by
  rwa [Mapless, hheld] at h

theorem Mapless.of_spriteCall? {vars : VariableTable} {steps : Nat} {raw : Text} {c : Call}
    {function : SpriteFunction} (h : Mapless vars (steps + 1) raw)
    (hcall : spriteCall? raw = some (c, function)) :
    function ≠ .spriteMap ∧ ∀ arg ∈ c.args, Mapless vars steps arg := by
  have hheld : held? vars raw = none := by
    rw [held?, reference?_of_parse? (spriteCall?_eq_some_iff.1 hcall).1]
    rfl
  rw [Mapless, hheld, hcall] at h
  exact h

instance Mapless.decidable (vars : VariableTable) :
    ∀ steps raw, Decidable (Mapless vars steps raw)
  | 0, _ => .isTrue trivial
  | steps + 1, raw => by
    unfold Mapless
    have := Mapless.decidable vars steps
    cases held? vars raw with
    | some value => exact this value
    | none =>
      cases spriteCall? raw with
      | none => exact .isTrue trivial
      | some called => exact inferInstanceAs (Decidable (_ ∧ _))

section Resolving

variable {config : SpriteConfig} {w : Workspace}

theorem inspects_echoes (config : SpriteConfig) (w : Workspace) : Inspects config (Echoes w) where
  toCongruence := congruence_echoes w
  size name size w' h := by
    rw [Returns, exec_sizeOf] at h ⊢
    obtain ⟨hsize, rfl⟩ := Prod.mk.inj h
    exact ⟨rfl, h⟩
  content name bytes w' h := by
    rw [Returns, exec_contentOf] at h ⊢
    obtain ⟨hcontent, rfl⟩ := Prod.mk.inj h
    exact ⟨rfl, h⟩

variable {vars vars' : VariableTable}
variable (hvars : ∀ name value, vars.get? name = some value → vars'.get? name = some value)
include hvars

theorem held?_mono {raw value : Text} (h : held? vars raw = some value) :
    held? vars' raw = some value := by
  unfold held? at h ⊢
  cases href : reference? (trim raw) with
  | none => simp [href] at h
  | some name =>
    rw [href, Option.bind_some] at h
    cases hget : vars.get? name with
    | none => simp [hget] at h
    | some value' =>
      rw [hget] at h
      rw [Option.bind_some, hvars name value' hget]
      exact h

/-- An argument without sprite maps that can be resolved stands for the same with more variables
and more steps. -/
theorem resolve_echoes {steps steps' : Nat} (hle : steps ≤ steps') {raw : Text}
    (hmapless : Mapless vars steps raw) (call call' : Invocation) :
    Echoes w (resolve config vars steps call raw) (resolve config vars' steps' call' raw) := by
  have hJ := fun call call' => (inspects_echoes config w).handles call call'
  induction steps generalizing steps' raw call call' with
  | zero => exact .of_throw _ _
  | succ steps ih =>
    obtain ⟨steps', rfl⟩ : ∃ more, steps' = more + 1 := ⟨steps' - 1, by omega⟩
    have hle : steps ≤ steps' := by omega
    rcases argument_cases vars raw with
      ⟨value, hheld⟩ | ⟨name, href, ⟨sheet, hget⟩ | hget⟩ | ⟨href, hcall | ⟨c, function, hcall⟩⟩
    · rw [resolve_of_held? hheld, resolve_of_held? (held?_mono hvars hheld)]
      exact ih hle (hmapless.of_held? hheld) call call'
    · rw [resolve_of_sheet href hget, resolve_of_sheet href (hvars _ _ hget)]
      exact (hJ call call').pure _
    · rw [resolve_of_undefined href hget]
      exact .of_throw _ _
    · rw [resolve_of_text href hcall, resolve_of_text href hcall]
      exact (hJ call call').pure _
    · obtain ⟨hfunction, hargs⟩ := hmapless.of_spriteCall? hcall
      rw [resolve_of_spriteCall href hcall, resolve_of_spriteCall href hcall, map_eq_pure_bind,
        map_eq_pure_bind]
      have hresolve (arg : Text) (harg : arg ∈ c.args) :
          Echoes w (resolve config vars steps ⟨c.name, c.args, call.line⟩ arg)
            (resolve config vars' steps' ⟨c.name, c.args, call'.line⟩ arg) :=
        ih hle (hargs arg harg) _ _
      refine (hJ call call').bind (expandFunction_congr (hJ _ _) (by rfl) ?_ [] function
        fun h => absurd h hfunction) fun _ => (hJ call call').pure _
      exact argument_congr (hJ _ _) rfl hresolve

theorem argument_echoes {steps steps' : Nat} (hle : steps ≤ steps') {call call' : Invocation}
    (hargs : call'.args = call.args) (hmapless : ∀ arg ∈ call.args, Mapless vars steps arg) (i : Nat) :
    Echoes w (argument (resolve config vars steps call) call i)
      (argument (resolve config vars' steps' call') call' i) := by
  refine argument_congr ((inspects_echoes config w).handles _ _) hargs ?_ i
  intro arg harg
  exact resolve_echoes hvars hle (hmapless arg harg) call call'

end Resolving

/-! ### Functions -/

section Functions

variable {config : SpriteConfig} {resolve resolve' : Text → Task Argument}
variable {call call' : Invocation} {w : Workspace}

theorem plain_sheet? (text : Task Text) : Yields (fun e => e.sheet? = none) (plain text) :=
  .last fun _ => .pure rfl

/-- Only a sprite map makes a sheet. -/
theorem expandFunction_sheet? {function : SpriteFunction} (h : function ≠ .spriteMap)
    (indent : Text) :
    Yields (fun e => e.sheet? = none) (expandFunction config resolve call indent function) := by
  cases function with
  | spriteMap => exact absurd rfl h
  | _ => exact plain_sheet? _

/-- What a function returns for some arguments it returns for others that resolve to the same. -/
theorem expandFunction_covers (hlength : call'.args.length = call.args.length)
    (hargs : ∀ i, Echoes w (argument resolve call i) (argument resolve' call' i)) (indent : Text)
    (function : SpriteFunction) :
    Covers w (expandFunction config resolve call indent function)
      (expandFunction config resolve' call' indent function) := by
  have hJ := (inspects_echoes config w).handles call call'
  by_cases hfunction : function = .spriteMap
  · subst hfunction
    -- only the packing behind the arguments changes the workspace
    refine .bind (checkArity_congr hJ hlength 1 2) fun _ => .bind (textArg_congr hJ hargs 0)
      fun pattern => .bind (spacingArg_congr hJ hlength hargs) fun spacing => ?_
    exact fun _ _ => id
  · exact (expandFunction_congr hJ hlength hargs indent function fun h =>
      absurd h hfunction).covers

section Demands

def Resolves (resolve : Text → Task Argument) (call : Invocation) (w : Workspace) (i : Nat) : Prop :=
  ∃ a, Returns (argument resolve call i) w a w

variable (hargs : ∀ i, Echoes w (argument resolve call i) (argument resolve call i))
include hargs

theorem argument_demands (i : Nat) : Demands w (Resolves resolve call w i) (argument resolve call i) := by
  intro a w' h
  obtain ⟨rfl, h⟩ := hargs i a w' h
  exact ⟨a, h⟩

theorem textArg_demands (i : Nat) :
    Demands w (Resolves resolve call w i) (textArg config resolve call i) :=
  .first (argument_demands hargs i)

theorem sheetArg_demands (i : Nat) :
    Demands w (Resolves resolve call w i) (sheetArg resolve call i) :=
  .first (argument_demands hargs i)

theorem sheetAndFrame_demands {i : Nat} (hi : i < 2) :
    Demands w (Resolves resolve call w i) (sheetAndFrame config resolve call) := by
  obtain rfl | rfl : i = 0 ∨ i = 1 := by omega
  · exact .first (sheetArg_demands hargs 0)
  · exact .rest (sheetArg_congr ((inspects_echoes config w).handles _ _) hargs 0) fun sheet =>
      .first (.first (textArg_demands hargs 1))

theorem offsetArg_demands {i : Nat} (hi : i < call.args.length) :
    Demands w (Resolves resolve call w i) (offsetArg config resolve call i) := by
  rw [offsetArg, if_pos hi]
  exact .first (textArg_demands hargs i)

theorem position_demands {i : Nat} (hleast : 2 ≤ i) (hmost : i < 4) (hi : i < call.args.length)
    (frame : Frame) : Demands w (Resolves resolve call w i) (position config resolve call frame) := by
  obtain rfl | rfl : i = 2 ∨ i = 3 := by omega
  · exact .first (offsetArg_demands hargs hi)
  · exact .rest (offsetArg_congr ((inspects_echoes config w).handles _ _) rfl hargs 2) fun _ =>
      .first (offsetArg_demands hargs hi)

theorem spacingArg_demands (hi : 1 < call.args.length) :
    Demands w (Resolves resolve call w 1) (spacingArg config resolve call) := by
  rw [spacingArg, if_pos hi]
  exact .first (textArg_demands hargs 1)

omit hargs in
theorem checkArity_demands {α : Type} {least most i : Nat} (hi : i < call.args.length)
    {f : Unit → Task α}
    (h : i < most → Demands w (Resolves resolve call w i) (f ())) :
    Demands w (Resolves resolve call w i) (call.checkArity least most >>= f) := by
  intro a w' hreturns
  obtain ⟨⟨⟩, w₁, harity, hrest⟩ := returns_bind.1 hreturns
  unfold Invocation.checkArity at harity
  split at harity
  case isTrue hlength =>
    obtain ⟨-, rfl⟩ := returns_pure.1 harity
    exact h (by omega) a w' hrest
  case isFalse => exact absurd harity not_returns_throw

omit hargs in
theorem plain_demands {P : Prop} {text : Task Text} (h : Demands w P text) :
    Demands w P (plain text) := .first h

/-- No function leaves an argument aside. -/
theorem expandFunction_demands {i : Nat} (hi : i < call.args.length) (indent : Text)
    (function : SpriteFunction) :
    Demands w (Resolves resolve call w i)
      (expandFunction config resolve call indent function) := by
  have hJ := (inspects_echoes config w).handles call call
  have hframe {f : Sheet × Frame → Task Text} (least most : Nat)
      (h : 2 ≤ i → i < most → ∀ p, Demands w (Resolves resolve call w i) (f p)) :
      Demands w (Resolves resolve call w i)
        (plain (call.checkArity least most >>= fun _ =>
          sheetAndFrame config resolve call >>= f)) := by
    refine plain_demands (checkArity_demands hi fun hmost => ?_)
    rcases Nat.lt_or_ge i 2 with hlt | hge
    · exact .first (sheetAndFrame_demands hargs hlt)
    · exact .rest (sheetAndFrame_congr hJ hargs) (h hge hmost)
  have hsize (f : Size → Task Text) : Demands w (Resolves resolve call w i)
      (plain (call.checkArity 1 1 >>= fun _ => imageSize config resolve call >>= f)) := by
    refine plain_demands (checkArity_demands hi fun hmost => ?_)
    obtain rfl : i = 0 := by omega
    exact .first (.first (textArg_demands hargs 0))
  cases function with
  | spriteMap =>
    refine checkArity_demands hi fun hmost => ?_
    obtain rfl | rfl : i = 0 ∨ i = 1 := by omega
    · exact .first (textArg_demands hargs 0)
    · exact .rest (textArg_congr hJ hargs 0) fun _ => .first (spacingArg_demands hargs hi)
  | sprite =>
    exact hframe 2 4 fun hleast hmost p => .first (position_demands hargs hleast hmost hi p.2)
  | spriteUrl =>
    refine plain_demands (checkArity_demands hi fun hmost => ?_)
    obtain rfl : i = 0 := by omega
    exact .first (sheetArg_demands hargs 0)
  | spritePosition =>
    exact hframe 2 4 fun hleast hmost p => position_demands hargs hleast hmost hi p.2
  | spriteFile => exact hframe 2 2 fun hleast hmost => by omega
  | spriteWidth => exact hframe 2 2 fun hleast hmost => by omega
  | spriteHeight => exact hframe 2 2 fun hleast hmost => by omega
  | spriteDimensions => exact hframe 2 2 fun hleast hmost => by omega
  | imageUrl =>
    refine plain_demands (checkArity_demands hi fun hmost => ?_)
    obtain rfl | rfl : i = 0 ∨ i = 1 := by omega
    · exact .first (textArg_demands hargs 0)
    · refine .rest (textArg_congr hJ hargs 0) fun name => ?_
      dsimp only
      rw [if_pos hi]
      exact .first (.first (textArg_demands hargs 1))
  | imageWidth => exact hsize _
  | imageHeight => exact hsize _
  | inlineImage =>
    refine plain_demands (checkArity_demands hi fun hmost => ?_)
    obtain rfl | rfl : i = 0 ∨ i = 1 := by omega
    · exact .first (textArg_demands hargs 0)
    · refine .rest (textArg_congr hJ hargs 0) fun name => ?_
      refine contentOf_bind name _ ▸ .rest (hJ.content name) fun bytes => ?_
      dsimp only
      rw [if_pos hi]
      exact .first (textArg_demands hargs 1)

end Demands

end Functions

/-! ### Calls and variables -/

theorem expand_eq_of_ofName? {config : SpriteConfig} {vars : VariableTable} {call : Invocation}
    {indent : Text} {f : SpriteFunction} (h : SpriteFunction.ofName? call.name = some f) :
    expand config vars call indent =
      expandFunction config (resolve config vars maxSteps call) call indent f := by
  rw [expand, h]

/-- Only sprite functions are expanded. -/
theorem exists_ofName?_of_returns {config : SpriteConfig} {vars : VariableTable}
    {call : Invocation} {indent : Text} {w w' : Workspace} {e : Expansion}
    (h : Returns (expand config vars call indent) w e w') :
    ∃ f, SpriteFunction.ofName? call.name = some f := by
  cases hname : SpriteFunction.ofName? call.name with
  | some f => exact ⟨f, rfl⟩
  | none =>
    rw [expand, hname] at h
    exact absurd h not_returns_throw

/-- A dollar sign and a name refer to the variable of that name. -/
theorem reference?_dollar {name : Text} (hne : name ≠ []) (hword : name.all isWordChar = true) :
    reference? (trim ('$' :: name)) = some name := by
  have htrim : trim ('$' :: name) = '$' :: name := by
    obtain ⟨init, c, rfl⟩ := (List.eq_nil_or_concat' name).resolve_left hne
    have hc : isSpace c = false := by
      rw [← Bool.not_eq_true]
      intro hspace
      have := List.all_eq_true.1 hword c (by simp)
      simp [isWordChar_of_isSpace hspace] at this
    rw [trim, trimStart_of_stops, ← List.cons_append, trimEnd_concat _ hc]
    rintro d hd
    obtain rfl : '$' = d := Option.some.inj hd
    decide
  have hafter : after? ['$'] ('$' :: name) = some name := after?_eq_some_iff.2 rfl
  rw [htrim, reference?, hafter, Option.bind_eq_bind, Option.bind_some, if_pos ⟨hne, hword⟩]

/-- The variable that an argument is stored in stands for what the argument did. -/
theorem resolve_dollar {config : SpriteConfig} {vars : VariableTable} {name t : Text}
    (hne : name ≠ []) (hword : name.all isWordChar = true) (hget : vars.get? name = some (.raw t))
    (ht : Shaped t) (call : Invocation) :
    resolve config vars maxSteps call ('$' :: name) = pure (.text (unquote t)) := by
  have hheld : held? vars ('$' :: name) = some t := by
    rw [held?, reference?_dollar hne hword, Option.bind_some, hget]
  rw [maxSteps, resolve_of_held? hheld, ht.resolve]

/-- A call in an argument can be taken out: what it is expanded to is put into a new variable, and
the variable into its place. -/
theorem expand_through_variable {config : SpriteConfig} {vars : VariableTable} {call : Invocation}
    {g : SpriteFunction} {args : List Text} {i : Nat} {raw name indent : Text} {w w' : Workspace}
    {e : Expansion} (hraw : call.args[i]? = some raw)
    (hcall : Call.parse? raw = some ⟨g.name, args⟩) (hg : g ≠ .spriteMap)
    (hmapless : ∀ arg ∈ call.args, Mapless vars maxSteps arg) (hne : name ≠ [])
    (hword : name.all isWordChar = true) (hfresh : vars.get? name = none)
    (h : Returns (expand config vars call indent) w e w') :
    ∃ t, (∀ line, Returns (expand config vars ⟨g.name, args, line⟩ []) w ⟨t, none⟩ w) ∧
      ∀ flags, Returns (expand config (vars.assign name (.raw t) flags)
        (call.setArg i ('$' :: name)) indent) w e w' := by
  have hJ := inspects_echoes config w
  obtain ⟨f, hf⟩ := exists_ofName?_of_returns h
  rw [expand_eq_of_ofName? hf] at h
  have hi : i < call.args.length := (List.getElem?_eq_some_iff.1 hraw).1
  have hsprite : spriteCall? raw = some (⟨g.name, args⟩, g) :=
    spriteCall?_eq_some_iff.2 ⟨hcall, g.ofName?_name⟩
  -- the call in the argument returns, as the whole does
  obtain ⟨a, ha⟩ := expandFunction_demands
    (argument_echoes (fun _ _ => id) (Nat.le_refl maxSteps) rfl hmapless) hi indent f e w' h
  have hexpand := ha
  rw [argument_of_getElem? hraw, maxSteps,
    resolve_of_spriteCall (reference?_of_parse? hcall) hsprite, map_eq_pure_bind,
    returns_bind] at hexpand
  obtain ⟨⟨t, sheet?⟩, w₁, hexpand, hreturn⟩ := hexpand
  obtain ⟨rfl, rfl⟩ := returns_pure.1 hreturn
  obtain rfl : sheet? = none := expandFunction_sheet? hg [] w _ w hexpand
  have hshaped : Shaped t := expandFunction_shaped (by simp) g w _ w hexpand
  refine ⟨t, fun line => ?_, fun flags => ?_⟩
  · have hnested := ((hmapless raw (List.mem_of_getElem? hraw)).of_spriteCall? hsprite).2
    rw [expand_eq_of_ofName? g.ofName?_name]
    refine (expandFunction_congr (hJ.handles _ _) (by rfl) ?_ [] g (fun h => absurd h hg) _ w
      hexpand).2
    exact argument_echoes (fun _ _ => id) (Nat.le_succ 16) rfl hnested
  · rw [expand_eq_of_ofName? (show SpriteFunction.ofName? (call.setArg i _).name = some f from hf)]
    refine expandFunction_covers List.length_set (fun j => ?_) indent f e w' h
    rcases eq_or_ne i j with rfl | hij
    · refine .of_returns ha ?_
      have hname := VariableTable.get?_assign_self hfresh (.raw t) flags
      rw [argument_setArg hraw, resolve_dollar hne hword hname hshaped]
      exact returns_pure.2 ⟨rfl, rfl⟩
    · have hvars := VariableTable.get?_assign_mono hfresh (.raw t) flags
      rw [argument_setArg_of_ne hij]
      exact argument_echoes hvars (Nat.le_refl maxSteps) rfl hmapless j

/-- An offset that is the width of a frame. -/
theorem expand_through_variable_width :
    let sheet : Sheet := ⟨⟨"/sheets/s.png".toList⟩, ⟨20, 8⟩,
      [⟨⟨"a".toList, ⟨"/images/a.png".toList⟩⟩, ⟨4, 0⟩, ⟨16, 8⟩⟩]⟩
    let vars : VariableTable := ⟨[("m".toList, .sheet sheet)], []⟩
    let config := Sample.options.sprites
    let w := Sample.workspace []
    let arg := "sprite-width($m, a)".toList
    let text := "url(\"sheets/s.png\") 12px 0".toList
    Returns (expand config vars ⟨"sprite".toList, ["$m".toList, "a".toList, arg], 1⟩ []) w
        ⟨text, none⟩ w ∧
      ∃ t, Returns (expand config vars ⟨"sprite-width".toList, ["$m".toList, "a".toList], 1⟩ []) w
          ⟨t, none⟩ w ∧
        Returns (expand config (vars.assign "v".toList (.raw t) {})
          ⟨"sprite".toList, ["$m".toList, "a".toList, "$v".toList], 1⟩ []) w ⟨text, none⟩ w := by
  intro sheet vars config w arg text
  have h : Returns (expand config vars ⟨"sprite".toList, ["$m".toList, "a".toList, arg], 1⟩ []) w
      ⟨text, none⟩ w := by
    unfold Returns
    decide +kernel
  have hcall : Call.parse? arg = some ⟨SpriteFunction.spriteWidth.name, ["$m".toList, "a".toList]⟩ := by
    decide +kernel
  obtain ⟨t, hnested, hvariable⟩ := expand_through_variable (i := 2) rfl hcall (by decide)
    (by decide +kernel) (by decide : "v".toList ≠ []) (by decide) (by decide) h
  exact ⟨h, t, hnested 1, hvariable {}⟩

end Expand

end StylePrep
