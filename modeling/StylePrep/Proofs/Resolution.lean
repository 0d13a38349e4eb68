import StylePrep.Proofs.Expansion
import StylePrep.Proofs.Sample
import StylePrep.Proofs.Trimmed

/-!
# What an argument stands for

An argument is a variable, a call of a sprite function or a text, and it is resolved accordingly.
What a variable holds is an argument again, so variables can refer to each other. `follow?` goes
along such a chain, one variable at a time, and resolving an argument spends one step on each
(`resolve_of_follow?`). It starts with 17 of them. So a chain is followed to its end if it has 16
variables or fewer in front of its end, and everything else, a cycle above all, is reported as too
deep.
-/

namespace StylePrep

def Expansion.asArgument (e : Expansion) : Argument :=
  match e.sheet? with
  | some sheet => .sheet sheet
  | none => .text (Text.unquote e.text)

def Invocation.setArg (call : Invocation) (i : Nat) (raw : Text) : Invocation :=
  { call with args := call.args.set i raw }

namespace Expand

open Text Step

/-- The call of a sprite function that a text is. -/
def spriteCall? (raw : Text) : Option (Call × SpriteFunction) :=
  (Call.parse? (trim raw)).bind fun c => (SpriteFunction.ofName? c.name).map (c, ·)

/-- The text in the variable that an argument refers to. -/
def held? (vars : VariableTable) (raw : Text) : Option Text :=
  match (reference? (trim raw)).bind vars.get? with
  | some (.raw value) => some value
  | _ => none

/-- What an argument can be: a variable with a text, one with a sheet, an unknown one, a text or a
call. -/
theorem argument_cases (vars : VariableTable) (raw : Text) :
    (∃ value, held? vars raw = some value) ∨
      (∃ name, reference? (trim raw) = some name ∧
        ((∃ sheet, vars.get? name = some (.sheet sheet)) ∨ vars.get? name = none)) ∨
      (reference? (trim raw) = none ∧
        (spriteCall? raw = none ∨ ∃ c function, spriteCall? raw = some (c, function))) := by
  cases href : reference? (trim raw) with
  | none =>
    refine .inr (.inr ⟨rfl, ?_⟩)
    cases spriteCall? raw with
    | none => exact .inl rfl
    | some called => exact .inr ⟨called.1, called.2, rfl⟩
  | some name =>
    cases hget : vars.get? name with
    | none => exact .inr (.inl ⟨name, rfl, .inr hget⟩)
    | some value =>
      cases value with
      | raw value => exact .inl ⟨value, by rw [held?, href, Option.bind_some, hget]⟩
      | sheet sheet => exact .inr (.inl ⟨name, rfl, .inl ⟨sheet, hget⟩⟩)

/-! ### Steps -/

section Steps

variable {config : SpriteConfig} {vars : VariableTable} {steps : Nat} {call : Invocation}
variable {raw : Text}

theorem resolve_of_held? {value : Text} (h : held? vars raw = some value) :
    resolve config vars (steps + 1) call raw = resolve config vars steps call value := by
  unfold held? at h
  rw [resolve]
  cases href : reference? (trim raw) with
  | none => simp [href] at h
  | some name =>
    rw [href, Option.bind_some] at h
    dsimp only
    split at h
    case h_1 value' hget =>
      rw [hget]
      cases h
      rfl
    case h_2 => cases h

theorem resolve_of_sheet {name : Text} {sheet : Sheet} (href : reference? (trim raw) = some name)
    (hget : vars.get? name = some (.sheet sheet)) :
    resolve config vars (steps + 1) call raw = pure (.sheet sheet) := by
  simp only [resolve, href, hget]

theorem resolve_of_undefined {name : Text} (href : reference? (trim raw) = some name)
    (hget : vars.get? name = none) :
    resolve config vars (steps + 1) call raw = call.fail (.undefinedVariable name) := by
  simp only [resolve, href, hget]

/-- A text that is neither a variable nor a call stands for itself. -/
theorem resolve_of_text (href : reference? (trim raw) = none) (hcall : spriteCall? raw = none) :
    resolve config vars (steps + 1) call raw = pure (.text (unquote raw)) := by
  have hunquote : unquote (trim raw) = unquote raw := by rw [unquote, trim_trim, unquote]
  unfold spriteCall? at hcall
  simp only [resolve, href, hcall, hunquote]

/-- A call in an argument is expanded with one step less. -/
theorem resolve_of_spriteCall {c : Call} {function : SpriteFunction}
    (href : reference? (trim raw) = none) (hcall : spriteCall? raw = some (c, function)) :
    resolve config vars (steps + 1) call raw =
      Expansion.asArgument <$> expandFunction config
        (resolve config vars steps ⟨c.name, c.args, call.line⟩) ⟨c.name, c.args, call.line⟩ []
        function := by
  unfold spriteCall? at hcall
  simp only [resolve, href, hcall, map_eq_pure_bind]
  refine bind_congr fun e => ?_
  unfold Expansion.asArgument
  cases e.sheet? <;> rfl

/-- How an argument is resolved depends on the name and the line of its call, not on the other
arguments. -/
theorem resolve_args (name : Text) (args args' : List Text) (line : Nat) :
    resolve config vars steps ⟨name, args, line⟩ raw =
      resolve config vars steps ⟨name, args', line⟩ raw := by
  induction steps generalizing raw with
  | zero => rfl
  | succ steps ih =>
    unfold resolve
    dsimp only
    cases reference? (trim raw) with
    | none => rfl
    | some variableName =>
      dsimp only
      cases vars.get? variableName with
      | none => rfl
      | some value =>
        cases value with
        | sheet sheet => rfl
        | raw value => exact ih

end Steps

/-! ### Chains -/

/-- The text behind a number of variables, each of which refers to the next. -/
def follow? (vars : VariableTable) : Nat → Text → Option Text
  | 0, raw => some raw
  | n + 1, raw => (held? vars raw).bind (follow? vars n)

/-- A chain comes to a variable that it has been at before. -/
def Circles (vars : VariableTable) (raw : Text) : Prop :=
  ∃ j k first again name, j < k ∧ follow? vars j raw = some first ∧
    follow? vars k raw = some again ∧ reference? (trim first) = some name ∧
    reference? (trim again) = some name

/-- A task that fails with a complaint about the arguments of a call. -/
def Complains {α : Type} (call : Invocation) (what : String) (x : Task α) : Prop :=
  ∀ w, ∃ fault, exec x w = (.error (.of (.scan ⟨call.line, .argument call.name fault⟩)), w) ∧
    fault.message call.name = call.name.asString ++ "(): " ++ what

theorem complains_fail {α : Type} (call : Invocation) (fault : ArgumentFault) {what : String}
    (h : fault.message call.name = call.name.asString ++ "(): " ++ what) :
    Complains call what (call.fail fault : Task α) := fun _ => ⟨fault, rfl, h⟩

section Chains

variable {vars : VariableTable} {raw : Text}

theorem follow?_add (m n : Nat) (raw : Text) :
    follow? vars (m + n) raw = (follow? vars m raw).bind (follow? vars n) := by
  induction m generalizing raw with
  | zero => rw [Nat.zero_add, follow?, Option.bind_some]
  | succ m ih =>
    rw [Nat.succ_add, follow?, follow?, Option.bind_assoc]
    exact Option.bind_congr fun value _ => ih value

/-- A chain has all the links in front of a link that it has. -/
theorem exists_follow?_of_le {m n : Nat} (hle : m ≤ n) {last : Text}
    (h : follow? vars n raw = some last) : ∃ link, follow? vars m raw = some link := by
  obtain ⟨k, rfl⟩ := Nat.exists_eq_add_of_le hle
  rw [follow?_add] at h
  obtain ⟨link, hlink, -⟩ := Option.bind_eq_some_iff.1 h
  exact ⟨link, hlink⟩

/-- From references to the same variable, chains go on alike. -/
theorem follow?_succ_congr {raw' : Text} (href : reference? (trim raw) = reference? (trim raw'))
    (n : Nat) : follow? vars (n + 1) raw = follow? vars (n + 1) raw' := by
  have hheld : held? vars raw = held? vars raw' := by rw [held?, href, held?]
  rw [follow?, hheld, follow?]

/-- A chain in a circle has no end. -/
theorem Circles.exists_follow? (h : Circles vars raw) (n : Nat) :
    ∃ link, follow? vars n raw = some link := by
  obtain ⟨j, k, first, again, name, hjk, hfirst, hagain, href, href'⟩ := h
  induction n using Nat.strongRecOn with
  | ind n ih =>
    rcases Nat.lt_or_ge k n with hlt | hle
    · -- as far behind the first visit as this link is behind the other one
      obtain ⟨m, rfl⟩ := Nat.exists_eq_add_of_lt hlt
      obtain ⟨link, hlink⟩ := ih (j + (m + 1)) (by omega)
      refine ⟨link, ?_⟩
      rw [Nat.add_assoc, follow?_add, hagain, Option.bind_some,
        follow?_succ_congr (href'.trans href.symm)]
      rwa [follow?_add, hfirst, Option.bind_some] at hlink
    · exact exists_follow?_of_le hle hagain

variable {config : SpriteConfig} {call : Invocation}

/-- Each variable of a chain takes one step. -/
theorem resolve_of_follow? {n : Nat} {last : Text} (h : follow? vars n raw = some last)
    (steps : Nat) :
    resolve config vars (n + steps) call raw = resolve config vars steps call last := by
  induction n generalizing raw with
  | zero =>
    cases h
    rw [Nat.zero_add]
  | succ n ih =>
    obtain ⟨value, hvalue, hrest⟩ := Option.bind_eq_some_iff.1 h
    rw [Nat.succ_add, resolve_of_held? hvalue, ih hrest]

/-- The end of a chain decides what it stands for, if the steps last that far. -/
theorem resolve_of_follow?_le {n : Nat} {last : Text} (h : follow? vars n raw = some last)
    (hn : n ≤ 16) : ∃ steps,
      resolve config vars maxSteps call raw = resolve config vars (steps + 1) call last := by
  obtain ⟨steps, hsteps⟩ := Nat.exists_eq_add_of_le hn
  have hmax : maxSteps = n + (steps + 1) := by rw [maxSteps]; omega
  exact ⟨steps, by rw [hmax, resolve_of_follow? h]⟩

/-- No more than 16 variables are followed. -/
theorem resolve_of_long {n : Nat} {last : Text} (h : follow? vars n raw = some last) (hn : 16 < n) :
    resolve config vars maxSteps call raw = call.fail .tooDeep := by
  obtain ⟨link, hlink⟩ := exists_follow?_of_le (m := maxSteps) hn h
  have hspent : resolve config vars (maxSteps + 0) call raw = resolve config vars 0 call link :=
    resolve_of_follow? hlink 0
  rwa [Nat.add_zero, resolve] at hspent

end Chains

/-! ### Arguments -/

section Arguments

variable {config : SpriteConfig} {vars : VariableTable} {call : Invocation} {i : Nat} {raw : Text}

theorem argument_of_getElem? {resolve : Text → Task Argument} (h : call.args[i]? = some raw) :
    argument resolve call i = resolve raw := by
  rw [argument, h]

/-- The other arguments of a call are resolved as before. -/
theorem argument_setArg_of_ne {steps j : Nat} {last : Text} (hne : i ≠ j) :
    argument (resolve config vars steps (call.setArg i last)) (call.setArg i last) j =
      argument (resolve config vars steps call) call j := by
  have hget : (call.setArg i last).args[j]? = call.args[j]? := List.getElem?_set_ne hne
  rw [argument, argument, hget]
  cases call.args[j]? with
  | none => rfl
  | some raw' => exact resolve_args call.name _ call.args call.line

theorem argument_setArg {steps : Nat} {last : Text} (h : call.args[i]? = some raw) :
    argument (resolve config vars steps (call.setArg i last)) (call.setArg i last) i =
      resolve config vars steps call last := by
  have hlt : i < call.args.length := (List.getElem?_eq_some_iff.1 h).1
  have hset : (call.setArg i last).args[i]? = some last := List.getElem?_set_self hlt
  rw [argument_of_getElem? hset]
  exact resolve_args call.name _ call.args call.line

/-- An argument can be replaced by another one that stands for the same. -/
theorem expand_setArg_alike {last : Text} (h : call.args[i]? = some raw)
    (hsame : resolve config vars maxSteps call raw = resolve config vars maxSteps call last)
    (indent : Text) :
    Alike (fun _ => True) (expand config vars call indent)
      (expand config vars (call.setArg i last) indent) := by
  have hJ : Inspects config (Alike fun _ => True) :=
    (accesses_alike fun _ _ => Alike.refl _).inspects
  have hargs (j : Nat) : argument (resolve config vars maxSteps call) call j =
      argument (resolve config vars maxSteps (call.setArg i last)) (call.setArg i last) j := by
    rcases eq_or_ne i j with rfl | hne
    · rw [argument_setArg h, argument_of_getElem? h, hsame]
    · rw [argument_setArg_of_ne hne]
  have hlength : (call.setArg i last).args.length = call.args.length := List.length_set
  unfold expand
  rw [show (call.setArg i last).name = call.name from rfl]
  cases SpriteFunction.ofName? call.name with
  | none => exact .throw _ _
  | some function =>
    refine expandFunction_congr (hJ.handles _ _) hlength (fun j => ?_) indent function
      fun _ _ _ => Alike.refl _
    rw [hargs j]
    exact .refl _

end Arguments

/-- A chain of at most 16 variables stands for what is at its end, and a longer one is too deep.
An argument that is the end itself is expanded in the same way. -/
theorem argument_of_chain (config : SpriteConfig) (vars : VariableTable) {call : Invocation}
    {i : Nat} {raw : Text} (hraw : call.args[i]? = some raw) :
    let resolved := argument (resolve config vars maxSteps call) call i
    (∀ n last, follow? vars n raw = some last →
      (n ≤ 16 → reference? (trim last) = none → spriteCall? last = none →
        resolved = pure (.text (unquote last)) ∧
        argument (resolve config vars maxSteps (call.setArg i last)) (call.setArg i last) i =
          resolved ∧
        ∀ indent, Alike (fun _ => True) (expand config vars call indent)
          (expand config vars (call.setArg i last) indent)) ∧
      (n ≤ 16 → ∀ name, reference? (trim last) = some name →
        (∀ sheet, vars.get? name = some (.sheet sheet) → resolved = pure (.sheet sheet)) ∧
        (vars.get? name = none →
          Complains call ("undefined variable $" ++ name.asString) resolved)) ∧
      (16 < n → Complains call "arguments nest too deeply" resolved)) ∧
    (Circles vars raw → Complains call "arguments nest too deeply" resolved) := by
  intro resolved
  have hresolved : resolved = resolve config vars maxSteps call raw := argument_of_getElem? hraw
  have hdeep {n : Nat} {last : Text} (h : follow? vars n raw = some last) (hn : 16 < n) :
      Complains call "arguments nest too deeply" resolved := by
    rw [hresolved, resolve_of_long h hn]
    exact complains_fail call .tooDeep rfl
  have hlast {n : Nat} {last : Text} (h : follow? vars n raw = some last) (hn : n ≤ 16) :
      ∃ steps, resolve config vars maxSteps call raw =
        resolve config vars (steps + 1) call last := resolve_of_follow?_le h hn
  refine ⟨fun n last h => ⟨fun hn href hcall => ?_, fun hn name href => ?_, hdeep h⟩, fun h => ?_⟩
  · obtain ⟨steps, hsteps⟩ := hlast h hn
    have hend : resolve config vars maxSteps call last = pure (.text (unquote last)) :=
      resolve_of_text href hcall
    have hsame : resolve config vars maxSteps call raw = resolve config vars maxSteps call last := by
      rw [hsteps, resolve_of_text href hcall, hend]
    refine ⟨by rw [hresolved, hsame, hend], ?_, expand_setArg_alike hraw hsame⟩
    rw [argument_setArg hraw, hresolved, hsame]
  · obtain ⟨steps, hsteps⟩ := hlast h hn
    refine ⟨fun sheet hget => ?_, fun hget => ?_⟩
    · rw [hresolved, hsteps, resolve_of_sheet href hget]
    · rw [hresolved, hsteps, resolve_of_undefined href hget]
      exact complains_fail call (.undefinedVariable name) rfl
  · obtain ⟨link, hlink⟩ := h.exists_follow? maxSteps
    exact hdeep hlink (by decide)

/-- A chain to a text, and a circle. -/
theorem argument_of_chain_two :
    let vars : VariableTable := ⟨[("a".toList, .raw "$b".toList), ("b".toList, .raw "'x.png'".toList),
      ("c".toList, .raw " $d ".toList), ("d".toList, .raw "$c".toList)], []⟩
    let call : Invocation := ⟨"image-url".toList, ["$a".toList, "$c".toList], 7⟩
    let resolved := argument (resolve Sample.options.sprites vars maxSteps call) call
    resolved 0 = pure (.text "x.png".toList) ∧
      Complains call "arguments nest too deeply" (resolved 1) := by
  intro vars call resolved
  have hfirst : call.args[0]? = some "$a".toList := rfl
  have hsecond : call.args[1]? = some "$c".toList := rfl
  obtain ⟨hchain, -⟩ := argument_of_chain Sample.options.sprites vars hfirst
  obtain ⟨-, hcircle⟩ := argument_of_chain Sample.options.sprites vars hsecond
  have hfollow : follow? vars 2 "$a".toList = some "'x.png'".toList := by decide +kernel
  have hback : follow? vars 2 "$c".toList = some "$c".toList := by decide +kernel
  have htext := (hchain 2 _ hfollow).1 (by decide) (by decide +kernel) (by decide +kernel)
  have href : reference? (trim "$c".toList) = some "c".toList := by decide +kernel
  exact ⟨htext.1, hcircle ⟨0, 2, _, _, _, by decide, rfl, hback, href, href⟩⟩

end Expand

end StylePrep
