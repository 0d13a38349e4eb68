import StylePrep.Proofs.Course
import StylePrep.Proofs.Shapes

/-!
# Calls in the values of variables

The value of a variable is scanned on its own, and what is found in it is put together again with
calls replaced. The directives of a value are gone through one by one (`Abreast.piece`), so all of
a value without calls is put out where it stood (`Abreast.directives`).
-/

namespace StylePrep

open Text Scan Step

/-- The normal form of a call of a registered function, if its arguments bind. -/
def FunctionTable.normalForm? (functions : FunctionTable) (name : Text) (args : List Text) :
    Option Text := do
  let sig ← functions.get? name
  let values ← (sig.bind args).toOption
  some (Call.render ⟨name, values⟩)

namespace Directive

/-- No word goes on behind a call. -/
def Spaced (ds : List Directive) : Prop :=
  ds.IsChain fun d e => d.isCall = true → d.raw.getLast? = some ')' → Stops continues e.raw

instance (ds : List Directive) : Decidable (Spaced ds) := inferInstanceAs (Decidable (ds.IsChain _))

/-- What is put out for a directive in a value, sprite functions apart, stands for itself. -/
def Tame (functions : FunctionTable) (d : Directive) : Prop :=
  match d.kind with
  | .plain => Closed (lexemes false d.raw)
  | .custom name args => ∀ text ∈ functions.normalForm? name args, Inert text
  | .sprite .. => True
  | .imports _ => Inert d.raw
  | .assign .. => Inert d.raw

instance (functions : FunctionTable) (d : Directive) : Decidable (d.Tame functions) :=
  match hkind : d.kind with
  | .plain => decidable_of_iff (Closed (lexemes false d.raw)) (by simp [Tame, hkind])
  | .custom name args =>
    decidable_of_iff (∀ text ∈ functions.normalForm? name args, Inert text) (by simp [Tame, hkind])
  | .sprite .. => .isTrue (by simp [Tame, hkind])
  | .imports _ => decidable_of_iff (Inert d.raw) (by simp [Tame, hkind])
  | .assign .. => decidable_of_iff (Inert d.raw) (by simp [Tame, hkind])

end Directive

namespace Assembly

variable {options : Options} {s s' : Session}

theorem normalForm_of_returns {functions : FunctionTable} {name text : Text} {args : List Text} {line : Nat}
    (h : Returns (normalizeCall functions name args line) s text s') :
    functions.normalForm? name args = some text := by
  unfold normalizeCall at h
  unfold FunctionTable.normalForm?
  cases hsig : functions.get? name with
  | none =>
    rw [hsig] at h
    exact absurd h not_returns_throw
  | some sig =>
    rw [hsig] at h
    obtain ⟨values, s₁, hvalues, htext⟩ := returns_bind.1 h
    obtain ⟨rfl, -⟩ := returns_pure.1 htext
    unfold Signature.normalize at hvalues
    cases hbind : sig.bind args with
    | error fault =>
      rw [hbind] at hvalues
      exact absurd hvalues not_returns_throw
    | ok values' =>
      rw [hbind] at hvalues
      obtain ⟨rfl, -⟩ := returns_pure.1 hvalues
      simp [hbind, Except.toOption]

theorem expandSprite_yields {P : Expansion → Prop} {f : SpriteFunction} {args : List Text} {line : Nat}
    {indent : Text} (h : ∀ vars, Yields P (Expand.expand options.sprites vars ⟨f.name, args, line⟩ indent)) :
    Yields P (expandSprite options f args line indent) := by
  refine .last fun session => fun s e s' htask => ?_
  obtain ⟨w, hexpand, -⟩ := returns_task.1 htask
  exact h session.vars s.workspace e w hexpand

theorem expandSprite_substitute {f : SpriteFunction} {args : List Text} {line : Nat} {indent : Text}
    {e : Expansion} (hindent : ∀ c ∈ indent, isBlank c = true)
    (h : Returns (expandSprite options f args line indent) s e s') (hquotes : Expand.WellQuoted e.text) :
    Substitute e.text :=
  (expandSprite_yields (fun _ => Expand.expand_shaped hindent) s e s' h).substitute hquotes

theorem expandSprite_quoted {args : List Text} {line : Nat} {indent : Text} {e : Expansion}
    (h : Returns (expandSprite options .spriteMap args line indent) s e s')
    (hquotes : Expand.WellQuoted e.text) : ∃ p, e.text = Expand.quote p ∧ Enclosable p := by
  obtain ⟨p, hp⟩ := expandSprite_yields (fun _ => Expand.expand_spriteMap) s e s' h
  refine ⟨p, hp, Expand.enclosable_of_wellQuoted hquotes (a := []) (b := []) ?_⟩
  rw [List.nil_append, List.append_nil, hp]

/-- A call in a value is expanded to `e`, if the directives `ds` of the value are gone through. -/
inductive Replaces (options : Options) : List Directive → Session → Expansion → Prop
  | here {d : Directive} {ds : List Directive} {f : SpriteFunction} {args : List Text}
      {binding : Option Binding} {s s' : Session} {e : Expansion} : d.kind = .sprite f args binding →
      Returns (expandSprite options f args d.line []) s e s' → Replaces options (d :: ds) s e
  | later {d : Directive} {ds : List Directive} {piece : Text × Bool} {s s' : Session} {e : Expansion} :
      Returns (expandPiece options d) s piece s' → Replaces options ds s' e → Replaces options (d :: ds) s e

theorem Replaces.exists_mem {ds : List Directive} {e : Expansion} (h : Replaces options ds s e) :
    ∃ d ∈ ds, ∃ f args binding s s', d.kind = .sprite f args binding ∧
      Returns (expandSprite options f args d.line []) s e s' := by
  induction h with
  | here hkind he => exact ⟨_, List.mem_cons_self, _, _, _, _, _, hkind, he⟩
  | later _ _ ih =>
    obtain ⟨d, hd, hcall⟩ := ih
    exact ⟨d, List.mem_cons_of_mem _ hd, hcall⟩

end Assembly

namespace Scan

open Assembly Delimited Directive

variable {options : Options} {s s' : Session} {out : Text} {word statement : Bool}
variable {functions : FunctionTable}

theorem callKind?_cases {name body : Text} {kind : DirectiveKind} (h : callKind? functions name body = some kind) :
    (∃ f args, kind = .sprite f args none) ∨ ∃ args, kind = .custom name args := by
  unfold callKind? at h
  split at h
  · cases h
  · exact .inl ⟨_, _, (Option.some.inj h).symm⟩
  · split at h
    · exact .inr ⟨_, (Option.some.inj h).symm⟩
    · cases h

theorem assignment_cases (name lead value tail : Text) (flags : AssignFlags) :
    assignment name lead value tail flags = .assign name lead value tail flags ∨
      ∃ args, assignment name lead value tail flags = .sprite .spriteMap args (some ⟨name, flags⟩) := by
  unfold assignment
  split
  · split
    · exact .inr ⟨_, rfl⟩
    · exact .inl rfl
  · exact .inl rfl

theorem callKind?_ne_assign {name body name' lead value tail : Text} {flags : AssignFlags}
    {kind : DirectiveKind} (h : callKind? functions name body = some kind) :
    kind ≠ .assign name' lead value tail flags := by
  rintro rfl
  rcases callKind?_cases h with ⟨_, _, hkind⟩ | ⟨_, hkind⟩ <;> cases hkind

theorem assignment_eq_assign {name lead value tail name' lead' value' tail' : Text}
    {flags flags' : AssignFlags}
    (h : assignment name lead value tail flags = .assign name' lead' value' tail' flags') :
    name' = name ∧ lead' = lead ∧ value' = value ∧ tail' = tail ∧ flags' = flags := by
  rcases assignment_cases name lead value tail flags with hkind | ⟨_, hkind⟩ <;> cases hkind.symm.trans h
  exact ⟨rfl, rfl, rfl, rfl, rfl⟩

/-- The only sprite function whose value is bound is that of sprite maps. -/
theorem assignment_eq_sprite {name lead value tail : Text} {flags : AssignFlags} {f : SpriteFunction}
    {args : List Text} {binding : Option Binding}
    (h : assignment name lead value tail flags = .sprite f args binding) :
    f = .spriteMap ∧ binding = some ⟨name, flags⟩ := by
  rcases assignment_cases name lead value tail flags with hkind | ⟨_, hkind⟩ <;> cases hkind.symm.trans h
  exact ⟨rfl, rfl⟩

theorem assignment_ne_custom {name lead value tail name' : Text} {flags : AssignFlags} {args : List Text} :
    assignment name lead value tail flags ≠ .custom name' args := by
  intro h
  rcases assignment_cases name lead value tail flags with hkind | ⟨_, hkind⟩ <;> cases hkind.symm.trans h

/-- What the normal form of a call starts with is the name of the function. -/
theorem Form.substitute_custom {c : Char} {found : Found} {rest name text : Text} {args : List Text}
    (h : Form functions c found rest) (hkind : found.kind = .custom name args)
    (htext : functions.normalForm? name args = some text) (hinert : Inert text) :
    isWordStart c = true ∧ Substitute text := by
  cases h with
  | imports => cases hkind
  | assign => exact absurd hkind assignment_ne_custom
  | @call _ word body kind _ hc hword hbody hcall =>
    obtain ⟨_, rfl⟩ : ∃ args, kind = .custom (c :: word) args := by
      rcases callKind?_cases hcall with ⟨_, _, rfl⟩ | hcustom
      · cases hkind
      · exact hcustom
    cases hkind
    unfold FunctionTable.normalForm? at htext
    simp only [Option.bind_eq_bind, Option.bind_eq_some_iff] at htext
    obtain ⟨sig, -, values, -, htext⟩ := htext
    obtain rfl := Option.some.inj htext
    have hrender : Call.render ⟨c :: word, values⟩ =
        c :: ((word ++ '(' :: Text.join [',', ' '] values) ++ [')']) := by
      simp [Call.render]
    rw [hrender] at hinert ⊢
    exact ⟨hc, hinert.substitute (isWordChar_of_isWordStart hc)⟩

theorem Form.sprite {c : Char} {found : Found} {rest : Text} {f : SpriteFunction} {args : List Text}
    {binding : Option Binding} (h : Form functions c found rest) (hkind : found.kind = .sprite f args binding) :
    binding = none ∧ isWordStart c = true ∨ c = '$' ∧ f = .spriteMap ∧ ∃ b, binding = some b := by
  cases h with
  | imports => cases hkind
  | assign =>
    obtain ⟨hmap, hbinding⟩ := assignment_eq_sprite hkind
    exact .inr ⟨rfl, hmap, _, hbinding⟩
  | call _ hc _ _ hcall =>
    rcases callKind?_cases hcall with ⟨_, _, rfl⟩ | ⟨_, rfl⟩ <;> cases hkind
    exact .inl ⟨rfl, hc⟩

theorem Form.eq_of_assign {c : Char} {found : Found} {rest name lead value tail : Text} {flags : AssignFlags}
    (h : Form functions c found rest) (hkind : found.kind = .assign name lead value tail flags) : c = '$' := by
  cases h with
  | imports => cases hkind
  | assign => rfl
  | call _ _ _ _ hcall => exact absurd hkind (callKind?_ne_assign hcall)

theorem Form.atStatement_assign {c : Char} {found : Found} {rest : Text} (h : Form functions c found rest)
    (hc : c = '$') : found.atStatement = true := by
  cases h with
  | imports => rfl
  | assign => rfl
  | call _ hstart =>
    subst hc
    exact absurd hstart (by decide)

theorem Form.atStatement_call {c : Char} {found : Found} {rest : Text} (h : Form functions c found rest)
    (hc : isWordStart c = true) : found.atStatement = false := by
  cases h with
  | imports => exact absurd hc (by decide)
  | assign => exact absurd hc (by decide)
  | call => rfl

theorem Form.getLast?_call {c : Char} {found : Found} {rest : Text} (h : Form functions c found rest)
    (hc : isWordStart c = true) : (c :: found.tail).getLast? = some ')' := by
  cases h with
  | imports => exact absurd hc (by decide)
  | assign => exact absurd hc (by decide)
  | call _ _ _ hbody =>
    rw [← List.cons_append, List.getLast?_append, List.getLast?_cons, bracketTail_getLast? hbody]
    rfl

/-- Behind a call no word goes on, unless there is a semicolon in between. -/
theorem Strung.stops {d : Directive} {ds : List Directive} (h : Strung functions word statement (d :: ds))
    (hspaced : Spaced (d :: ds)) (hcall : d.isCall = true) :
    Stops continues (texts ds) ∨ d.raw.getLast? = some ';' := by
  cases h with
  | plain hkind =>
    rw [isCall, hkind] at hcall
    cases hcall
  | @act _ _ _ _ c found indent hkind hraw hadmits hindent hothers hform more =>
    have hlast : d.raw.getLast? = (c :: found.tail).getLast? := by
      rw [hraw, List.getLast?_append_of_ne_nil _ (List.cons_ne_nil _ _)]
    have hparen (hc : isWordStart c = true) : Stops continues (texts ds) := by
      cases ds with
      | nil => exact fun c hc => by cases hc
      | cons e ds =>
        have hstops := (List.isChain_cons_cons.1 hspaced).1 hcall (hlast.trans (hform.getLast?_call hc))
        intro x hx
        rw [texts_cons, head?_append_of_ne_nil more.raw_ne_nil] at hx
        exact hstops x hx
    cases hform with
    | imports =>
      rw [isCall, hkind] at hcall
      cases hcall
    | @assign name space gap body stop _ hname hword hspace hgap hbody hstatement hvalue =>
      rcases hstatement.ends with rfl | ⟨-, hbrace⟩
      · refine .inr (hlast.trans ?_)
        rw [← List.cons_append, List.getLast?_concat]
      · refine .inl fun x hx => ?_
        rcases hbrace x hx with rfl | rfl <;> rfl
    | call _ hc => exact .inl (hparen hc)

/-- Behind the indentation of a directive that starts with no word there is none in front either. -/
theorem stops_of_indent {indent t : Text} {c : Char} (hindent : ∀ b ∈ indent, isBlank b = true)
    (hc : isWordChar c = false) : Stops isWordChar (indent ++ c :: t) := by
  intro e he
  cases indent with
  | nil =>
    obtain rfl : c = e := by simpa using he
    exact hc
  | cons b indent =>
    obtain rfl : b = e := by simpa using he
    exact isWordChar_of_isAsciiSpace (isAsciiSpace_of_isBlank (hindent b List.mem_cons_self))

/-- A call is replaced by a substitute if no word goes on behind it. -/
theorem Abreast.substitute {c : Char} {found : Found} {s₀ rest t : Text} {admitted : Bool}
    (hform : Form functions c found s₀)
    (hadmits : if c = '@' ∨ c = '$' then admitted = true else word = false)
    (hc : isWordStart c = true) (ht : Substitute t)
    (hstops : Stops continues rest ∨ (c :: found.tail).getLast? = some ';')
    (h : Abreast out word statement (c :: found.tail ++ rest)) :
    Abreast (out ++ t) (endsWord (c :: found.tail)) found.atStatement rest := by
  obtain rfl : word = false := by
    rwa [if_neg] at hadmits
    rintro (rfl | rfl) <;> exact absurd hc (by decide)
  rw [hform.atStatement_call hc]
  refine h.call rfl hc ht (hstops.resolve_right ?_)
  rw [hform.getLast?_call hc]
  simp

/-- A quoted text can be put in place of anything. -/
theorem Abreast.quote {p r rest : Text} {word' : Bool} (hp : Enclosable p) (hne : r ≠ [])
    (hafter : word' = false ∨ Stops continues rest) (h : Abreast out word statement (r ++ rest)) :
    Abreast (out ++ Expand.quote p) word' false rest := by
  refine h.replace hne (by simp [Expand.quote]) (fun w _ => .quoted hp w) ?_ ?_ (hafter.imp_left ?_)
  · intro ts w _ _ _ c d _ hd
    obtain rfl : '"' = d := by simpa [Expand.quote] using hd
    simp [joins, isWordChar]
  · intro c d hc _
    rw [Expand.quote, List.getLast?_concat] at hc
    obtain rfl : '"' = c := by simpa using hc
    exact joins_of_isEnd rfl d
  · rintro rfl
    rw [Expand.quote, endsWord_of_isEnd List.getLast?_concat (c := '"') rfl]

/-- Where a value goes on with the text `rest`, one more directive of it is put out. -/
theorem Abreast.piece {d : Directive} {ds : List Directive} {rest : Text} {piece : Text × Bool}
    (hstrung : Strung options.functions word statement (d :: ds)) (htame : d.Tame options.functions)
    (hstops : d.isCall = true → Stops continues rest ∨ d.raw.getLast? = some ';')
    (hjoins : ∀ c e, d.raw.getLast? = some c → rest.head? = some e → joins c e = false)
    (hword : d.kind = .plain → word = false ∨ Stops isWordChar d.raw)
    (hquotes : ∀ f args b e s', d.kind = .sprite f args b →
      Returns (expandSprite options f args d.line []) s e s' → Expand.WellQuoted e.text)
    (hpiece : Returns (expandPiece options d) s piece s') (h : Abreast out word false (d.raw ++ rest)) :
    ∃ word' statement', Strung options.functions word' statement' ds ∧
      (word' = false ∨ Stops isWordChar (texts ds)) ∧ Abreast (out ++ piece.1) word' false rest := by
  unfold Tame at htame
  unfold expandPiece at hpiece
  cases hstrung with
  | @plain _ _ word' statement' _ _ ps hkind hraw hnext hwalk htokens more =>
    rw [hkind] at hpiece htame
    obtain ⟨rfl, -⟩ := returns_pure.1 hpiece
    refine ⟨word', statement', more, ?_, (h.plain hraw hwalk htokens ?_ hjoins).inside⟩
    · cases ds with
      | nil => exact .inr fun c hc => by cases hc
      | cons e ds => exact ((more.starts (hnext e rfl)).append _).word
    · rintro ts hts hcut -
      rw [hcut.eq_lexemes (hts ▸ hword hkind), hts]
      exact htame
  | @act _ _ _ _ c found indent hkind hraw hadmits hindent hothers hform more =>
    refine ⟨_, _, more, hform.endsWord_or_stops, ?_⟩
    have hlast : d.raw.getLast? = (c :: found.tail).getLast? := by
      rw [hraw, List.getLast?_append_of_ne_nil _ (List.cons_ne_nil _ _)]
    have hne : d.raw ≠ [] := by simp [hraw]
    have hcopy (hc : isWordChar c = false) (hinert : Inert d.raw) :
        Abreast (out ++ d.raw) (endsWord (c :: found.tail)) false rest := by
      have hstarts : Stops isWordChar d.raw := hraw ▸ stops_of_indent hindent hc
      have hends : endsWord d.raw = endsWord (c :: found.tail) := by rw [endsWord, hlast, endsWord]
      exact hends ▸ h.copy hne (hinert.fits.of_word hstarts word) hjoins
    have hcall {t : Text} (hc : isWordStart c = true) (hiscall : d.isCall = true) (ht : Substitute t) :
        Abreast (out ++ t) (endsWord (c :: found.tail)) false rest := by
      have hall : d.raw = c :: found.tail := by
        rw [hraw, hothers fun targets htargets => ?_, List.nil_append]
        rw [(hform.eq_of_imports htargets).1] at hc
        cases hc
      exact (Abreast.substitute hform hadmits hc ht (hall ▸ hstops hiscall) (hall ▸ h)).inside
    cases hfound : found.kind with
    | plain => exact absurd hfound hform.kind_ne_plain
    | imports targets =>
      rw [hkind, hfound] at hpiece htame
      obtain ⟨rfl, -⟩ := returns_pure.1 hpiece
      exact hcopy (by rw [(hform.eq_of_imports hfound).1]; rfl) htame
    | assign name lead value tail flags =>
      rw [hkind, hfound] at hpiece htame
      obtain ⟨rfl, -⟩ := returns_pure.1 hpiece
      exact hcopy (by rw [hform.eq_of_assign hfound]; rfl) htame
    | custom name args =>
      rw [hkind, hfound] at hpiece htame
      obtain ⟨text, s₁, htext, hpure⟩ := returns_bind.1 hpiece
      obtain ⟨rfl, -⟩ := returns_pure.1 hpure
      have hnormal := normalForm_of_returns htext
      obtain ⟨hc, hsubstitute⟩ := hform.substitute_custom hfound hnormal (htame text hnormal)
      exact hcall hc (by rw [isCall, hkind, hfound]) hsubstitute
    | sprite f args binding =>
      rw [hkind, hfound] at hpiece
      obtain ⟨e, s₁, he, hpure⟩ := returns_bind.1 hpiece
      obtain ⟨rfl, -⟩ := returns_pure.1 hpure
      have hwell := hquotes f args binding e s₁ (hkind.trans hfound) he
      have hiscall : d.isCall = true := by rw [isCall, hkind, hfound]
      rcases hform.sprite hfound with ⟨-, hc⟩ | ⟨rfl, rfl, -⟩
      · exact hcall hc hiscall (expandSprite_substitute (by simp) he hwell)
      · -- an assignment of a sprite map loses its name here
        obtain ⟨p, hp, henclosable⟩ := expandSprite_quoted he hwell
        rw [hp]
        refine h.quote henclosable hne ((hstops hiscall).symm.imp_left fun hend => ?_)
        exact endsWord_of_isEnd (hlast ▸ hend) rfl

theorem head?_append_cases {t u : Text} {c : Char} (h : (t ++ u).head? = some c) :
    t.head? = some c ∨ t = [] ∧ u.head? = some c := by
  cases t with
  | nil => exact .inr ⟨rfl, h⟩
  | cons d t => exact .inl h

/-- A value is put out without calls in front of the text `after`, with which it joins nothing. -/
theorem Abreast.directives {ds : List Directive} {after : Text} {result : Text × Bool}
    (hstrung : Strung options.functions word statement ds) (hspaced : Spaced ds)
    (htame : ∀ d ∈ ds, d.Tame options.functions) (hword : word = false ∨ Stops isWordChar (texts ds))
    (hafter : Stops continues after)
    (hjoins : ∀ c e, (texts ds).getLast? = some c → after.head? = some e → joins c e = false)
    (hquotes : ∀ e, Replaces options ds s e → Expand.WellQuoted e.text)
    (h : Abreast out word false (texts ds ++ after))
    (hreturns : Returns (expandDirectives options ds) s result s') :
    ∃ word', Abreast (out ++ result.1) word' false after := by
  induction ds generalizing out word statement s result with
  | nil =>
    obtain ⟨rfl, -⟩ := returns_pure.1 hreturns
    exact ⟨word, by simpa using h⟩
  | cons d ds ih =>
    rw [expandDirectives_cons] at hreturns
    obtain ⟨piece, s₁, hpiece, hreturns⟩ := returns_bind.1 hreturns
    obtain ⟨others, s₂, hothers, hreturns⟩ := returns_bind.1 hreturns
    obtain ⟨rfl, rfl⟩ := returns_pure.1 hreturns
    rw [texts_cons, List.append_assoc] at h
    -- what comes behind the directive is one of the others, or else the text `after`
    have hstops (hcall : d.isCall = true) : Stops continues (texts ds ++ after) ∨ d.raw.getLast? = some ';' := by
      refine (hstrung.stops hspaced hcall).imp_left fun hstops c hc => ?_
      rcases head?_append_cases hc with hc | ⟨-, hc⟩
      · exact hstops c hc
      · exact hafter c hc
    have hback (c e : Char) (hc : d.raw.getLast? = some c) (he : (texts ds ++ after).head? = some e) :
        joins c e = false := by
      rcases head?_append_cases he with he | ⟨hnil, he⟩
      · exact hstrung.joins_eq_false hc he
      · exact hjoins c e (by rwa [texts_cons, hnil, List.append_nil]) he
    have hfirst : d.kind = .plain → word = false ∨ Stops isWordChar d.raw := fun _ =>
      hword.imp_right fun hstops c hc =>
        hstops c (by rw [texts_cons, head?_append_of_ne_nil hstrung.raw_ne_nil, hc])
    obtain ⟨word', statement', hmore, hword', habreast⟩ := h.piece hstrung (htame d List.mem_cons_self)
      hstops hback hfirst (fun f args b e s'' hkind he => hquotes e (.here hkind he)) hpiece
    have hrest (c e : Char) (hc : (texts ds).getLast? = some c) (he : after.head? = some e) :
        joins c e = false := by
      refine hjoins c e ?_ he
      rw [texts_cons, List.getLast?_append, hc]
      rfl
    obtain ⟨word'', hall⟩ := ih hmore (List.isChain_of_isChain_cons hspaced)
      (fun e he => htame e (List.mem_cons_of_mem _ he)) hword' hrest
      (fun e he => hquotes e (.later hpiece he)) habreast hothers
    exact ⟨word'', by rwa [List.append_assoc] at hall⟩

end Scan

end StylePrep
