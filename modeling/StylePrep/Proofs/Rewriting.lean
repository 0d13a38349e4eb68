import StylePrep.Proofs.Replacement
import StylePrep.Proofs.Trimmed
import StylePrep.Proofs.Values

/-!
# Directives with calls replaced

What is put out for a directive of a sheet, imports apart, keeps the output without calls
(`Abreast.directive`). Calls are replaced by texts without calls. Of an assignment the value is
rewritten, and what stands around it is simple text.
-/

namespace StylePrep

namespace Scan

open Text Delimited Directive Assembly Step

variable {options : Options} {functions : FunctionTable} {s s' : Session} {out : Text}
variable {word statement : Bool}

/-! ### The ends of a value -/

/-- What can stand behind a value: white space, a flag, a semicolon or a brace. -/
def isBorder (c : Char) : Bool := isSpace c || c == '!' || c == ';' || c == '{' || c == '}'

theorem joins_of_isBorder {c d : Char} (h : isBorder d = true) (hbrace : c = '#' → d ≠ '{') :
    joins c d = false := by
  rw [Bool.eq_false_iff]
  intro hjoins
  have hne (e : Char) (he : isBorder e = false) : d ≠ e := by
    rintro rfl
    simp [he] at h
  have hword : isWordChar d = false := by
    simp only [isBorder, Bool.or_eq_true, beq_iff_eq] at h
    rcases h with (((h | rfl) | rfl) | rfl) | rfl
    · exact isWordChar_of_isSpace h
    all_goals rfl
  simp only [joins, Bool.or_eq_true, Bool.and_eq_true, beq_iff_eq, hword] at hjoins
  rcases hjoins with (⟨-, rfl | rfl⟩ | ⟨hc, hd⟩) | ⟨-, hfalse | rfl⟩
  · exact hne '/' (by decide) rfl
  · exact hne '*' (by decide) rfl
  · exact hbrace hc hd
  · cases hfalse
  · exact hne '(' (by decide) rfl

theorem continues_of_isBorder {d : Char} (h : isBorder d = true) : continues d = false := by
  -- both would be joined by a word in front of them
  have hjoins := @joins_of_isBorder 'a' d h nofun
  simpa [joins, continues, show isWordChar 'a' = true by decide] using hjoins

/-- White space and flags stand behind a value. -/
theorem exists_flags (body : Text) : ∃ flags, body = (splitFlags body).1 ++ flags ∧
    (∀ c ∈ flags, isSimple c = true) ∧ ∀ c, flags.head? = some c → isBorder c = true ∧ c ≠ '{' := by
  -- one more flag behind the others
  have hmore {t rest value flags flag : Text} (hflag : before? flag (trimEnd t) = some rest)
      (hsimple : ∀ c ∈ flag, isSimple c = true) (hhead : flag.head? = some '!')
      (hrest : rest = value ++ flags) (hflags : ∀ c ∈ flags, isSimple c = true)
      (hborder : ∀ c, flags.head? = some c → isBorder c = true ∧ c ≠ '{') : ∃ flags, t = value ++ flags ∧
        (∀ c ∈ flags, isSimple c = true) ∧ ∀ c, flags.head? = some c → isBorder c = true ∧ c ≠ '{' := by
    obtain ⟨u, ht, hu⟩ := exists_spaces t
    rw [before?_eq_some_iff.1 hflag, hrest] at ht
    refine ⟨flags ++ (flag ++ u), by simpa using ht, ?_, fun c hc => ?_⟩
    · simp only [List.forall_mem_append]
      exact ⟨hflags, hsimple, fun c hc => isSimple_of_isSpace (hu c hc)⟩
    · rcases head?_append_cases hc with hc | ⟨-, hc⟩
      · exact hborder c hc
      · rw [List.head?_append, hhead] at hc
        obtain rfl : '!' = c := by simpa using hc
        decide
  fun_induction splitFlags body with
  | case1 t rest hd _ value flags hvalue ih =>
    rw [hvalue] at ih
    obtain ⟨others, hrest, hflags, hborder⟩ := ih
    exact hmore hd (List.all_eq_true.1 (by decide)) rfl hrest hflags hborder
  | case2 t _ rest hg _ value flags hvalue ih =>
    rw [hvalue] at ih
    obtain ⟨others, hrest, hflags, hborder⟩ := ih
    exact hmore hg (List.all_eq_true.1 (by decide)) rfl hrest hflags hborder
  | case3 t =>
    obtain ⟨u, ht, hu⟩ := exists_spaces t
    refine ⟨u, ht, fun c hc => isSimple_of_isSpace (hu c hc), fun c hc => ?_⟩
    have hspace := hu c (List.mem_of_mem_head? hc)
    refine ⟨by simp [isBorder, hspace], ?_⟩
    rintro rfl
    exact absurd hspace (by decide)

/-! ### Sprite maps -/

theorem bindingText_eq (binding : Binding) (value : Text) (terminated : Bool) : ∃ ending,
    bindingText binding value terminated = ('$' :: binding.name ++ ": ".toList) ++ (value ++ ending) ∧
      ∀ c ∈ ending, isSimple c = true := by
  have hif {p : Prop} [Decidable p] {t : Text} (ht : ∀ c ∈ t, isSimple c = true) :
      ∀ c ∈ (if p then t else []), isSimple c = true := by
    split
    · exact ht
    · exact fun c hc => by cases hc
  refine ⟨(if binding.flags.isDefault then " !default".toList else []) ++
    ((if binding.flags.isGlobal then " !global".toList else []) ++ if terminated then [';'] else []), ?_, ?_⟩
  · simp only [bindingText, List.append_assoc]
  · simp only [List.forall_mem_append]
    exact ⟨hif (List.all_eq_true.1 (by decide)), hif (List.all_eq_true.1 (by decide)),
      hif (List.all_eq_true.1 (by decide))⟩

theorem bindingText_true (binding : Binding) (value : Text) :
    bindingText binding value true = bindingText binding value false ++ [';'] := by
  rw [bindingText, bindingText, if_pos rfl, if_neg Bool.false_ne_true, List.append_nil]

theorem fits_bindingText {binding : Binding} {p : Text} (hname : ∀ c ∈ binding.name, isWordChar c = true)
    (hp : Enclosable p) (terminated word : Bool) :
    Fits word (bindingText binding (Expand.quote p) terminated) := by
  obtain ⟨ending, heq, hending⟩ := bindingText_eq binding (Expand.quote p) terminated
  have hlead : ∀ c ∈ '$' :: binding.name ++ ": ".toList, isSimple c = true := by
    simp only [List.cons_append, List.forall_mem_cons, List.forall_mem_append]
    exact ⟨rfl, fun c hc => isSimple_of_isWordChar (hname c hc), List.all_eq_true.1 (by decide)⟩
  have hvalue (word : Bool) : Fits word (Expand.quote p ++ ending) := by
    refine (Fits.quoted hp word).append (fun word' => .simple hending word') fun c d hc _ => ?_
    rw [Expand.quote, List.getLast?_concat] at hc
    obtain rfl : '"' = c := by simpa using hc
    exact joins_of_isEnd rfl d
  rw [heq]
  refine (Fits.simple hlead word).append hvalue fun c d _ hd => ?_
  obtain rfl : '"' = d := by simpa [Expand.quote] using hd
  simp [joins, isWordChar]

theorem joins_bindingText {binding : Binding} {p : Text} {terminated : Bool} {c d : Char}
    (hc : (bindingText binding (Expand.quote p) terminated).getLast? = some c) (hd : isBorder d = true) :
    joins c d = false := by
  obtain ⟨ending, heq, hending⟩ := bindingText_eq binding (Expand.quote p) terminated
  refine joins_of_isBorder hd fun hc' => ?_
  subst hc'
  rw [heq, List.getLast?_append_of_ne_nil _ (by simp [Expand.quote])] at hc
  rcases getLast?_append_cases hc with ⟨-, hc⟩ | hc
  · rw [Expand.quote, List.getLast?_concat] at hc
    cases hc
  · exact absurd (hending '#' (List.mem_of_getLast? hc)) (by decide)

/-- What follows a statement, the semicolon that ends it included. -/
theorem Statement.isBorder {depth : Nat} {body stop rest : Text} (h : Statement depth body stop rest)
    {c : Char} (hc : (stop ++ rest).head? = some c) : isBorder c = true := by
  rcases h.ends with rfl | ⟨rfl, hbrace⟩
  · obtain rfl : ';' = c := by simpa using hc
    rfl
  · rcases hbrace c hc with rfl | rfl <;> rfl

/-- An assignment of a sprite map is replaced by one of its address. -/
theorem Abreast.binding {c : Char} {found : Found} {rest p : Text} {args : List Text} {binding : Binding}
    (hform : Form functions c found rest) (hkind : found.kind = .sprite .spriteMap args (some binding))
    (hp : Enclosable p) (h : Abreast out word statement (c :: found.tail ++ rest)) :
    Abreast (out ++ bindingText binding (Expand.quote p)
      (decide ((trimEnd (c :: found.tail)).getLast? = some ';'))) (endsWord (c :: found.tail)) true rest := by
  cases hform with
  | imports => cases hkind
  | @assign name space gap body stop rest hname hword hspace hgap hbody hstatement hvalue =>
    obtain rfl : binding = ⟨name, (splitFlags body).2⟩ := Option.some.inj (assignment_eq_sprite hkind).2
    -- the new text takes the place of all but the semicolon
    have hreplace (terminated word' : Bool) :
        Abreast (out ++ bindingText ⟨name, (splitFlags body).2⟩ (Expand.quote p) terminated) word' false
          (stop ++ rest) := by
      have hassociate : '$' :: (name ++ space ++ ':' :: gap ++ body ++ stop) ++ rest =
          ('$' :: (name ++ space ++ ':' :: gap ++ body)) ++ (stop ++ rest) := by simp
      have hbinding : (bindingText ⟨name, (splitFlags body).2⟩ (Expand.quote p) terminated).head? = some '$' := rfl
      refine (hassociate ▸ h).replace (List.cons_ne_nil _ _) (List.cons_ne_nil _ _)
        (fun w _ => fits_bindingText hword hp terminated w) (fun ts w _ _ hsealed => hsealed.congr rfl)
        (fun x y hx hy => joins_bindingText hx (hstatement.isBorder hy)) (.inr fun x hx => ?_)
      exact continues_of_isBorder (hstatement.isBorder hx)
    rcases hstatement.ends with rfl | ⟨rfl, hbrace⟩
    · have hterminated : (trimEnd ('$' :: (name ++ space ++ ':' :: gap ++ body ++ [';']))).getLast? = some ';' := by
        rw [← List.cons_append, trimEnd_concat _ rfl, List.getLast?_concat]
      have hfalse : endsWord ('$' :: (name ++ space ++ ':' :: gap ++ body ++ [';'])) = false := by
        refine @endsWord_of_isEnd _ ';' ?_ rfl
        rw [← List.cons_append, List.getLast?_concat]
      have hall : Abreast _ false true rest := (hreplace false false).stop (.inl rfl) fun _ => rfl
      rwa [hfalse, decide_eq_true hterminated, bindingText_true, ← List.append_assoc]
    · rw [← List.append_nil (out ++ _)]
      exact (hreplace _ false).stop (.inr ⟨rfl, hbrace⟩) nofun
  | call _ _ _ _ hcall =>
    rcases callKind?_cases hcall with ⟨_, _, rfl⟩ | ⟨_, rfl⟩ <;> cases hkind

/-! ### Values -/

/-- What stands in front of a value is copied. -/
theorem Abreast.lead {name space gap rest : Text} (hname : ∀ c ∈ name, isWordChar c = true)
    (hspace : ∀ c ∈ space, isAsciiSpace c = true) (hgap : ∀ c ∈ gap, isAsciiSpace c = true)
    (h : Abreast out word statement ('$' :: (name ++ space ++ ':' :: gap) ++ rest)) :
    Abreast (out ++ '$' :: (name ++ space ++ ':' :: gap)) false false rest := by
  have hblank {t : Text} (ht : ∀ c ∈ t, isAsciiSpace c = true) (c : Char) (hc : c ∈ t) : isSimple c = true :=
    isSimple_of_isSpace (isSpace_of_isAsciiSpace (ht c hc))
  have hsimple : ∀ c ∈ '$' :: (name ++ space ++ ':' :: gap), isSimple c = true := by
    simp only [List.forall_mem_cons, List.forall_mem_append]
    exact ⟨rfl, ⟨fun c hc => isSimple_of_isWordChar (hname c hc), hblank hspace⟩, rfl, hblank hgap⟩
  have hend (c : Char) (hc : ('$' :: (name ++ space ++ ':' :: gap)).getLast? = some c) : isEnd c = true := by
    rw [← List.cons_append, List.getLast?_append_of_ne_nil _ (List.cons_ne_nil _ _)] at hc
    rcases getLast?_append_cases (x := [':']) hc with ⟨-, hc⟩ | hc
    · obtain rfl : ':' = c := by simpa using hc
      rfl
    · simp [isEnd, hgap c (List.mem_of_getLast? hc)]
  have hlast := List.getLast?_eq_some_getLast (List.cons_ne_nil '$' (name ++ space ++ ':' :: gap))
  have hcopy := h.copy (List.cons_ne_nil _ _) (.simple hsimple word)
    fun c d hc _ => joins_of_isEnd (hend c hc) d
  rwa [endsWord_of_isEnd hlast (hend _ hlast)] at hcopy

/-- Flags are copied. -/
theorem Abreast.flags {ending rest : Text} (hsimple : ∀ c ∈ ending, isSimple c = true)
    (hrest : ∀ c, rest.head? = some c → isBorder c = true) (h : Abreast out word false (ending ++ rest)) :
    ∃ word', Abreast (out ++ ending) word' false rest := by
  by_cases hnil : ending = []
  · subst hnil
    exact ⟨word, by simpa using h⟩
  · refine ⟨_, h.copy hnil (.simple hsimple word) fun c d hc hd => joins_of_isBorder (hrest d hd) ?_⟩
    rintro rfl
    exact absurd (hsimple '#' (List.mem_of_getLast? hc)) (by decide)

/-- Of an assignment only the value is rewritten. -/
theorem Abreast.assign {c : Char} {found : Found} {rest : Text} {name lead value tail : Text}
    {flags : AssignFlags} {text : Text} (hform : Form functions c found rest)
    (hkind : found.kind = .assign name lead value tail flags)
    (hvalue : ∀ out after, Stops continues after →
      (∀ x y, value.getLast? = some x → after.head? = some y → joins x y = false) →
      Abreast out false false (value ++ after) → ∃ word', Abreast (out ++ text) word' false after)
    (h : Abreast out word statement (c :: found.tail ++ rest)) :
    Abreast (out ++ (lead ++ text ++ tail)) (endsWord (c :: found.tail)) true rest := by
  cases hform with
  | imports => cases hkind
  | @assign name' space gap body stop rest hname hword hspace hgap hbody hstatement hne =>
    obtain ⟨ending, hending, hsimple, hborder⟩ := exists_flags body
    have hdrop : body.drop (splitFlags body).1.length = ending := by
      have hlength := congrArg (List.drop (splitFlags body).1.length) hending
      rwa [List.drop_left] at hlength
    obtain ⟨-, rfl, rfl, htail, -⟩ := assignment_eq_assign hkind
    obtain rfl : tail = ending ++ stop := hdrop ▸ htail
    have htext : '$' :: (name' ++ space ++ ':' :: gap ++ body ++ stop) ++ rest =
        '$' :: (name' ++ space ++ ':' :: gap) ++ ((splitFlags body).1 ++ (ending ++ (stop ++ rest))) := by
      rw [← List.append_assoc (splitFlags body).1, ← hending]
      simp
    -- what stands behind the value joins nothing
    have hafter {c : Char} (hc : (ending ++ (stop ++ rest)).head? = some c) : isBorder c = true := by
      rcases head?_append_cases hc with hc | ⟨-, hc⟩
      · exact (hborder c hc).1
      · exact hstatement.isBorder hc
    have hjoins (x y : Char) (hx : (splitFlags body).1.getLast? = some x)
        (hy : (ending ++ (stop ++ rest)).head? = some y) : joins x y = false := by
      refine joins_of_isBorder (hafter hy) ?_
      rintro rfl rfl
      rcases head?_append_cases hy with hy | ⟨rfl, hy⟩
      · exact (hborder _ hy).2 rfl
      · rcases hstatement.ends with rfl | ⟨rfl, -⟩
        · cases hy
        · rw [List.append_nil] at hending
          exact hstatement.getLast?_ne rfl hy (hending ▸ hx)
    obtain ⟨word₁, hmiddle⟩ := hvalue _ _ (fun c hc => continues_of_isBorder (hafter hc)) hjoins
      (Abreast.lead hword hspace hgap (htext ▸ h))
    obtain ⟨word₂, hback⟩ := hmiddle.flags hsimple fun c => hstatement.isBorder
    rw [← List.append_assoc, ← List.append_assoc, ← List.append_assoc]
    refine hback.stop hstatement.ends ?_
    rintro rfl
    refine @endsWord_of_isEnd _ ';' ?_ rfl
    rw [← List.cons_append, List.getLast?_concat]
  | call _ _ _ _ hcall => exact absurd hkind (callKind?_ne_assign hcall)

/-! ### Directives -/

/-- A value in which what is put out for all directives stands for itself. -/
structure TameValue (functions : FunctionTable) (line : Nat) (value : Text) : Prop where
  spaced : Spaced (scanText functions .expression line value).directives
  tame : ∀ d ∈ (scanText functions .expression line value).directives, d.Tame functions

instance (functions : FunctionTable) (line : Nat) (value : Text) : Decidable (TameValue functions line value) :=
  decidable_of_iff (Spaced (scanText functions .expression line value).directives ∧
      ∀ d ∈ (scanText functions .expression line value).directives, d.Tame functions)
    ⟨fun ⟨spaced, tame⟩ => ⟨spaced, tame⟩, fun ⟨spaced, tame⟩ => ⟨spaced, tame⟩⟩

/-- What is put out for a directive of a sheet stands for itself, sprite functions apart. -/
def Orderly (functions : FunctionTable) (d : Directive) : Prop :=
  match d.kind with
  | .custom name args => ∀ text ∈ functions.normalForm? name args, Inert text
  | .assign _ _ value _ _ => TameValue functions d.line value
  | _ => True

instance (functions : FunctionTable) (d : Directive) : Decidable (Orderly functions d) :=
  match hkind : d.kind with
  | .custom name args =>
    decidable_of_iff (∀ text ∈ functions.normalForm? name args, Inert text) (by simp [Orderly, hkind])
  | .assign _ _ value _ _ => decidable_of_iff (TameValue functions d.line value) (by simp [Orderly, hkind])
  | .plain => .isTrue (by simp [Orderly, hkind])
  | .sprite .. => .isTrue (by simp [Orderly, hkind])
  | .imports _ => .isTrue (by simp [Orderly, hkind])

/-- A value in which nothing is a call is put together again. -/
theorem text_of_unchanged {ds : List Directive} {text : Text}
    (h : Returns (expandDirectives options ds) s (text, false) s') : text = texts ds := by
  induction ds generalizing s s' text with
  | nil => exact congrArg Prod.fst (returns_pure.1 h).1
  | cons d ds ih =>
    rw [expandDirectives_cons] at h
    obtain ⟨piece, s₁, hpiece, h⟩ := returns_bind.1 h
    obtain ⟨⟨others, changed⟩, s₂, hothers, h⟩ := returns_bind.1 h
    obtain ⟨hresult, -⟩ := returns_pure.1 h
    obtain ⟨htext, hchanged⟩ := Prod.mk.inj hresult
    obtain ⟨hfirst, rfl⟩ := Bool.or_eq_false_iff.1 hchanged.symm
    have hraw : piece.1 = d.raw := by
      unfold expandPiece at hpiece
      split at hpiece
      · obtain ⟨_, _, -, hpure⟩ := returns_bind.1 hpiece
        rw [(returns_pure.1 hpure).1] at hfirst
        cases hfirst
      · obtain ⟨_, _, -, hpure⟩ := returns_bind.1 hpiece
        rw [(returns_pure.1 hpure).1] at hfirst
        cases hfirst
      · rw [(returns_pure.1 hpiece).1]
    rw [htext, hraw, texts_cons, ← ih hothers]

/-- What a value is put out as, whether it is changed or not. -/
theorem directives_of_expandValue {value : Text} {line : Nat} {value? : Option Text}
    (h : Returns (expandValue options value line) s value? s') :
    (scanText options.functions .expression line value).error? = none ∧ ∃ changed s₁,
      Returns (expandDirectives options (scanText options.functions .expression line value).directives) s
        (value?.getD value, changed) s₁ := by
  obtain ⟨⟨text, changed⟩, s₁, hexpand, hend⟩ := returns_bind.1 h
  dsimp only at hend
  split at hend
  case h_1 => exact absurd hend not_returns_throw
  case h_2 herror =>
    refine ⟨herror, changed, s₁, ?_⟩
    obtain ⟨rfl, -⟩ := returns_pure.1 hend
    cases changed with
    | true => exact hexpand
    | false =>
      have htext := text_of_unchanged hexpand
      have hvalue : texts (scanText options.functions .expression line value).directives = value :=
        texts_scanFrom rfl herror
      rw [hvalue] at htext
      exact htext ▸ hexpand

theorem Abreast.directive {d : Directive} {ds : List Directive} {indent text : Text}
    (hstrung : Strung options.functions word statement (d :: ds)) (hspaced : Spaced (d :: ds))
    (horderly : Orderly options.functions d) (himports : ∀ targets, d.kind ≠ .imports targets)
    (hindent : ∀ c ∈ indent, isBlank c = true)
    (hquotes : ∀ f args b e s', d.kind = .sprite f args b →
      Returns (expandSprite options f args d.line indent) s e s' → Expand.WellQuoted e.text)
    (hvalues : ∀ name lead value tail flags, d.kind = .assign name lead value tail flags → ∀ e,
      Replaces options (scanText options.functions .expression d.line value).directives s e →
        Expand.WellQuoted e.text)
    (hreturns : Returns (replacement options d.line indent d.raw d.kind) s text s')
    (h : Abreast out word statement (d.raw ++ texts ds)) :
    ∃ word' statement', Strung options.functions word' statement' ds ∧
      Abreast (out ++ text) word' statement' (texts ds) := by
  have hback (c e : Char) (hc : d.raw.getLast? = some c) (he : (texts ds).head? = some e) :
      joins c e = false := hstrung.joins_eq_false hc he
  have hstops := hstrung.stops hspaced
  unfold Orderly at horderly
  cases hstrung with
  | @plain _ _ word' statement' _ _ ps hkind hraw hnext hwalk htokens more =>
    rw [hkind] at hreturns
    obtain ⟨rfl, -⟩ := returns_pure.1 hreturns
    refine ⟨word', statement', more, h.plain hraw hwalk htokens ?_ hback⟩
    intro ts hts hcut hne
    cases ds with
    | nil => exact absurd rfl hne
    | cons e ds => exact ((more.starts (hnext e rfl)).append _).closed hcut
  | @act _ _ _ _ c found _ hkind hraw hadmits _ hothers hform more =>
    refine ⟨_, _, more, ?_⟩
    have hnone : ∀ targets, found.kind ≠ .imports targets := hkind ▸ himports
    rw [hothers hnone, List.nil_append] at hraw
    rw [hraw] at h
    rw [hkind] at hreturns horderly
    have hcall {t : Text} (hc : isWordStart c = true) (hiscall : d.isCall = true) (ht : Substitute t) :
        Abreast (out ++ t) (endsWord (c :: found.tail)) found.atStatement (texts ds) :=
      Abreast.substitute hform hadmits hc ht (hraw ▸ hstops hiscall) h
    cases hfound : found.kind with
    | plain => exact absurd hfound hform.kind_ne_plain
    | imports targets => exact absurd hfound (hnone targets)
    | assign name lead value tail flags =>
      rw [hfound] at hreturns horderly
      obtain ⟨value?, s₁, hvalue, rfl⟩ :=
        returns_replacement_assign (hraw.trans (hform.assign_text hfound)) hreturns
      obtain ⟨herror, changed, s₂, hexpand⟩ := directives_of_expandValue hvalue
      rw [hform.atStatement_assign (hform.eq_of_assign hfound)]
      refine h.assign hform hfound fun out after hafter hjoins habreast => ?_
      have htexts : texts (scanText options.functions .expression d.line value).directives = value :=
        texts_scanFrom rfl herror
      rw [← htexts] at hjoins habreast
      exact habreast.directives (strung_of_scanText herror) horderly.spaced horderly.tame (.inl rfl) hafter
        hjoins (hvalues name lead value tail flags (hkind.trans hfound)) hexpand
    | custom name args =>
      rw [hfound] at hreturns horderly
      have hnormal := normalForm_of_returns hreturns
      obtain ⟨hc, hsubstitute⟩ := hform.substitute_custom hfound hnormal (horderly text hnormal)
      exact hcall hc (by rw [isCall, hkind, hfound]) hsubstitute
    | sprite f args binding =>
      rw [hfound] at hreturns
      rcases hform.sprite hfound with ⟨rfl, hc⟩ | ⟨hc, rfl, b, rfl⟩
      · obtain ⟨e, s₁, he, hpure⟩ := returns_bind.1 hreturns
        obtain ⟨rfl, -⟩ := returns_pure.1 hpure
        have hwell := hquotes f args none e s₁ (hkind.trans hfound) he
        exact hcall hc (by rw [isCall, hkind, hfound]) (expandSprite_substitute hindent he hwell)
      · obtain ⟨e, s₁, he, rfl⟩ := returns_replacement_bound hreturns
        have hwell := hquotes .spriteMap args (some b) e s₁ (hkind.trans hfound) he
        obtain ⟨p, hp, henclosable⟩ := expandSprite_quoted he hwell
        rw [hp, hraw, hform.atStatement_assign hc]
        exact h.binding hform hfound henclosable

end Scan

end StylePrep
