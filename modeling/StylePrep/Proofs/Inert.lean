import StylePrep.Proofs.Lexemes

/-!
# Texts without calls

A text is free of calls if no call of a sprite function starts at a lexeme of it, unless a
word goes on there. The property is kept when such texts are joined at a boundary between
lexemes (`Quiet.join`), and it holds of whatever a call of a sprite function is replaced by:
of quoted texts, of addresses with a quoted text, and of simple texts, in which each character
is a lexeme.
-/

namespace StylePrep

/-- The names of sprite functions are words. -/
theorem SpriteFunction.isWordChar_of_mem_name (f : SpriteFunction) :
    ∀ c ∈ f.name, Text.isWordChar c = true :=
  List.all_eq_true.1 (by cases f <;> decide)

theorem SpriteFunction.head?_name (f : SpriteFunction) :
    f.name.head? = some 's' ∨ f.name.head? = some 'i' := by
  cases f <;> decide

namespace Scan

open Text Delimited

/-- A call of a sprite function starts a text. -/
def StartsCall (t : Text) : Prop := ∃ f : SpriteFunction, f.name ++ ['('] <+: t

instance (t : Text) : Decidable (StartsCall t) :=
  decidable_of_iff ((SpriteFunction.all.any fun f => (f.name ++ ['(']).isPrefixOf t) = true) <| by
    simp only [List.any_eq_true, List.isPrefixOf_iff_prefix]
    exact ⟨fun ⟨f, _, hf⟩ => ⟨f, hf⟩, fun ⟨f, hf⟩ => ⟨f, f.mem_all, hf⟩⟩

theorem StartsCall.head {c : Char} {t : Text} (h : StartsCall (c :: t)) : c = 's' ∨ c = 'i' := by
  obtain ⟨f, rest, hf⟩ := h
  have hhead := congrArg List.head? hf
  rw [List.append_assoc, List.head?_append] at hhead
  rcases f.head?_name with hname | hname <;> rw [hname] at hhead
  · exact .inl (Option.some.inj hhead).symm
  · exact .inr (Option.some.inj hhead).symm

theorem StartsCall.mem {t : Text} (h : StartsCall t) : '(' ∈ t := by
  obtain ⟨f, hf⟩ := h
  exact hf.subset (by simp)

/-! ### Lexemes without calls -/

/-- No call starts at lexemes in front of the text `s`, unless a word goes on there. -/
def CallFree (s : Text) : Bool → List Text → Prop
  | _, [] => True
  | word, t :: ts => (word = false → ¬ StartsCall ((t :: ts).flatten ++ s)) ∧ CallFree s (endsWord t) ts

instance decidableCallFree (s : Text) : (word : Bool) → (ts : List Text) → Decidable (CallFree s word ts)
  | _, [] => .isTrue trivial
  | _, t :: ts =>
    have := decidableCallFree s (endsWord t) ts
    inferInstanceAs (Decidable (_ ∧ _))

/-- Lexemes in front of the text `s` at which no call starts. -/
structure Quiet (s : Text) (word : Bool) (ts : List Text) (word' : Bool) : Prop where
  cut : Cut s word ts word'
  callFree : CallFree s word ts

theorem Cut.callFree_append {s : Text} {word word' : Bool} {ts ts' : List Text}
    (h : Cut (ts'.flatten ++ s) word ts word') :
    CallFree s word (ts ++ ts') ↔ CallFree (ts'.flatten ++ s) word ts ∧ CallFree s word' ts' := by
  induction h with
  | done => simp [CallFree]
  | step htoken more ih => simp only [List.cons_append, CallFree, ih, and_assoc, List.flatten_cons,
      List.flatten_append, List.append_assoc]

theorem isWordChar_of_isWordStart {c : Char} (h : isWordStart c = true) : isWordChar c = true := by
  simp only [isWordStart, isWordChar, Char.isAlphanum, Bool.or_eq_true] at h ⊢
  rcases h with (h | h) | h <;> simp [h]

/-- What joins a character of a word is a word. -/
theorem isWordChar_of_joins {c d : Char} (hd : isWordChar d = true) (h : joins c d = true) :
    isWordChar c = true := by
  have hne (e : Char) (he : isWordChar e = false) : d ≠ e := by
    rintro rfl
    simp [he] at hd
  simp only [joins, Bool.or_eq_true, Bool.and_eq_true, beq_iff_eq] at h
  rcases h with (⟨-, rfl | rfl⟩ | ⟨-, rfl⟩) | ⟨hc, -⟩
  · exact absurd rfl (hne '/' (by decide))
  · exact absurd rfl (hne '*' (by decide))
  · exact absurd rfl (hne '{' (by decide))
  · exact hc

/-- Whether a word comes before matters to words only. -/
theorem Cut.of_word {s : Text} {word word' : Bool} {c : Char} {t : Text} {ts : List Text}
    (h : Cut s word ((c :: t) :: ts) word') (hc : isWordChar c = false) (word₁ : Bool) :
    Cut s word₁ ((c :: t) :: ts) word' := by
  cases h with
  | step htoken more =>
    refine .step (htoken.of_word ?_) more
    rintro rfl
    cases hc

/-- Lexemes are found again in their text. -/
theorem Cut.eq_lexemes {s : Text} {word word' : Bool} {ts : List Text} (h : Cut s word ts word')
    (hword : word = false ∨ Stops isWordChar ts.flatten) : ts = lexemes false ts.flatten := by
  have hcut : Cut [] false ts word' ∨ ts = [] := by
    have halone : Cut [] word ts word' := h.congr (fun c d _ hd => by cases hd) fun _ _ d hd => by cases hd
    rcases hword with rfl | hstops
    · exact .inl halone
    · cases ts with
      | nil => exact .inr rfl
      | cons t ts =>
        obtain ⟨c, t, rfl⟩ := List.exists_cons_of_ne_nil (h.ne_nil_of_mem List.mem_cons_self)
        exact .inl (halone.of_word (hstops c rfl) false)
  rcases hcut with hcut | rfl
  · have hlexemes := hcut.lexemes_eq
    rw [List.append_nil] at hlexemes
    rw [hlexemes, lexemes, List.append_nil]
  · simp [lexemes]

namespace Quiet

variable {s s' : Text} {word word' word'' : Bool} {ts ts' : List Text}

theorem nil (s : Text) (word : Bool) : Quiet s word [] word := ⟨.done word, trivial⟩

theorem single {c : Char} {tail : Text} {effect : Effect} (h : Token word c tail effect s)
    (hcall : word = false → ¬ StartsCall (c :: (tail ++ s))) :
    Quiet s word [c :: tail] (endsWord (c :: tail)) :=
  ⟨.step h (.done _), by simpa using hcall, trivial⟩

theorem append (h : Quiet (ts'.flatten ++ s) word ts word') (h' : Quiet s word' ts' word'') :
    Quiet s word (ts ++ ts') word'' :=
  ⟨h.cut.append h'.cut, h.cut.callFree_append.2 ⟨h.callFree, h'.callFree⟩⟩

/-- In front of another text that joins none of the lexemes no call starts either. -/
theorem congr (h : Quiet s word ts word') (hsealed : Sealed ts s')
    (hline : ∀ body, ts.getLast? = some ('/' :: '/' :: body) → Stops (· != '\n') s') :
    Quiet s' word ts word' := by
  refine ⟨h.cut.congr hsealed hline, ?_⟩
  obtain ⟨hcut, hfree⟩ := h
  induction hcut with
  | done => trivial
  | @step word word' c tail effect ts htoken more ih =>
    have hlast (t : Text) (h : ts.getLast? = some t) : ((c :: tail) :: ts).getLast? = some t := by
      rw [List.getLast?_cons, h]
      rfl
    obtain ⟨hcall, hfree⟩ := hfree
    refine ⟨fun hword => ?_, ih (fun d e hd => hsealed d e (hlast _ hd))
      (fun body hbody => hline body (hlast _ hbody)) hfree⟩
    rintro ⟨f, hf⟩
    have hfront := (Cut.step htoken more).isPrefix_of_sealed (List.cons_ne_nil _ _) hsealed
      f.isWordChar_of_mem_name hf
    exact hcall hword ⟨f, hfront.trans (List.prefix_append _ _)⟩

/-- Two texts joined at a boundary. -/
theorem join (h : Quiet s word ts word') (h' : Quiet [] word' ts' word'') (hclosed : Closed ts)
    (hsealed : Sealed ts ts'.flatten) : Quiet [] word (ts ++ ts') word'' := by
  refine append ?_ h'
  rw [List.append_nil]
  exact h.congr hsealed fun body hbody => absurd hbody (hclosed body)

/-- Whether a word comes before matters to words only. -/
theorem of_word {c : Char} {t : Text} (h : Quiet s word ((c :: t) :: ts) word')
    (hc : isWordChar c = false) (word₁ : Bool) : Quiet s word₁ ((c :: t) :: ts) word' := by
  refine ⟨h.cut.of_word hc word₁, fun _ hcall => ?_, h.callFree.2⟩
  rcases StartsCall.head hcall with rfl | rfl <;> cases hc

end Quiet

/-! ### Simple texts -/

/-- A character that is a lexeme on its own wherever no parenthesis follows. -/
def isSimple (c : Char) : Bool := !(isQuote c || c == '/' || c == '#' || c == '(')

theorem isSimple_of_isWordChar {c : Char} (h : isWordChar c = true) : isSimple c = true := by
  have hne (d : Char) (hd : isWordChar d = false) : c ≠ d := by
    rintro rfl
    simp [hd] at h
  simp [isSimple, isQuote, hne '"' (by decide), hne '\'' (by decide), hne '/' (by decide),
    hne '#' (by decide), hne '(' (by decide)]

theorem isSimple_of_isSpace {c : Char} (h : isSpace c = true) : isSimple c = true := by
  have hne (d : Char) (hd : isSpace d = false) : c ≠ d := by
    rintro rfl
    simp [hd] at h
  simp [isSimple, isQuote, hne '"' (by decide), hne '\'' (by decide), hne '/' (by decide),
    hne '#' (by decide), hne '(' (by decide)]

/-- Its characters, each a lexeme. -/
def letters (t : Text) : List Text := t.map fun c => [c]

@[simp] theorem flatten_letters (t : Text) : (letters t).flatten = t := by
  induction t with
  | nil => rfl
  | cons c t ih => exact congrArg (c :: ·) ih

theorem closed_letters (t : Text) : Closed (letters t) := by
  intro body h
  rw [letters, List.getLast?_map, Option.map_eq_some_iff] at h
  obtain ⟨d, -, heq⟩ := h
  cases heq

theorem Quiet.of_simple {t : Text} (ht : ∀ c ∈ t, isSimple c = true) (word : Bool) :
    ∃ word', Quiet [] word (letters t) word' := by
  induction t generalizing word with
  | nil => exact ⟨word, .nil [] word⟩
  | cons c t ih =>
    obtain ⟨hc, ht⟩ := List.forall_mem_cons.1 ht
    obtain ⟨word', hrest⟩ := ih ht (endsWord [c])
    have hparen : '(' ∉ c :: t := by
      rintro hmem
      rcases List.mem_cons.1 hmem with rfl | hmem
      · exact absurd hc (by decide)
      · exact absurd (ht _ hmem) (by decide)
    simp only [isSimple, Bool.not_eq_true', Bool.or_eq_false_iff, beq_eq_false_iff_ne] at hc
    have htoken : Token word c [] (effectOf c) t := by
      refine .single (fun h => hc.1.1.2 h.1) (fun h => hc.1.1.2 h.1) (by simp [hc.1.1.1])
        (fun h => hc.1.2 h.1) ?_
      rintro ⟨h, -⟩
      obtain ⟨inner, hinner⟩ := Option.isSome_iff_exists.1 h
      exact hparen (after?_eq_some_iff.1 hinner ▸ by simp)
    have hfirst : Quiet ((letters t).flatten ++ []) word [[c]] (endsWord [c]) := by
      rw [flatten_letters, List.append_nil]
      exact .single htoken fun _ hcall => hparen hcall.mem
    exact ⟨word', hfirst.append hrest⟩

/-! ### Quoted texts -/

/-- A text that can stand in double quotes. -/
def Enclosable (p : Text) : Prop := '"' ∉ p ∧ '\\' ∉ p ∧ '\n' ∉ p

theorem Enclosable.stringTail {p : Text} (h : Enclosable p) (rest : Text) :
    stringTail '"' (p ++ '"' :: rest) = some (p ++ ['"']) := by
  induction p with
  | nil => simp [Delimited.stringTail]
  | cons c p ih =>
    obtain ⟨⟨hquote, hq⟩, ⟨hslash, hs⟩, ⟨hline, hl⟩⟩ : ('"' ≠ c ∧ '"' ∉ p) ∧ ('\\' ≠ c ∧ '\\' ∉ p) ∧
        ('\n' ≠ c ∧ '\n' ∉ p) := by simpa [Enclosable] using h
    rw [List.cons_append, Delimited.stringTail, if_neg (Ne.symm hline), if_neg (Ne.symm hquote), ih ⟨hq, hs, hl⟩]
    · rfl
    · exact fun h => hslash h.symm

theorem Quiet.quoted {p : Text} (h : Enclosable p) (word : Bool) :
    Quiet [] word [Expand.quote p] false := by
  have htoken : Token word '"' (p ++ ['"']) .enters [] :=
    .string [] (by decide) (by simpa using h.stringTail [])
  have hword : endsWord ('"' :: (p ++ ['"'])) = false := by
    simp [endsWord, List.getLast?_cons, isWordChar]
  have hquiet := Quiet.single htoken fun _ hcall => by
    rcases hcall.head with h | h <;> cases h
  rwa [hword] at hquiet

theorem Quiet.address {p : Text} (h : Enclosable p) :
    Quiet [] false [Expand.url (Expand.quote p)] false := by
  have hparen : parenTail (Expand.quote p ++ [')']) = some (Expand.quote p ++ [')']) := by
    have hstring := h.stringTail [')']
    simp [Expand.quote, parenTail, bracketTail, isQuote, hstring]
  have htoken : Token false 'u' ("rl(".toList ++ (Expand.quote p ++ [')'])) .enters [] :=
    .url [] rfl hparen
  have hword : endsWord ('u' :: ("rl(".toList ++ (Expand.quote p ++ [')']))) = false := by
    rw [endsWord, List.getLast?_cons, List.getLast?_append, List.getLast?_append]
    rfl
  have hquiet := Quiet.single htoken fun _ hcall => by
    rcases hcall.head with h | h <;> cases h
  rw [hword] at hquiet
  simpa [Expand.url] using hquiet

end Scan

end StylePrep
