import StylePrep.Proofs.Includable

/-!
# Tokens and directives

The lexemes of a text are the tokens that a scan would step over if nothing in it were a
directive. A directive stands at a code position if a lexeme starts with it: then it is not
inside a string, a comment, `url(…)` or an interpolation.
-/

namespace StylePrep.Scan

open Text Delimited

variable {functions : FunctionTable}

/-- The tokens of a text, whatever directives are in it, up to one that is never closed. -/
def lexemes (word : Bool) : Text → List Text
  | [] => []
  | c :: t =>
    match token? word c t with
    | none => []
    | some (tail, _) => (c :: tail) :: lexemes (endsWord (c :: tail)) (t.drop tail.length)
termination_by t => t.length
decreasing_by
  simp only [List.length_drop, List.length_cons]
  omega

/-- Lexemes in front of the text `s`. -/
inductive Cut (s : Text) : Bool → List Text → Bool → Prop where
  | done (word : Bool) : Cut s word [] word
  | step {word word' : Bool} {c : Char} {tail : Text} {effect : Effect} {ts : List Text}
      (htoken : Token word c tail effect (ts.flatten ++ s))
      (more : Cut s (endsWord (c :: tail)) ts word') : Cut s word ((c :: tail) :: ts) word'

namespace Cut

variable {s : Text} {word word' word'' : Bool} {ts ts' : List Text}

theorem lexemes_eq (h : Cut s word ts word') :
    lexemes word (ts.flatten ++ s) = ts ++ lexemes word' s := by
  induction h with
  | done => rfl
  | @step word word' c tail effect ts htoken more ih =>
    rw [List.flatten_cons, List.append_assoc, List.cons_append, lexemes, htoken.token?]
    simp only [List.drop_left, ih, List.cons_append]

theorem append (h : Cut (ts'.flatten ++ s) word ts word') (h' : Cut s word' ts' word'') :
    Cut s word (ts ++ ts') word'' := by
  induction h with
  | done => exact h'
  | step htoken more ih =>
    rw [← List.append_assoc, ← List.flatten_append] at htoken
    exact .step htoken (ih h')

theorem split (h : Cut s word (ts ++ ts') word'') :
    ∃ word', Cut (ts'.flatten ++ s) word ts word' ∧ Cut s word' ts' word'' := by
  induction ts generalizing word with
  | nil => exact ⟨word, .done word, h⟩
  | cons t ts ih =>
    cases h with
    | step htoken more =>
      obtain ⟨word', hfront, hback⟩ := ih more
      rw [List.append_eq, List.flatten_append, List.append_assoc] at htoken
      exact ⟨word', .step htoken hfront, hback⟩

theorem ne_nil_of_mem (h : Cut s word ts word') {t : Text} (ht : t ∈ ts) : t ≠ [] := by
  induction h with
  | done => cases ht
  | step htoken more ih =>
    rcases List.mem_cons.1 ht with rfl | ht
    · exact List.cons_ne_nil _ _
    · exact ih ht

/-- Whether a word comes before is seen from the text that is cut. -/
theorem word_eq (h : Cut s word ts word') (hts : ts ≠ []) : word' = endsWord ts.flatten := by
  induction h with
  | done => exact absurd rfl hts
  | @step word word' c tail effect ts htoken more ih =>
    cases more with
    | done => simp
    | @step _ _ d tail' _ ts' htoken' more' =>
      rw [ih (List.cons_ne_nil _ _), List.flatten_cons (l := c :: tail), endsWord, endsWord,
        List.getLast?_append]
      simp [List.getLast?_cons]

end Cut

/-- The lexemes of a text, in front of the rest of it. -/
theorem exists_cut (word : Bool) (t : Text) :
    ∃ s word', t = (lexemes word t).flatten ++ s ∧ Cut s word (lexemes word t) word' := by
  fun_induction lexemes word t with
  | case1 word => exact ⟨[], word, rfl, .done word⟩
  | case2 word c t => exact ⟨c :: t, word, rfl, .done word⟩
  | case3 word c t tail effect htoken ih =>
    obtain ⟨rest, rfl, hfirst⟩ := token_of_token? htoken
    rw [List.drop_left] at ih ⊢
    obtain ⟨s, word', hrest, hcut⟩ := ih
    rw [hrest] at hfirst
    refine ⟨s, word', ?_, .step hfirst hcut⟩
    conv_lhs => rw [hrest]
    simp

/-! ### Lexemes in front of another text -/

/-- Whether a character behind another one can make a token of both. -/
def joins (c d : Char) : Bool :=
  c == '/' && (d == '/' || d == '*') || c == '#' && d == '{' || isWordChar c && (isWordChar d || d == '(')

/-- A text that joins no token with the last of the lexemes in front of it. -/
def Sealed (ts : List Text) (s : Text) : Prop :=
  ∀ c d, ts.getLast? = some [c] → s.head? = some d → joins c d = false

theorem Sealed.of_getLast? {ts : List Text} {s : Text}
    (h : ∀ c d, ts.flatten.getLast? = some c → s.head? = some d → joins c d = false) : Sealed ts s := by
  intro c d hc hd
  obtain ⟨ts, rfl⟩ := List.getLast?_eq_some_iff.1 hc
  exact h c d (by simp) hd

/-- The tokens of more than one character are no words. -/
theorem Token.tail_eq_nil {word : Bool} {c : Char} {tail rest : Text} {effect : Effect}
    (h : Token word c tail effect rest) (hword : ∀ d ∈ c :: tail, isWordChar d = true) : tail = [] := by
  cases h with
  | lineComment => exact absurd (hword '/' List.mem_cons_self) (by decide)
  | blockComment => exact absurd (hword '/' List.mem_cons_self) (by decide)
  | string _ hc =>
    simp only [isQuote, Bool.or_eq_true, beq_iff_eq] at hc
    rcases hc with rfl | rfl <;> exact absurd (hword _ List.mem_cons_self) (by decide)
  | interpolation => exact absurd (hword '#' List.mem_cons_self) (by decide)
  | url => exact absurd (hword '(' (by simp)) (by decide)
  | single => rfl

namespace Cut

variable {s s' : Text} {word word' : Bool} {ts : List Text}

theorem token_of_getLast? (h : Cut s word ts word') {t : Text} (ht : ts.getLast? = some t) :
    ∃ word c tail effect, t = c :: tail ∧ Token word c tail effect s := by
  obtain ⟨ts, rfl⟩ := List.getLast?_eq_some_iff.1 ht
  obtain ⟨word₁, -, hlast⟩ := h.split
  cases hlast with
  | step htoken more =>
    cases more
    exact ⟨_, _, _, _, rfl, htoken⟩

/-- No word in front of a parenthesis goes on across a boundary. -/
theorem isPrefix_of_sealed (h : Cut s word ts word') (hne : ts ≠ []) (hsealed : Sealed ts s') {name : Text}
    (hname : ∀ c ∈ name, isWordChar c = true) (hcall : name ++ ['('] <+: ts.flatten ++ s') :
    name ++ ['('] <+: ts.flatten := by
  rcases List.prefix_or_prefix_of_prefix hcall (List.prefix_append ts.flatten s') with hfront | ⟨y, hy⟩
  · exact hfront
  · rcases List.eq_nil_or_concat y with rfl | ⟨y, b, rfl⟩
    · rw [List.append_nil] at hy
      exact hy ▸ List.prefix_rfl
    · -- the last lexeme would be part of the name, and joined by the rest of it
      exfalso
      rw [List.concat_eq_append, ← List.append_assoc] at hy
      obtain ⟨rfl, hb⟩ := List.append_inj' hy rfl
      rw [List.append_assoc, List.prefix_append_right_inj] at hcall
      obtain ⟨t, ht⟩ : ∃ t, ts.getLast? = some t := ⟨_, List.getLast?_eq_some_getLast hne⟩
      have hword : ∀ d ∈ t, isWordChar d = true := fun d hd =>
        hname d (List.mem_append_left _ (List.mem_flatten.2 ⟨t, List.mem_of_getLast? ht, hd⟩))
      obtain ⟨_, c, tail, _, rfl, htoken⟩ := h.token_of_getLast? ht
      obtain rfl := htoken.tail_eq_nil hword
      obtain ⟨more, rfl⟩ := hcall
      have hc := hword c List.mem_cons_self
      cases y with
      | nil => exact absurd (hsealed c '(' ht rfl) (by simp [joins, hc])
      | cons d y => exact absurd (hsealed c d ht rfl) (by simp [joins, hc, hname d (by simp)])

/-- Lexemes stay lexemes in front of another text that joins none of them. -/
theorem congr (h : Cut s word ts word') (hsealed : Sealed ts s')
    (hline : ∀ body, ts.getLast? = some ('/' :: '/' :: body) → Stops (· != '\n') s') :
    Cut s' word ts word' := by
  induction h with
  | done word => exact .done word
  | @step word word' c tail effect ts htoken more ih =>
    have hlast (t : Text) (h : ts.getLast? = some t) : ((c :: tail) :: ts).getLast? = some t := by
      rw [List.getLast?_cons, h]
      rfl
    refine @step _ _ _ _ _ effect _ ?_ (ih (fun d e hd => hsealed d e (hlast _ hd))
      fun body hbody => hline body (hlast _ hbody))
    have hcut := Cut.step htoken more
    generalize hrest : ts.flatten ++ s = rest at htoken
    -- what comes behind a token of one character is the same, unless it is the last
    have hhead {d : Char} (htail : tail = []) (hjoins : joins c d = true)
        (h : (ts.flatten ++ s').head? = some d) : rest.head? = some d := by
      subst hrest htail
      cases ts with
      | nil => exact absurd (hsealed c d rfl h) (by simp [hjoins])
      | cons t ts =>
        obtain ⟨e, t, rfl⟩ := List.exists_cons_of_ne_nil (more.ne_nil_of_mem List.mem_cons_self)
        exact h
    cases htoken with
    | @lineComment body _ hbody hstop =>
      refine .lineComment hbody ?_
      cases ts with
      | nil => exact hline body rfl
      | cons t ts =>
        obtain ⟨e, t, rfl⟩ := List.exists_cons_of_ne_nil (more.ne_nil_of_mem List.mem_cons_self)
        exact stops_congr (by rw [← hrest]; rfl) hstop
    | blockComment _ hbody => exact .blockComment _ hbody
    | string _ hc hbody => exact .string _ hc hbody
    | interpolation _ hbody => exact .interpolation _ hbody
    | url _ hword hbody => exact .url _ hword hbody
    | single hslash hstar hquote hbrace hurl =>
      refine .single ?_ ?_ hquote ?_ ?_
      · rintro ⟨rfl, h⟩
        exact hslash ⟨rfl, hhead rfl (by decide) h⟩
      · rintro ⟨rfl, h⟩
        exact hstar ⟨rfl, hhead rfl (by decide) h⟩
      · rintro ⟨rfl, h⟩
        exact hbrace ⟨rfl, hhead rfl (by decide) h⟩
      · rintro ⟨h, hword⟩
        obtain ⟨inner, hinner⟩ := Option.isSome_iff_exists.1 h
        have hacross : "url".toList ++ ['('] <+: ([c] :: ts).flatten ++ s' :=
          ⟨inner, (after?_eq_some_iff.1 hinner).symm⟩
        obtain ⟨more', hmore⟩ :=
          hcut.isPrefix_of_sealed (List.cons_ne_nil _ _) hsealed (List.all_eq_true.1 (by decide)) hacross
        refine hurl ⟨?_, hword⟩
        have hafter : after? "url(".toList (c :: rest) = some (more' ++ s) := by
          rw [after?_eq_some_iff, ← hrest, ← List.append_assoc]
          exact congrArg (· ++ s) hmore.symm
        rw [hafter]
        rfl

end Cut

/-! ### Characters that are tokens on their own -/

/-- A text that is cut into lexemes in front of another one. -/
def Lexed (s : Text) (word : Bool) (u : Text) (word' : Bool) : Prop :=
  ∃ ts, ts.flatten = u ∧ Cut s word ts word'

theorem Lexed.append {s u v : Text} {word word' word'' : Bool} (h : Lexed (v ++ s) word u word')
    (h' : Lexed s word' v word'') : Lexed s word (u ++ v) word'' := by
  obtain ⟨ts, rfl, hcut⟩ := h
  obtain ⟨ts', rfl, hcut'⟩ := h'
  exact ⟨ts ++ ts', List.flatten_append, hcut.append hcut'⟩

theorem Lexed.word_eq {s u : Text} {word word' : Bool} (h : Lexed s word u word') (hu : u ≠ []) :
    word' = endsWord u := by
  obtain ⟨ts, rfl, hcut⟩ := h
  exact hcut.word_eq fun hts => hu (by rw [hts]; rfl)

theorem Lexed.of_token {c : Char} {tail s : Text} {word : Bool} {effect : Effect}
    (h : Token word c tail effect s) : Lexed s word (c :: tail) (endsWord (c :: tail)) :=
  ⟨[c :: tail], by simp, .step h (.done _)⟩

/-- A character that starts nothing longer. -/
theorem Token.of_plain {word : Bool} {c : Char} (hslash : c ≠ '/') (hhash : c ≠ '#')
    (hquote : isQuote c = false) (hurl : c = 'u' → word = true) (rest : Text) :
    Token word c [] (effectOf c) rest := by
  refine .single (fun h => hslash h.1) (fun h => hslash h.1) (by simp [hquote]) (fun h => hhash h.1) ?_
  rintro ⟨h, hword⟩
  obtain ⟨inner, hinner⟩ := Option.isSome_iff_exists.1 h
  have htext : c :: rest = 'u' :: ("rl(".toList ++ inner) := after?_eq_some_iff.1 hinner
  rw [hurl (List.cons.inj htext).1] at hword
  cases hword

theorem Token.of_wordChar {c : Char} (hc : isWordChar c = true) (rest : Text) :
    Token true c [] (effectOf c) rest := by
  have hne (d : Char) (hd : isWordChar d = false) : c ≠ d := by
    rintro rfl
    simp [hd] at hc
  exact .of_plain (hne '/' (by decide)) (hne '#' (by decide))
    (by simp [isQuote, hne '"' (by decide), hne '\'' (by decide)]) (fun _ => rfl) rest

theorem Token.of_space (word : Bool) {c : Char} (hc : isSpace c = true) (rest : Text) :
    Token word c [] (effectOf c) rest := by
  have hne (d : Char) (hd : isSpace d = false) : c ≠ d := by
    rintro rfl
    simp [hd] at hc
  exact .of_plain (hne '/' (by decide)) (hne '#' (by decide))
    (by simp [isQuote, hne '"' (by decide), hne '\'' (by decide)])
    (fun h => absurd h (hne 'u' (by decide))) rest

theorem Lexed.of_wordChars {w : Text} (hw : ∀ c ∈ w, isWordChar c = true) (s : Text) :
    Lexed s true w true := by
  induction w with
  | nil => exact ⟨[], rfl, .done true⟩
  | cons c w ih =>
    obtain ⟨hc, hw⟩ := List.forall_mem_cons.1 hw
    have hword : endsWord [c] = true := by simp [endsWord, hc]
    have hfirst := Lexed.of_token (Token.of_wordChar hc (w ++ s))
    rw [hword] at hfirst
    exact hfirst.append (ih hw)

theorem Lexed.of_spaces {space : Text} (hspace : ∀ c ∈ space, isSpace c = true) (s : Text)
    (word : Bool) : ∃ word', Lexed s word space word' := by
  induction space generalizing word with
  | nil => exact ⟨word, [], rfl, .done word⟩
  | cons c space ih =>
    obtain ⟨hc, hspace⟩ := List.forall_mem_cons.1 hspace
    obtain ⟨word', hrest⟩ := ih hspace (endsWord [c])
    exact ⟨word', (Lexed.of_token (Token.of_space word hc (space ++ s))).append hrest⟩

/-! ### Directives -/

/-- An item of an import that is not left to the browser, between white space. -/
theorem Item.lexed {target : Target} (h : Item target) (hcss : target.isCss = false)
    {space blank : Text} (hspace : ∀ c ∈ space, isAsciiSpace c = true)
    (hblank : ∀ c ∈ blank, isBlank c = true) (s : Text) (word : Bool) :
    ∃ word', Lexed s word (space ++ target.spelling ++ blank) word' := by
  cases h with
  | @quoted quote body hquote hbody =>
    obtain ⟨w₁, hfront⟩ := Lexed.of_spaces (fun c hc => isSpace_of_isAsciiSpace (hspace c hc))
      (quote :: body ++ blank ++ s) word
    obtain ⟨w₂, hback⟩ := Lexed.of_spaces
      (fun c hc => isSpace_of_isAsciiSpace (isAsciiSpace_of_isBlank (hblank c hc))) s
      (endsWord (quote :: body))
    have hitem : Lexed (blank ++ s) w₁ (quote :: body) _ := .of_token (.string _ hquote hbody)
    refine ⟨w₂, Lexed.append ?_ hback⟩
    exact Lexed.append (by simpa using hfront) hitem
  | url => cases hcss

theorem ItemList.lexed {items : Targets} {rest : Text} (h : ItemList items rest)
    (hcss : items.isCss = false) (word : Bool) : ∃ word', Lexed rest word items.spelling word' := by
  induction h generalizing word with
  | @comma space blank rest target others hspace hitem hblank more ih =>
    obtain ⟨hfirst, hothers⟩ := Bool.or_eq_false_iff.1 hcss
    obtain ⟨w₁, hfront⟩ := hitem.lexed hfirst hspace hblank (',' :: others.spelling ++ rest) word
    obtain ⟨w₂, hback⟩ := ih hothers (endsWord [','])
    have hcomma : Lexed (others.spelling ++ rest) w₁ [','] (endsWord [',']) :=
      .of_token (.of_plain (by decide) (by decide) (by decide) (by simp) _)
    exact ⟨w₂, hfront.append (hcomma.append hback)⟩
  | @semicolon space blank rest target hspace hitem hblank =>
    obtain ⟨w₁, hfront⟩ := hitem.lexed hcss hspace hblank ([';'] ++ rest) word
    have hstop : Lexed rest w₁ [';'] (endsWord [';']) :=
      .of_token (.of_plain (by decide) (by decide) (by decide) (by simp) _)
    exact ⟨_, hfront.append hstop⟩
  | @bare space blank rest target hspace hitem hblank hrest =>
    exact hitem.lexed (Bool.or_eq_false_iff.1 hcss).1 hspace hblank rest word

theorem isAsciiSpace_of_isTrailing {c : Char} (h : isTrailing c = true) : isAsciiSpace c = true := by
  simp only [isTrailing, isBlank, Bool.or_eq_true, beq_iff_eq] at h
  rcases h with (rfl | rfl) | rfl <;> decide

/-- An import consists of lexemes. -/
theorem Form.lexed_imports {c : Char} {found : Found} {rest : Text} (h : Form functions c found rest)
    {targets : List Text} (hkind : found.kind = .imports targets) (word : Bool) :
    ∃ word', Lexed rest word (c :: found.tail) word' := by
  obtain ⟨rfl, -⟩ := h.eq_of_imports hkind
  cases h with
  | @imports items blank lineEnd rest hhead hitems hcss hblank hend =>
    have hspace : ∀ c ∈ blank ++ lineEnd, isAsciiSpace c = true := by
      intro c hc
      rcases List.mem_append.1 hc with hc | hc
      · exact isAsciiSpace_of_isTrailing (hblank c hc)
      · cases hend with
        | taken =>
          obtain rfl := List.mem_singleton.1 hc
          decide
        | absent => cases hc
    obtain ⟨w₁, hmiddle⟩ := hitems.lexed hcss true
    obtain ⟨w₂, hback⟩ := Lexed.of_spaces (fun c hc => isSpace_of_isAsciiSpace (hspace c hc)) rest w₁
    have hname : Lexed (items.spelling ++ (blank ++ (lineEnd ++ rest))) true "import".toList true :=
      .of_wordChars (List.all_eq_true.1 (by decide)) _
    have hat : Lexed ("import".toList ++ (items.spelling ++ (blank ++ (lineEnd ++ rest)))) word ['@'] true :=
      .of_token (.of_plain (by decide) (by decide) (by decide) (by simp) _)
    rw [← List.append_assoc blank] at hat hname hmiddle
    refine ⟨w₂, ?_⟩
    have hall := Lexed.append (v := "import".toList ++ (items.spelling ++ (blank ++ lineEnd)))
      (by simpa using hat) (Lexed.append (by simpa using hname) (hmiddle.append hback))
    simpa using hall
  | call _ hc => exact absurd hc (by decide)

/-- No line comment is open behind lexemes. -/
def Closed (ts : List Text) : Prop := ∀ body, ts.getLast? ≠ some ('/' :: '/' :: body)

instance (ts : List Text) : Decidable (Closed ts) :=
  decidable_of_iff ((ts.getLast?.all fun token => !"//".toList.isPrefixOf token) = true)
    ⟨fun hlast body hbody => by simp [hbody] at hlast, fun hclosed => by
      cases hlast : ts.getLast? with
      | none => rfl
      | some token =>
        rw [Option.all_some, Bool.not_eq_true', Bool.eq_false_iff]
        intro hprefix
        obtain ⟨body, rfl⟩ := List.isPrefixOf_iff_prefix.1 hprefix
        exact hclosed body hlast⟩

/-- A text that ends where a lexeme does, whatever comes behind it: it is cut into lexemes, and
no line comment is open at its end. -/
structure Whole (t : Text) : Prop where
  flatten_eq : (lexemes false t).flatten = t
  closed : ∀ body, (lexemes false t).getLast? ≠ some ('/' :: '/' :: body)

instance (t : Text) : Decidable (Whole t) :=
  decidable_of_iff ((lexemes false t).flatten = t ∧ Closed (lexemes false t))
    ⟨fun ⟨flatten_eq, closed⟩ => ⟨flatten_eq, closed⟩, fun ⟨flatten_eq, closed⟩ => ⟨flatten_eq, closed⟩⟩

/-- In front of a brace a statement does not end in what opens an interpolation with it. -/
theorem Statement.getLast?_ne {depth : Nat} {value stop rest : Text}
    (h : Statement depth value stop rest) (hstop : stop = []) (hrest : rest.head? = some '{') :
    value.getLast? ≠ some '#' := by
  induction h with
  | atEnd => simp
  | semicolon => simp
  | brace => simp
  | @string quote body value stop rest depth hquote hbody more ih =>
    intro hlast
    rw [← List.cons_append] at hlast
    rcases getLast?_append_cases hlast with ⟨-, hlast⟩ | hlast
    · rw [List.getLast?_cons, stringTail_getLast? hbody] at hlast
      obtain rfl : quote = '#' := by simpa using hlast
      exact absurd hquote (by decide)
    · exact ih hstop hrest hlast
  | @comment body value stop rest depth hbody more ih =>
    intro hlast
    rw [← List.cons_append, ← List.cons_append] at hlast
    rcases getLast?_append_cases hlast with ⟨-, hlast⟩ | hlast
    · simp [List.getLast?_cons, commentTail_getLast? hbody] at hlast
    · exact ih hstop hrest hlast
  | @interpolation body value stop rest depth hbody more ih =>
    intro hlast
    rw [← List.cons_append, ← List.cons_append] at hlast
    rcases getLast?_append_cases hlast with ⟨-, hlast⟩ | hlast
    · simp [List.getLast?_cons, bracketTail_getLast? hbody] at hlast
    · exact ih hstop hrest hlast
  | @char c value stop rest depth hquote hcomment hbrace hsemicolon hend more ih =>
    intro hlast
    rcases getLast?_append_cases (x := [c]) hlast with ⟨rfl, hlast⟩ | hlast
    · exact hbrace ⟨by simpa using hlast, by simpa [hstop] using hrest⟩
    · exact ih hstop hrest hlast

/-- What comes behind an assignment or a call joins no token at its end. -/
theorem Form.joins_eq_false {c : Char} {found : Found} {rest : Text} (h : Form functions c found rest)
    (hkind : ∀ targets, found.kind ≠ .imports targets) {x d : Char}
    (hx : (c :: found.tail).getLast? = some x) (hd : rest.head? = some d) : joins x d = false := by
  cases h with
  | imports => exact absurd rfl (hkind _)
  | @assign name space gap body stop rest hname hword hspace hgap hbody hstatement hvalue =>
    rcases hstatement.ends with rfl | ⟨rfl, hbrace⟩
    · rw [← List.cons_append, List.getLast?_concat] at hx
      obtain rfl : ';' = x := by simpa using hx
      rfl
    · have hne : body ≠ [] := by
        rintro rfl
        exact hvalue (List.prefix_nil.1 (splitFlags_isPrefix []))
      have hlast : body.getLast? = some x := by
        simp only [List.append_nil] at hx
        exact (getLast?_append_cases (x := '$' :: (name ++ space ++ ':' :: gap)) hx).resolve_left
          fun hnil => hne hnil.1
      have hx : d = '{' → x ≠ '#' := by
        rintro rfl rfl
        exact hstatement.getLast?_ne rfl hd hlast
      rcases hbrace d hd with rfl | rfl
      · simp [joins, hx rfl, isWordChar]
      · simp [joins, isWordChar]
  | call _ hc hword hbody hkind' =>
    have hlast : some ')' = some x := by
      rw [← hx, ← List.cons_append, List.getLast?_append, List.getLast?_cons, bracketTail_getLast? hbody]
      rfl
    cases hlast
    simp [joins, isWordChar]

/-- An assignment or a call that is whole consists of lexemes, whatever comes behind it. -/
theorem Form.lexed {c : Char} {found : Found} {rest : Text} (h : Form functions c found rest)
    (hwhole : Whole (c :: found.tail)) (hkind : ∀ targets, found.kind ≠ .imports targets) :
    ∃ word', Lexed rest false (c :: found.tail) word' := by
  obtain ⟨s, word', htext, hcut⟩ := exists_cut false (c :: found.tail)
  refine ⟨word', _, hwhole.flatten_eq, hcut.congr (.of_getLast? fun x d hx hd => ?_) fun body hbody => ?_⟩
  · rw [hwhole.flatten_eq] at hx
    exact h.joins_eq_false hkind hx hd
  · exact absurd hbody (hwhole.closed body)

/-- Only an address depends on whether a word comes before it. -/
theorem Token.of_word {c : Char} (hc : c ≠ 'u') {word word' : Bool} {tail rest : Text}
    {effect : Effect} (h : Token word c tail effect rest) : Token word' c tail effect rest := by
  cases h with
  | lineComment hbody hrest => exact .lineComment hbody hrest
  | blockComment rest hbody => exact .blockComment rest hbody
  | string rest hc hbody => exact .string rest hc hbody
  | interpolation rest hbody => exact .interpolation rest hbody
  | url => exact absurd rfl hc
  | single hslash hstar hquote hbrace =>
    refine .single hslash hstar hquote hbrace ?_
    rintro ⟨h, -⟩
    obtain ⟨inner, hinner⟩ := Option.isSome_iff_exists.1 h
    have htext : c :: rest = 'u' :: ("rl(".toList ++ inner) := after?_eq_some_iff.1 hinner
    exact hc (List.cons.inj htext).1

theorem Lexed.of_word {c : Char} (hc : c ≠ 'u') {s u : Text} {word word₁ word' : Bool}
    (h : Lexed s word (c :: u) word') : Lexed s word₁ (c :: u) word' := by
  obtain ⟨ts, hts, hcut⟩ := h
  cases hcut with
  | done => cases hts
  | step htoken more =>
    obtain ⟨rfl, -⟩ := List.cons.inj hts
    exact ⟨_, hts, .step (htoken.of_word hc) more⟩

/-- The pieces of a text consist of lexemes if those do that are assignments or calls. -/
theorem Walk.lexed {s u : Text} {word statement word' statement' : Bool} {ps : List Piece}
    (h : Walk functions s word statement u ps word' statement')
    (hwhole : ∀ c found, .act c found ∈ ps → (∀ targets, found.kind ≠ .imports targets) →
      Whole (c :: found.tail)) : Lexed s word u word' := by
  induction h with
  | done word statement => exact ⟨[], rfl, .done word⟩
  | @step word statement word' statement' c tail u p ps hp htext more ih =>
    have hrest := ih fun d found hmem => hwhole d found (List.mem_cons_of_mem _ hmem)
    suffices hfirst : Lexed (u ++ s) word (c :: tail) (endsWord p.text) from hfirst.append hrest
    cases p with
    | token d tail' effect =>
      obtain ⟨rfl, -, htoken⟩ := piece?_eq_token_iff.1 hp
      obtain rfl : tail' = tail := (List.cons.inj htext).2
      obtain ⟨rest, hrest, htoken⟩ := token_of_token? htoken
      obtain rfl := List.append_cancel_left hrest
      exact .of_token htoken
    | act d found =>
      obtain ⟨rfl, hfound⟩ := piece?_eq_act_iff.1 hp
      obtain rfl : found.tail = tail := (List.cons.inj htext).2
      obtain ⟨hadmits, rest, hrest, hform⟩ := recognize_eq_some_iff.1 hfound
      obtain rfl := List.append_cancel_left hrest
      obtain ⟨word₁, hlexed⟩ : ∃ word₁, Lexed (u ++ s) word (d :: found.tail) word₁ := by
        by_cases hkind : ∀ targets, found.kind ≠ .imports targets
        · obtain ⟨word₁, hlexed⟩ := hform.lexed (hwhole d found List.mem_cons_self hkind) hkind
          refine ⟨word₁, ?_⟩
          unfold Admits at hadmits
          split at hadmits
          case isTrue hd => exact hlexed.of_word (by rcases hd with rfl | rfl <;> decide)
          case isFalse =>
            rw [followsWord_probe] at hadmits
            rwa [hadmits]
        · rw [not_forall] at hkind
          obtain ⟨targets, hkind⟩ := hkind
          exact hform.lexed_imports (not_not.1 hkind) word
      rwa [hlexed.word_eq (List.cons_ne_nil _ _)] at hlexed

/-- No directive starts with a blank. -/
theorem Form.isBlank_eq_false {c : Char} {found : Found} {rest : Text}
    (h : Form functions c found rest) : isBlank c = false := by
  cases h with
  | imports => rfl
  | assign => rfl
  | call _ hc =>
    rw [Bool.eq_false_iff]
    intro hblank
    simp only [isBlank, Bool.or_eq_true, beq_iff_eq] at hblank
    rcases hblank with rfl | rfl <;> exact absurd hc (by decide)

/-- A token starts where a directive does. -/
theorem Form.exists_token {c : Char} {found : Found} {rest : Text} (h : Form functions c found rest)
    (word : Bool) : ∃ tail effect, token? word c (found.tail ++ rest) = some (tail, effect) := by
  have hplain {c : Char} {t : Text} (h : Token word c [] (effectOf c) t) :
      ∃ tail effect, token? word c t = some (tail, effect) := ⟨[], effectOf c, h.token?⟩
  cases h with
  | imports => exact hplain (.of_plain (by decide) (by decide) (by decide) (by simp) _)
  | assign => exact hplain (.of_plain (by decide) (by decide) (by decide) (by simp) _)
  | @call c name body kind rest hc hword hbody hkind =>
    have hne (d : Char) (hd : isWordStart d = false) : c ≠ d := by
      rintro rfl
      simp [hd] at hc
    by_cases hurl : (after? "url(".toList (c :: (name ++ '(' :: body ++ rest))).isSome = true ∧ word = false
    · -- a registered function of this name
      obtain ⟨hafter, rfl⟩ := hurl
      obtain ⟨inner, hinner⟩ := Option.isSome_iff_exists.1 hafter
      have htext : c :: (name ++ '(' :: body ++ rest) = 'u' :: ("rl".toList ++ '(' :: inner) :=
        after?_eq_some_iff.1 hinner
      obtain ⟨rfl, htail⟩ := List.cons.inj htext
      have hparen (t : Text) : Stops isWordChar ('(' :: t) := stops_cons rfl _
      have hname := congrArg (List.takeWhile isWordChar) htail
      rw [List.append_assoc, List.cons_append, takeWhile_append_of_stops hword (hparen _),
        takeWhile_append_of_stops (List.all_eq_true.1 (by decide)) (hparen _)] at hname
      subst hname
      exact ⟨_, _, (Token.url rest rfl hbody).token?⟩
    · refine hplain (.single (fun h => hne '/' (by decide) h.1) (fun h => hne '/' (by decide) h.1) ?_
        (fun h => hne '#' (by decide) h.1) hurl)
      simp [isQuote, hne '"' (by decide), hne '\'' (by decide)]

/-- Lexemes end where a scan from a cursor reports a directive. -/
theorem exists_cut_of_directive {cur : Cursor} {run : Run} {t : Text} {ds ds' : List Directive}
    {d : Directive} (h : (scanFrom functions cur run t).directives = ds ++ d :: ds') (hd : d.kind ≠ .plain)
    (hwhole : ∀ e ∈ ds, e.kind ≠ .plain → (∀ targets, e.kind ≠ .imports targets) → Whole e.raw) :
    ∃ ts word indent c found rest, t = ts.flatten ++ c :: (found.tail ++ rest) ∧
      Cut (c :: (found.tail ++ rest)) cur.followsWord ts word ∧ Form functions c found rest ∧
      d.kind = found.kind ∧ (c = '@' ∨ c = '$' ∨ word = false) ∧
      d.raw.takeWhile isBlank = indent ∧ run.text ++ ts.flatten = Directive.texts ds ++ indent := by
  obtain ⟨u, ps, cur', run', c, found, rest, hr⟩ := exists_reached h hd
  obtain ⟨ds₀, v, indent, hreports⟩ := hr.reports
  have hlexed : Lexed (c :: (found.tail ++ rest)) cur.followsWord u cur'.followsWord := by
    refine hr.walk.lexed fun e found' hmem hkind => ?_
    obtain ⟨d', hd', hkind', hraw⟩ := exists_mem_of_trail hreports.trail hmem
    obtain ⟨rest', hform⟩ := hr.walk.form_of_mem hmem
    rw [← hraw hkind]
    refine hwhole d' (hreports.front ▸ List.mem_append_left _ hd') ?_ ?_
    · rw [hkind']
      exact hform.kind_ne_plain
    · rwa [hkind']
  obtain ⟨ts, rfl, hcut⟩ := hlexed
  have hindent : d.raw.takeWhile isBlank = indent := by
    rw [hreports.raw]
    refine takeWhile_append_of_stops hreports.blank fun e he => ?_
    obtain rfl : c = e := by simpa using he
    exact hreports.form.isBlank_eq_false
  refine ⟨ts, _, indent, c, found, rest, hr.text, hcut, hreports.form, hreports.kind, ?_, hindent,
    hreports.before.symm⟩
  have hadmits := hreports.admits
  unfold Admits at hadmits
  split at hadmits
  case isTrue hc => exact hc.imp_right .inl
  case isFalse => exact .inr (.inr hadmits)

/-- Every directive of a style sheet stands at a code position: a lexeme starts with its first
character, so that it is not inside a string, a comment, an address or an interpolation. The
assignments and calls in front of it have to end where lexemes do; `scan_inside_comment` shows
what happens behind one that does not. -/
theorem scan_starts_lexeme {t : Text} {ds ds' : List Directive} {d : Directive}
    (h : (scan functions t).directives = ds ++ d :: ds') (hd : d.kind ≠ .plain)
    (hwhole : ∀ e ∈ ds, e.kind ≠ .plain → (∀ targets, e.kind ≠ .imports targets) → Whole e.raw) :
    ∃ ts token ts', lexemes false t = ts ++ token :: ts' ∧
      ts.flatten = Directive.texts ds ++ d.raw.takeWhile isBlank := by
  obtain ⟨ts, word, _, c, found, rest, htext, hcut, hform, -, -, rfl, hflatten⟩ :=
    exists_cut_of_directive h hd hwhole
  obtain ⟨tail, effect, htoken⟩ := hform.exists_token word
  refine ⟨ts, c :: tail, lexemes (endsWord (c :: tail)) ((found.tail ++ rest).drop tail.length), ?_, hflatten⟩
  rw [htext]
  exact hcut.lexemes_eq.trans (by rw [lexemes, htoken])

theorem scan_starts_lexeme_variable :
    let text := "$a: \"//\";\nb \x7b c: image-url(\"@import 'd';\"); /* $e: f; */ $g: h \x7d\n".toList
    let front := "$a: \"//\";\nb \x7b c: image-url(\"@import 'd';\"); /* $e: f; */ ".toList
    ∃ ts token ts', lexemes false text = ts ++ token :: ts' ∧ ts.flatten = front := by
  intro text front
  have hscan : (scan .empty text).directives = (scan .empty text).directives.take 4 ++
      ((scan .empty text).directives.drop 4).head (by decide +kernel) ::
        (scan .empty text).directives.drop 5 := by decide +kernel
  obtain ⟨ts, token, ts', hts, htexts⟩ := scan_starts_lexeme hscan (by decide +kernel) (by decide +kernel)
  exact ⟨ts, token, ts', hts, htexts.trans (by decide +kernel)⟩

/-- The statement of an assignment ends at a semicolon even in a comment, and the scan goes on
inside it: here it reports an assignment to `$d` that is part of the comment. -/
theorem scan_inside_comment :
    (scan .empty "$a: b // c; $d: e\n;\n".toList).directives.map Directive.raw =
        ["$a: b // c;".toList, " ".toList, "$d: e\n;".toList, "\n".toList] ∧
      (scan .empty "$a: b // c; $d: e\n;\n".toList).error? = none ∧
      lexemes false "$a: b // c; $d: e\n;\n".toList =
        ["$".toList, "a".toList, ":".toList, " ".toList, "b".toList, " ".toList,
          "// c; $d: e".toList, "\n".toList, ";".toList, "\n".toList] := by
  decide +kernel

end StylePrep.Scan
