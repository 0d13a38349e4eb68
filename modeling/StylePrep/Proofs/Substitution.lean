import StylePrep.Proofs.Direct
import StylePrep.Proofs.Strung

/-!
# Texts in place of directives

An output is made from left to right: plain text is copied, and other texts are put in place of
directives. `Abreast` says how far this has come. The output so far consists of lexemes at which
no call starts, and it can be gone on with where a source goes on with the text `s`: no comment
is open, what comes next joins no token with the end, and a word goes on in both or in neither,
unless `s` does not start with one.

Each step keeps this up: copying a plain run (`Abreast.plain`), putting a text in place of another
one (`Abreast.replace`), and a whole output on lines of its own (`Landed.spliced`).
-/

namespace StylePrep

namespace Scan

open Text Delimited Directive

variable {functions : FunctionTable}

/-! ### Texts that fit in -/

theorem closed_nil : Closed [] := fun body hbody => by cases hbody

theorem sealed_nil (s : Text) : Sealed [] s := fun c d hc _ => by cases hc

/-- A text that consists of lexemes at which no call starts, where a word comes before or not.
No comment is open behind it. -/
def Fits (word : Bool) (t : Text) : Prop :=
  ∃ ts word', ts.flatten = t ∧ Quiet [] word ts word' ∧ Closed ts

theorem Sealed.append {ts ts' : List Text} {s : Text} (h : Sealed ts' s) (hne : ts' ≠ []) :
    Sealed (ts ++ ts') s := by
  intro c d hc
  rw [List.getLast?_append_of_ne_nil _ hne] at hc
  exact h c d hc

theorem Sealed.congr {ts : List Text} {s s' : Text} (h : Sealed ts s) (hhead : s'.head? = s.head?) :
    Sealed ts s' :=
  fun c d hc hd => h c d hc (hhead ▸ hd)

theorem Closed.append {ts ts' : List Text} (h : Closed ts') (hne : ts' ≠ []) : Closed (ts ++ ts') := by
  intro body hbody
  rw [List.getLast?_append_of_ne_nil _ hne] at hbody
  exact h body hbody

namespace Fits

variable {word : Bool} {t u : Text}

theorem append (h : Fits word t) (hu : ∀ word', Fits word' u)
    (hjoins : ∀ c d, t.getLast? = some c → u.head? = some d → joins c d = false) :
    Fits word (t ++ u) := by
  obtain ⟨ts, word', rfl, hquiet, hclosed⟩ := h
  obtain ⟨ts', word'', rfl, hquiet', hclosed'⟩ := hu word'
  refine ⟨ts ++ ts', word'', List.flatten_append, hquiet.join hquiet' hclosed (.of_getLast? hjoins), ?_⟩
  cases ts' with
  | nil => simpa using hclosed
  | cons t' ts' => exact hclosed'.append (List.cons_ne_nil _ _)

theorem simple (ht : ∀ c ∈ t, isSimple c = true) (word : Bool) : Fits word t := by
  obtain ⟨word', hquiet⟩ := Quiet.of_simple ht word
  exact ⟨letters t, word', flatten_letters t, hquiet, closed_letters t⟩

theorem quoted (h : Enclosable t) (word : Bool) : Fits word (Expand.quote t) :=
  ⟨[Expand.quote t], false, by simp, .quoted h word, fun body hbody => by cases Option.some.inj hbody⟩

theorem address (h : Enclosable t) : Fits false (Expand.url (Expand.quote t)) :=
  ⟨[Expand.url (Expand.quote t)], false, by simp, .address h,
    fun body hbody => by cases Option.some.inj hbody⟩

/-- Whether a word comes before matters to words only. -/
theorem of_word (h : Fits word t) (ht : Stops isWordChar t) (word₁ : Bool) : Fits word₁ t := by
  obtain ⟨ts, word', rfl, hquiet, hclosed⟩ := h
  cases ts with
  | nil => exact ⟨[], word₁, rfl, .nil [] word₁, hclosed⟩
  | cons t ts =>
    obtain ⟨c, t, rfl⟩ := List.exists_cons_of_ne_nil (hquiet.cut.ne_nil_of_mem List.mem_cons_self)
    exact ⟨_, word', rfl, hquiet.of_word (ht c rfl) word₁, hclosed⟩

end Fits

/-- A text that stands for itself: it is cut into lexemes up to its end, and at none of them a
call starts. -/
structure Inert (t : Text) : Prop where
  whole : Whole t
  callFree : CallFree [] false (lexemes false t)

instance (t : Text) : Decidable (Inert t) :=
  decidable_of_iff (Whole t ∧ CallFree [] false (lexemes false t))
    ⟨fun ⟨whole, callFree⟩ => ⟨whole, callFree⟩, fun ⟨whole, callFree⟩ => ⟨whole, callFree⟩⟩

theorem Inert.fits {t : Text} (h : Inert t) : Fits false t := by
  obtain ⟨s, word', ht, hcut⟩ := exists_cut false t
  obtain rfl : s = [] := by
    rw [h.whole.flatten_eq] at ht
    simpa using ht
  exact ⟨_, word', h.whole.flatten_eq, ⟨hcut, h.callFree⟩, h.whole.closed⟩

/-- A text that can be put in place of a call. -/
structure Substitute (t : Text) : Prop where
  fits : Fits false t
  ne_nil : t ≠ []
  head : ∀ c d, t.head? = some d → joins c d = true → isWordChar c = true
  last : ∀ c, t.getLast? = some c → c ≠ '/' ∧ c ≠ '#'

/-- The normal form of a call can be put in place of it if it stands for itself. -/
theorem Inert.substitute {c : Char} {t : Text} (h : Inert (c :: (t ++ [')']))) (hc : isWordChar c = true) :
    Substitute (c :: (t ++ [')'])) where
  fits := h.fits
  ne_nil := List.cons_ne_nil _ _
  head d e he hjoins := by
    obtain rfl : c = e := by simpa using he
    exact isWordChar_of_joins hc hjoins
  last d hd := by
    rw [← List.cons_append, List.getLast?_concat] at hd
    obtain rfl : ')' = d := by simpa using hd
    decide

/-! ### How far an output has come -/

/-- A character that goes on with a word, or makes a call of it. -/
def continues (c : Char) : Bool := isWordChar c || c == '('

theorem stops_isWordChar {s : Text} (h : Stops continues s) : Stops isWordChar s :=
  fun c hc => (Bool.or_eq_false_iff.1 (h c hc)).1

/-- Lexemes `ts` of an output with which it can be gone on where a source goes on with `s`. -/
structure Ready (ts : List Text) (w word statement : Bool) (s : Text) : Prop where
  closed : s ≠ [] → Closed ts
  sealed : Sealed ts s
  word : w = word ∨ Stops continues s
  settled : statement = true → ∀ c, s.head? = some c → (c = '@' ∨ isBlank c = true) →
    w = false ∧ ∀ s', Sealed ts s'

theorem Ready.append {ts ts' : List Text} {w word statement : Bool} {s : Text}
    (h : Ready ts' w word statement s) (hne : ts' ≠ []) : Ready (ts ++ ts') w word statement s where
  closed hs := (h.closed hs).append hne
  sealed := h.sealed.append hne
  word := h.word
  settled hstatement c hc himport :=
    ⟨(h.settled hstatement c hc himport).1, fun s' => ((h.settled hstatement c hc himport).2 s').append hne⟩

/-- An output without calls, at a place where a source goes on with `s`. -/
def Abreast (out : Text) (word statement : Bool) (s : Text) : Prop :=
  ∃ ts w, ts.flatten = out ∧ Quiet [] false ts w ∧ Ready ts w word statement s

namespace Abreast

variable {out s s' r t u : Text} {word statement word' statement' w' : Bool} {ts' : List Text}

theorem start (statement : Bool) (s : Text) : Abreast [] false statement s := by
  exact ⟨[], false, rfl, .nil [] false, fun _ => closed_nil, sealed_nil s, .inl rfl,
    fun _ c _ _ => ⟨rfl, sealed_nil⟩⟩

theorem inside (h : Abreast out word statement s) : Abreast out word false s := by
  obtain ⟨ts, w, hout, hquiet, hready⟩ := h
  exact ⟨ts, w, hout, hquiet, hready.closed, hready.sealed, hready.word, fun h => by cases h⟩

/-- Lexemes in place of a text `r`. -/
theorem push (h : Abreast out word statement (r ++ s)) (hr : r ≠ []) (hne : ts' ≠ [])
    (hquiet : ∀ w, w = word ∨ Stops continues (r ++ s) → Quiet [] w ts' w')
    (hfront : ∀ ts w, Quiet [] false ts w → (w = word ∨ Stops continues (r ++ s)) → Sealed ts (r ++ s) →
      Sealed ts ts'.flatten)
    (hready : Ready ts' w' word' statement' s) : Abreast (out ++ ts'.flatten) word' statement' s := by
  obtain ⟨ts, w, rfl, hout, hready₀⟩ := h
  refine ⟨ts ++ ts', w', List.flatten_append, ?_, hready.append hne⟩
  exact hout.join (hquiet w hready₀.word) (hready₀.closed (by simp [hr]))
    (hfront ts w hout hready₀.word hready₀.sealed)

/-- A text in place of another one. -/
theorem replace (h : Abreast out word statement (r ++ s)) (hr : r ≠ []) (ht : t ≠ [])
    (hfits : ∀ w, w = word ∨ Stops continues (r ++ s) → Fits w t)
    (hfront : ∀ ts w, Quiet [] false ts w → (w = word ∨ Stops continues (r ++ s)) → Sealed ts (r ++ s) →
      Sealed ts t)
    (hback : ∀ c d, t.getLast? = some c → s.head? = some d → joins c d = false)
    (hafter : word' = endsWord t ∨ Stops continues s) : Abreast (out ++ t) word' false s := by
  obtain ⟨ts, w, rfl, hout, hready⟩ := h
  obtain ⟨ts', w', rfl, hquiet, hclosed⟩ := hfits w hready.word
  have hne : ts' ≠ [] := by
    rintro rfl
    exact ht rfl
  refine ⟨ts ++ ts', w', List.flatten_append, ?_, Ready.append ?_ hne⟩
  · exact hout.join hquiet (hready.closed (by simp [hr])) (hfront ts w hout hready.word hready.sealed)
  · refine ⟨fun _ => hclosed, .of_getLast? hback, ?_, fun h => by cases h⟩
    rw [hquiet.cut.word_eq hne]
    exact hafter.imp_left Eq.symm

/-- Copying a text. -/
theorem copy (h : Abreast out word statement (u ++ s)) (hu : u ≠ []) (hfits : Fits word u)
    (hback : ∀ c d, u.getLast? = some c → s.head? = some d → joins c d = false) :
    Abreast (out ++ u) (endsWord u) false s := by
  refine h.replace hu hu ?_ (fun ts w _ _ hts => hts.congr ?_) hback (.inl rfl)
  · rintro w (rfl | hstops)
    · exact hfits
    · refine hfits.of_word (fun c hc => stops_isWordChar hstops c ?_) w
      rwa [head?_append_of_ne_nil hu]
  · rw [head?_append_of_ne_nil hu]

/-- A substitute in place of a call that no word goes on behind. -/
theorem call {c : Char} (h : Abreast out false statement (r ++ s)) (hr : r.head? = some c)
    (hc : isWordStart c = true) (ht : Substitute t) (hs : Stops continues s) :
    Abreast (out ++ t) word' false s := by
  have hne : r ≠ [] := by
    rintro rfl
    cases hr
  have hword {w : Bool} (hw : w = false ∨ Stops continues (r ++ s)) : w = false := by
    refine hw.resolve_right fun hstops => ?_
    have hcontinues := (Bool.or_eq_false_iff.1 (hstops c (by rw [head?_append_of_ne_nil hne, hr]))).1
    rw [isWordChar_of_isWordStart hc] at hcontinues
    cases hcontinues
  refine h.replace hne ht.ne_nil (fun w hw => hword hw ▸ ht.fits) ?_ ?_ (.inr hs)
  · intro ts w hquiet hw _ d e hd he
    rw [Bool.eq_false_iff]
    intro hjoins
    have hchar := ht.head d e he hjoins
    obtain ⟨ts, rfl⟩ := List.getLast?_eq_some_iff.1 hd
    have hends := hquiet.cut.word_eq (by simp)
    rw [hword hw] at hends
    simp [endsWord, hchar] at hends
  · intro d e hd he
    obtain ⟨hslash, hhash⟩ := ht.last d hd
    have hstop : isWordChar e = false ∧ (e == '(') = false := Bool.or_eq_false_iff.1 (hs e he)
    simp [joins, hslash, hhash, hstop]

/-- Copying a plain run, in front of the text `s₀` and what comes behind it. -/
theorem plain {s₀ : Text} {statement₀ : Bool} {ps : List Piece} (h : Abreast out word statement (u ++ s))
    (hu : u ≠ []) (hwalk : Walk functions s₀ word statement₀ u ps word' statement')
    (htokens : ∀ c found, .act c found ∉ ps)
    (hclosed : ∀ ts, ts.flatten = u → Cut s₀ word ts word' → s ≠ [] → Closed ts)
    (hback : ∀ c d, u.getLast? = some c → s.head? = some d → joins c d = false) :
    Abreast (out ++ u) word' statement' s := by
  obtain ⟨ts, rfl, hquiet, hsettled⟩ := hwalk.quiet htokens
  have hne : ts ≠ [] := by
    rintro rfl
    exact hu rfl
  have hword : Stops isWordChar (ts.flatten ++ s) → ∀ w, Quiet s₀ w ts word' := by
    intro hstops w
    cases ts with
    | nil => exact absurd rfl hne
    | cons t ts =>
      obtain ⟨c, t, rfl⟩ := List.exists_cons_of_ne_nil (hquiet.cut.ne_nil_of_mem List.mem_cons_self)
      exact hquiet.of_word (hstops c rfl) w
  have hall (w : Bool) (hw : w = word ∨ Stops continues (ts.flatten ++ s)) : Quiet [] w ts word' := by
    refine Quiet.congr (s := s₀) ?_ (fun c d _ hd => by cases hd) fun _ _ d hd => by cases hd
    rcases hw with rfl | hstops
    · exact hquiet
    · exact hword (stops_isWordChar hstops) w
  refine h.push hu hne hall (fun ts' w _ _ hts' => hts'.congr ?_) ?_
  · rw [head?_append_of_ne_nil hu]
  · refine ⟨hclosed ts rfl hquiet.cut, .of_getLast? hback, .inl rfl, fun hstatement c hc _ => ?_⟩
    refine hsettled hne hstatement (hclosed ts rfl hquiet.cut ?_)
    rintro rfl
    cases hc

/-- The end of an assignment: a semicolon, or else the text stops in front of a brace. -/
theorem stop {stop : Text} (h : Abreast out word false (stop ++ s))
    (hends : stop = [';'] ∨ stop = [] ∧ ∀ c, s.head? = some c → c = '{' ∨ c = '}')
    (hword : stop = [';'] → word' = false) : Abreast (out ++ stop) word' true s := by
  have hbrace {c : Char} (hc : c = '{' ∨ c = '}') : continues c = false ∧ c ≠ '@' ∧ isBlank c = false := by
    rcases hc with rfl | rfl <;> decide
  rcases hends with rfl | ⟨rfl, hs⟩
  · obtain rfl := hword rfl
    have hjoins (d : Char) : joins ';' d = false := by simp [joins, isWordChar]
    have hsealed (s : Text) : Sealed [[';']] s := by
      intro c d hc _
      obtain rfl : ';' = c := by simpa using hc
      exact hjoins d
    have hquiet (w : Bool) : Quiet [] w [[';']] false :=
      .single (.of_plain (by decide) (by decide) (by decide) (by simp) [])
        fun _ hcall => by rcases hcall.head with h | h <;> cases h
    exact h.push (by simp) (List.cons_ne_nil _ _) (fun w _ => hquiet w) (fun ts w _ _ hts => hts.congr rfl)
      ⟨fun _ => closed_letters [';'], hsealed s, .inl rfl, fun _ _ _ _ => ⟨rfl, hsealed⟩⟩
  · obtain ⟨ts, w, hout, hquiet, hready⟩ := h
    refine ⟨ts, w, by simpa using hout, hquiet, hready.closed, hready.sealed, .inr ?_, ?_⟩
    · exact fun c hc => (hbrace (hs c hc)).1
    · rintro - c hc (rfl | hblank)
      · exact absurd rfl (hbrace (hs _ hc)).2.1
      · exact absurd hblank (by simp [(hbrace (hs c hc)).2.2])

end Abreast

/-! ### Whole outputs -/

/-- A text that consists of lexemes at which no call starts. -/
def Silent (t : Text) : Prop := ∃ ts word, ts.flatten = t ∧ Quiet [] false ts word

/-- An output behind which any other one can be put. -/
def Landed (t : Text) : Prop :=
  ∃ ts, ts.flatten = t ∧ Quiet [] false ts false ∧ Closed ts ∧ ∀ s, Sealed ts s

theorem Abreast.silent {out s : Text} {word statement : Bool} (h : Abreast out word statement s) :
    Silent out := by
  obtain ⟨ts, w, hout, hquiet, -⟩ := h
  exact ⟨ts, w, hout, hquiet⟩

/-- Where a source goes on with an import, the output can go on with anything. -/
theorem Abreast.landed {out s : Text} {word : Bool} {c : Char} (h : Abreast out word true s)
    (hs : s.head? = some c) (hc : c = '@' ∨ isBlank c = true) : Landed out := by
  obtain ⟨ts, w, hout, hquiet, hready⟩ := h
  obtain ⟨rfl, hsealed⟩ := hready.settled rfl c hs hc
  refine ⟨ts, hout, hquiet, hready.closed ?_, hsealed⟩
  rintro rfl
  cases hs

/-- A lexeme that ends in a line feed has no other character. -/
theorem Cut.getLast?_newline {s : Text} {word word' : Bool} {ts : List Text} (h : Cut s word ts word')
    (hlast : ts.flatten.getLast? = some '\n') : ts.getLast? = some ['\n'] := by
  obtain ⟨t, ht⟩ : ∃ t, ts.getLast? = some t := by
    cases hts : ts.getLast? with
    | none => simp [List.getLast?_eq_none_iff.1 hts] at hlast
    | some t => exact ⟨t, rfl⟩
  obtain ⟨_, c, tail, _, rfl, htoken⟩ := h.token_of_getLast? ht
  obtain ⟨ts, rfl⟩ := List.getLast?_eq_some_iff.1 ht
  have hline : (c :: tail).getLast? = some '\n' := by
    rw [List.flatten_append, List.flatten_singleton, List.getLast?_append] at hlast
    simpa [List.getLast?_cons] using hlast
  suffices htail : tail = [] by
    subst htail
    obtain rfl : c = '\n' := by simpa using hline
    exact ht
  cases htoken with
  | @lineComment body _ hbody =>
    have hmem : '\n' ∈ body := by
      have hmem := List.mem_of_getLast? hline
      simpa using hmem
    exact absurd (hbody _ hmem) (by decide)
  | blockComment _ hbody => simp [List.getLast?_cons, commentTail_getLast? hbody] at hline
  | string _ hquote hbody =>
    rw [List.getLast?_cons, stringTail_getLast? hbody] at hline
    obtain rfl : c = '\n' := by simpa using hline
    exact absurd hquote (by decide)
  | interpolation _ hbody => simp [List.getLast?_cons, bracketTail_getLast? hbody] at hline
  | url _ _ hbody => simp [List.getLast?_cons, bracketTail_getLast? hbody] at hline
  | single => rfl

namespace Landed

variable {t u : Text}

theorem silent (h : Landed t) : Silent t := by
  obtain ⟨ts, ht, hquiet, -⟩ := h
  exact ⟨ts, false, ht, hquiet⟩

theorem abreast (h : Landed t) (statement : Bool) (s : Text) : Abreast t false statement s := by
  obtain ⟨ts, ht, hquiet, hclosed, hsealed⟩ := h
  exact ⟨ts, false, ht, hquiet, fun _ => hclosed, hsealed s, .inl rfl, fun _ _ _ _ => ⟨rfl, hsealed⟩⟩

theorem append (h : Landed t) (hu : Silent u) : Silent (t ++ u) := by
  obtain ⟨ts, rfl, hquiet, hclosed, hsealed⟩ := h
  obtain ⟨ts', word', rfl, hquiet'⟩ := hu
  exact ⟨ts ++ ts', word', List.flatten_append, hquiet.join hquiet' hclosed (hsealed _)⟩

/-- A finished line ends whatever was open on it. -/
theorem of_newline {ts : List Text} (hquiet : Quiet [] false ts false)
    (hlast : ts.getLast? = some ['\n']) : Landed ts.flatten := by
  refine ⟨ts, rfl, hquiet, fun body hbody => ?_, fun s c d hc _ => ?_⟩
  · rw [hlast] at hbody
    cases hbody
  · rw [hlast] at hc
    obtain rfl : '\n' = c := by simpa using hc
    simp [joins, isWordChar]

theorem of_silent (h : Silent t) : Landed t.closed := by
  obtain ⟨ts, word, rfl, hquiet⟩ := h
  rw [closed]
  split
  case isTrue =>
    have hline : Quiet [] word [['\n']] false :=
      .single (.of_plain (by decide) (by decide) (by decide) (by simp) [])
        fun _ hcall => by rcases hcall.head with h | h <;> cases h
    have hfront : Quiet ([['\n']].flatten ++ []) false ts word := by
      have hhead {d : Char} (hd : ([['\n']].flatten ++ []).head? = some d) : d = '\n' := by simpa using hd.symm
      refine hquiet.congr (fun c d _ hd => ?_) fun _ _ d hd => ?_
      · rw [hhead hd]
        simp [joins, isWordChar]
      · rw [hhead hd]
        rfl
    have hall := of_newline (hfront.append hline) (by simp)
    simpa using hall
  case isFalse hopen =>
    by_cases hne : ts = []
    · subst hne
      exact ⟨[], rfl, .nil [] false, closed_nil, sealed_nil⟩
    · have htext : ts.flatten.getLast? = some '\n' := by
        by_contra hlast
        refine hopen (decide_eq_true ⟨?_, hlast⟩)
        intro hnil
        cases ts with
        | nil => exact hne rfl
        | cons t ts =>
          exact hquiet.cut.ne_nil_of_mem List.mem_cons_self (List.append_eq_nil_iff.1 hnil).1
      have hword := hquiet.cut.word_eq hne
      have hlast := hquiet.cut.getLast?_newline htext
      rw [endsWord, htext] at hword
      obtain rfl : word = false := hword
      exact of_newline hquiet hlast

theorem spliced (h : Landed t) (hu : Silent u) : Landed (t.spliced u) := by
  rw [Text.spliced]
  split
  · exact h
  · exact of_silent ((of_silent h.silent).append hu)

end Landed

end Scan

end StylePrep
