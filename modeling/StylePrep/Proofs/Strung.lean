import StylePrep.Proofs.Inert

/-!
# Directives one after another

A scan without an error cuts a text into directives. `Strung` says how they follow each other:
plain runs are walked over token by token, between them stand directives of some form, and each
of these is in front of the text of all that follow (`strung_of_scanText`). So it is known of
every boundary what the text in front of it and the text behind it look like.

Plain runs are free of calls (`Walk.quiet`): a call that starts where no word goes on would have
been recognized.
-/

namespace StylePrep.Scan

open Text Delimited Directive

variable {functions : FunctionTable}

/-! ### Plain runs -/

/-- Where a call of a sprite function starts, plain text cannot go on. -/
theorem recognize_of_startsCall {cur : Cursor} {c : Char} {t : Text} (hword : cur.followsWord = false)
    (h : StartsCall (c :: t)) : recognize functions cur c t ≠ .ok none := by
  obtain ⟨f, rest, hf⟩ := h
  have hc : isWordStart c = true := by
    rcases StartsCall.head ⟨f, rest, hf⟩ with rfl | rfl <;> decide
  obtain ⟨word, hname⟩ : ∃ word, f.name = c :: word := by
    cases hname : f.name with
    | nil => exact absurd (f.head?_name) (by simp [hname])
    | cons d word =>
      rw [hname] at hf
      exact ⟨word, by rw [(List.cons.inj hf).1]⟩
  have ht : t = word ++ '(' :: rest := by
    rw [hname] at hf
    simpa using (List.cons.inj hf).2.symm
  have hwords : ∀ d ∈ word, isWordChar d = true := fun d hd =>
    f.isWordChar_of_mem_name d (by simp [hname, hd])
  have hparen : Stops isWordChar ('(' :: rest) := stops_cons rfl _
  have hknown : SpriteFunction.ofName? (c :: word) = some f := by
    rw [← hname]
    cases f <;> decide
  have hne (d : Char) (hd : isWordStart d = false) : c ≠ d := by
    rintro rfl
    simp [hd] at hc
  unfold recognize
  rw [if_neg fun h => hne '@' (by decide) h.1, if_neg fun h => hne '$' (by decide) h.1,
    if_pos ⟨hc, by simp [hword]⟩]
  unfold readCall
  rw [ht]
  simp only [takeWhile_append_of_stops hwords hparen, dropWhile_append_of_stops hwords hparen, hknown]
  rw [if_neg (by simp)]
  split
  · simp
  · split <;> simp

/-- The tokens behind which a statement can start join nothing, but for line comments. -/
theorem Token.sealed_of_ne_enters {word : Bool} {c : Char} {tail rest : Text} {effect : Effect}
    (h : Token word c tail effect rest) (heffect : effect ≠ .enters) :
    (∃ body, c :: tail = '/' :: '/' :: body) ∨ endsWord (c :: tail) = false ∧
      ∀ e, c :: tail = [e] → ∀ d, joins e d = false := by
  cases h with
  | lineComment => exact .inl ⟨_, rfl⟩
  | blockComment _ hbody =>
    refine .inr ⟨?_, fun e he => by cases he⟩
    rw [endsWord, List.getLast?_cons, List.getLast?_cons, commentTail_getLast? hbody]
    rfl
  | string => exact absurd rfl heffect
  | interpolation => exact absurd rfl heffect
  | url => exact absurd rfl heffect
  | single =>
    have hchar : c = '{' ∨ c = '}' ∨ c = ';' ∨ isAsciiSpace c = true := by
      unfold effectOf at heffect
      split at heffect
      · exact .inl ‹_›
      split at heffect
      · exact .inr (.inl ‹_›)
      split at heffect
      · exact .inr (.inr (.inl ‹_›))
      split at heffect
      · exact .inr (.inr (.inr ‹_›))
      · exact absurd rfl heffect
    simp only [isAsciiSpace, Bool.or_eq_true, beq_iff_eq] at hchar
    right
    constructor
    · rcases hchar with rfl | rfl | rfl | (((rfl | rfl) | rfl) | rfl) | rfl <;> decide
    · intro e he d
      cases he
      rcases hchar with rfl | rfl | rfl | (((rfl | rfl) | rfl) | rfl) | rfl <;> simp [joins, isWordChar]

/-- Tokens of plain text are lexemes at which no call starts. Where a statement can start behind
them, they are sealed. -/
theorem Walk.quiet {s u : Text} {word statement word' statement' : Bool} {ps : List Piece}
    (h : Walk functions s word statement u ps word' statement')
    (htokens : ∀ c found, .act c found ∉ ps) :
    ∃ ts, ts.flatten = u ∧ Quiet s word ts word' ∧ (ts ≠ [] → statement' = true → Closed ts →
      word' = false ∧ ∀ s', Sealed ts s') := by
  induction h with
  | done word statement => exact ⟨[], rfl, .nil s word, fun h => absurd rfl h⟩
  | @step word statement word' statement' c tail u p ps hp htext more ih =>
    obtain ⟨ts, rfl, hquiet, hsettled⟩ := ih fun d found hmem => htokens d found (List.mem_cons_of_mem _ hmem)
    cases p with
    | act d found => exact absurd List.mem_cons_self (htokens d found)
    | token d tail' effect =>
      obtain ⟨rfl, hnone, htoken⟩ := piece?_eq_token_iff.1 hp
      obtain rfl : tail' = tail := (List.cons.inj htext).2
      obtain ⟨rest, hrest, htoken⟩ := token_of_token? htoken
      obtain rfl := List.append_cancel_left hrest
      have hcall : word = false → ¬ StartsCall (d :: (tail' ++ (ts.flatten ++ s))) := by
        intro hword hstarts
        exact recognize_of_startsCall (by simpa using hword) hstarts hnone
      refine ⟨(d :: tail') :: ts, rfl, ⟨.step htoken hquiet.cut, ?_, hquiet.callFree⟩, ?_⟩
      · simpa using hcall
      · intro _ hstatement hclosed
        cases ts with
        | nil =>
          cases hquiet.cut
          cases more
          have heffect : effect ≠ .enters := by
            rintro rfl
            cases hstatement
          rcases htoken.sealed_of_ne_enters heffect with ⟨body, hbody⟩ | ⟨hword, hjoins⟩
          · exact absurd (by rw [hbody]; rfl) (hclosed body)
          · exact ⟨hword, fun s' e d he _ => hjoins e (Option.some.inj he) d⟩
        | cons t ts => exact hsettled (List.cons_ne_nil _ _) hstatement hclosed

/-! ### Directives in order -/

/-- How the directives of a text follow each other. -/
inductive Strung (functions : FunctionTable) : Bool → Bool → List Directive → Prop where
  | nil (word statement : Bool) : Strung functions word statement []
  | plain {word statement word' statement' : Bool} {d : Directive} {ds : List Directive} {ps : List Piece}
      (hkind : d.kind = .plain) (hraw : d.raw ≠ []) (hnext : ∀ e ∈ ds.head?, e.kind ≠ .plain)
      (hwalk : Walk functions (texts ds) word statement d.raw ps word' statement')
      (htokens : ∀ c found, .act c found ∉ ps) (more : Strung functions word' statement' ds) :
      Strung functions word statement (d :: ds)
  | act {word statement : Bool} {d : Directive} {ds : List Directive} {c : Char} {found : Found}
      {indent : Text} (hkind : d.kind = found.kind) (hraw : d.raw = indent ++ c :: found.tail)
      (hadmits : if c = '@' ∨ c = '$' then statement = true else word = false)
      (hindent : ∀ e ∈ indent, isBlank e = true)
      (hothers : (∀ targets, found.kind ≠ .imports targets) → indent = [])
      (hform : Form functions c found (texts ds))
      (more : Strung functions (endsWord (c :: found.tail)) found.atStatement ds) :
      Strung functions word statement (d :: ds)

/-- A directive can start here: with a statement, with its indentation, or with a word where none
goes on. -/
def Starts (word : Bool) (s : Text) : Prop :=
  ∃ c, s.head? = some c ∧ (c = '@' ∨ c = '$' ∨ isBlank c = true ∨ isWordStart c = true ∧ word = false)

theorem Starts.append {word : Bool} {s : Text} (h : Starts word s) (t : Text) : Starts word (s ++ t) := by
  obtain ⟨c, hc, hstarts⟩ := h
  exact ⟨c, by rw [List.head?_append, hc]; rfl, hstarts⟩

theorem Starts.word {word : Bool} {s : Text} (h : Starts word s) : word = false ∨ Stops isWordChar s := by
  obtain ⟨c, hc, hstarts⟩ := h
  by_cases hword : word = false
  · exact .inl hword
  · refine .inr fun d hd => ?_
    obtain rfl : c = d := Option.some.inj (hc.symm.trans hd)
    rcases hstarts with rfl | rfl | hblank | ⟨-, hfalse⟩
    · rfl
    · rfl
    · exact isWordChar_of_isAsciiSpace (isAsciiSpace_of_isBlank hblank)
    · exact absurd hfalse hword

/-- What a directive starts with joins nothing in front of it. -/
theorem Starts.joins_eq_false {s t : Text} (h : Starts (endsWord t) s) {c d : Char}
    (hc : t.getLast? = some c) (hd : s.head? = some d) : joins c d = false := by
  obtain ⟨e, he, hstarts⟩ := h
  obtain rfl : e = d := Option.some.inj (he.symm.trans hd)
  rw [Bool.eq_false_iff]
  intro hjoins
  rcases hstarts with rfl | rfl | hblank | ⟨hstart, hword⟩
  · simp [joins, isWordChar] at hjoins
  · simp [joins, isWordChar] at hjoins
  · simp only [isBlank, Bool.or_eq_true, beq_iff_eq] at hblank
    rcases hblank with rfl | rfl <;> simp [joins, isWordChar] at hjoins
  · have hchar := isWordChar_of_joins (isWordChar_of_isWordStart hstart) hjoins
    simp [endsWord, hc, hchar] at hword

/-- A line comment would go on there. -/
theorem Starts.closed {word word' : Bool} {s : Text} {ts : List Text} (h : Starts word' s)
    (hcut : Cut s word ts word') : Closed ts := by
  obtain ⟨d, hd, hstarts⟩ := h
  intro body hbody
  obtain ⟨_, c, tail, _, hcomment, htoken⟩ := hcut.token_of_getLast? hbody
  obtain ⟨rfl, rfl⟩ := List.cons.inj hcomment
  obtain rfl : d = '\n' := by
    cases htoken with
    | lineComment _ hrest => simpa using hrest d hd
    | string _ hquote => exact absurd hquote (by decide)
  rcases hstarts with h | h | h | ⟨h, -⟩ <;> exact absurd h (by decide)

theorem Strung.raw_ne_nil {word statement : Bool} {d : Directive} {ds : List Directive}
    (h : Strung functions word statement (d :: ds)) : d.raw ≠ [] := by
  cases h with
  | plain _ hraw => exact hraw
  | act _ hraw => simp [hraw]

/-- Where a form of a directive is looked for, a directive can start. -/
theorem Form.starts {c : Char} {found : Found} {rest : Text} {word : Bool} (h : Form functions c found rest)
    (hword : c = '@' ∨ c = '$' ∨ word = false) (t : Text) : Starts word (c :: t) := by
  refine ⟨c, rfl, ?_⟩
  rcases hword with rfl | rfl | rfl
  · exact .inl rfl
  · exact .inr (.inl rfl)
  · cases h with
    | imports => exact .inl rfl
    | assign => exact .inr (.inl rfl)
    | call _ hc => exact .inr (.inr (.inr ⟨hc, rfl⟩))

/-- Behind a plain run a directive starts. -/
theorem Strung.starts {word statement : Bool} {d : Directive} {ds : List Directive}
    (h : Strung functions word statement (d :: ds)) (hd : d.kind ≠ .plain) : Starts word d.raw := by
  cases h with
  | plain hkind => exact absurd hkind hd
  | @act _ _ _ _ c found indent hkind hraw hadmits hindent hothers hform more =>
    cases indent with
    | nil =>
      rw [hraw]
      refine hform.starts ?_ found.tail
      split at hadmits
      case isTrue hc => exact hc.imp_right .inl
      case isFalse => exact .inr (.inr hadmits)
    | cons e indent => exact ⟨e, by rw [hraw]; rfl, .inr (.inr (.inl (hindent e List.mem_cons_self)))⟩

theorem texts_scanFrom {cur : Cursor} {run : Run} {t : Text} (hplace : cur.place = run.start.advance run.text)
    (h : (scanFrom functions cur run t).error? = none) :
    texts (scanFrom functions cur run t).directives = run.text ++ t := by
  obtain ⟨-, -, rest, hrest, herror⟩ := @scanFrom_cover functions cur run t hplace
  rw [hrest, herror h, List.append_nil]

/-- In front of the indentation that an import owns there is a line end, if anything. -/
theorem Run.getLast?_of_indent {run : Run} {u : Text} (h : run.text = u ++ run.indent)
    (hindent : run.indent ≠ []) : u = [] ∨ u.getLast? = some '\n' := by
  have hblanks : run.indent = (run.text.reverse.takeWhile (· != '\n')).reverse := by
    unfold Run.indent at hindent ⊢
    dsimp only at hindent ⊢
    split at hindent
    case isTrue hif => rw [if_pos hif]
    case isFalse => exact absurd rfl hindent
  have hrest : u.reverse = run.text.reverse.dropWhile (· != '\n') := by
    have hsplit := List.takeWhile_append_dropWhile (p := (· != '\n')) (l := run.text.reverse)
    have htake : run.text.reverse.takeWhile (· != '\n') = run.indent.reverse := by
      rw [hblanks, List.reverse_reverse]
    rw [htake] at hsplit
    have hreverse := congrArg List.reverse h
    rw [List.reverse_append, ← hsplit] at hreverse
    exact (List.append_cancel_left hreverse).symm
  have hhead := List.head?_dropWhile_not (· != '\n') run.text.reverse
  rw [← hrest, List.head?_reverse] at hhead
  cases hlast : u.getLast? with
  | none => exact .inl (List.getLast?_eq_none_iff.1 hlast)
  | some c =>
    rw [hlast] at hhead
    exact .inr (by simpa using hhead)

/-- Where a directive is found behind a run, it takes an indentation off the run, and the walk over
the run has gone over the rest of it first. No statement ends in the indentation. -/
theorem Walk.front_of_run {cur : Cursor} {run : Run} {c : Char} {found : Found} {rest u indent : Text}
    {word statement : Bool} {ps : List Piece} (hform : Form functions c found rest) (hadmits : Admits cur c)
    (hrun : run.text = u ++ indent)
    (himports : ∀ targets, found.kind = .imports targets → indent = run.indent)
    (hothers : (∀ targets, found.kind ≠ .imports targets) → indent = [])
    (hwalk : Walk functions (c :: (found.tail ++ rest)) word statement run.text ps cur.followsWord
      cur.context.atStatement) :
    (∀ e ∈ indent, isBlank e = true) ∧ ∃ ps₁ ps₂ word₁, ps = ps₁ ++ ps₂ ∧
      Walk functions (indent ++ c :: (found.tail ++ rest)) word statement u ps₁ word₁
        cur.context.atStatement ∧
      (if c = '@' ∨ c = '$' then cur.context.atStatement = true else word₁ = false) := by
  rw [hrun] at hwalk
  by_cases hnil : indent = []
  · subst hnil
    rw [List.append_nil] at hwalk
    exact ⟨by simp, ps, [], cur.followsWord, by simp, hwalk, hadmits⟩
  · obtain ⟨targets, hkind⟩ : ∃ targets, found.kind = .imports targets := by
      by_contra hkind
      exact hnil (hothers fun targets htargets => hkind ⟨targets, htargets⟩)
    obtain rfl := himports targets hkind
    obtain ⟨rfl, -⟩ := hform.eq_of_imports hkind
    have hblank (e : Char) (he : e ∈ run.indent) : isBlank e = true := Run.isBlank_of_mem_indent he
    obtain ⟨ps₁, ps₂, word₁, hps, hfront, -⟩ :=
      hwalk.split_blanks (Run.getLast?_of_indent hrun hnil) hblank rfl
    exact ⟨hblank, ps₁, ps₂, word₁, hps, hfront, by simpa [Admits] using hadmits⟩

/-- Behind plain text that is collected already, a scan without an error goes on in this way. -/
theorem strung_of_scanFrom {cur : Cursor} {run : Run} {t : Text} {word statement : Bool}
    {ps : List Piece} (hplace : cur.place = run.start.advance run.text)
    (hwalk : Walk functions t word statement run.text ps cur.followsWord cur.context.atStatement)
    (htokens : ∀ c found, .act c found ∉ ps) (h : (scanFrom functions cur run t).error? = none) :
    Strung functions word statement (scanFrom functions cur run t).directives := by
  fun_induction scanFrom functions cur run t generalizing word statement ps with
  | case1 cur run =>
    unfold Run.flush
    split
    · exact .nil _ _
    · exact .plain rfl ‹_› (by simp) hwalk htokens (.nil _ _)
  | case2 => cases h
  | case3 cur run c t found hfound next =>
    rename_i ih
    obtain ⟨hadmits, rest, rfl, hform⟩ := recognize_eq_some_iff.1 hfound
    rw [List.drop_left] at h ih ⊢
    have hnext : next.followsWord = endsWord (c :: found.tail) := followsWord_step cur c found.tail _
    have hrest := ih rfl (.done _ _) (by simp) h
    have htexts : texts (scanFrom functions next (.fresh next) rest).directives = rest :=
      texts_scanFrom rfl h
    rw [hnext] at hrest
    change Strung functions _ _ (complete cur run c found ++ (scanFrom functions next (.fresh next) rest).directives)
    generalize (scanFrom functions next (.fresh next) rest).directives = ds at hrest htexts ⊢
    subst htexts
    obtain ⟨u, indent, span, hrun, hcomplete, himports, hothers⟩ := complete_eq cur run c found
    obtain ⟨hblank, ps₁, ps₂, word₁, hps, hu, hback⟩ :=
      Walk.front_of_run hform hadmits hrun himports hothers hwalk
    have hact {word statement : Bool} (hadmits : if c = '@' ∨ c = '$' then statement = true else word = false) :
        Strung functions word statement (⟨found.kind, span, indent ++ c :: found.tail, cur.scope⟩ :: ds) :=
      .act rfl rfl hadmits hblank hothers hform hrest
    rw [hcomplete]
    unfold Run.flush
    split
    case isTrue hnil =>
      dsimp only at hnil
      subst hnil
      obtain rfl := hu.eq_nil
      cases hu
      exact hact hback
    case isFalse hne =>
      refine .plain rfl hne ?_ (by simpa using hu) ?_ (hact hback)
      · simpa using hform.kind_ne_plain
      · exact fun e found' hmem => htokens e found' (hps ▸ List.mem_append_left _ hmem)
  | case4 => cases h
  | case5 cur run c t hnone tail context hskip ih =>
    obtain ⟨effect, htoken, hcontext⟩ := skip_eq_ok_iff.1 hskip
    obtain ⟨rest, rfl, -⟩ := token?_eq_some_iff.1 htoken
    rw [List.drop_left] at h ih ⊢
    have hpiece := piece?_eq_token_iff.2 ⟨rfl, recognize_probe hnone, htoken⟩
    have hstep : Walk functions rest cur.followsWord cur.context.atStatement (c :: (tail ++ []))
        [.token c tail effect] (cur.step c tail context).followsWord context.atStatement := by
      refine .step (p := .token c tail effect) hpiece rfl ?_
      rw [followsWord_step, @atStatement_result? _ _ _ c tail hcontext]
      exact .done _ _
    rw [List.append_nil] at hstep
    refine ih ?_ (hwalk.append hstep) ?_ h
    · change cur.place.advance _ = run.start.advance (run.text ++ _)
      rw [Location.advance_append, hplace]
    · simpa using htokens

theorem strung_of_scanText {mode : Mode} {line : Nat} {t : Text}
    (h : (scanText functions mode line t).error? = none) :
    Strung functions false (decide (mode = .sheet)) (scanText functions mode line t).directives :=
  strung_of_scanFrom rfl (.done _ _) (by simp) h

/-! ### Between two directives -/

/-- A character that neither a word nor another token goes on behind. -/
def isEnd (c : Char) : Bool := isAsciiSpace c || isQuote c || c == ':' || c == ';' || c == ')'

theorem joins_of_isEnd {c : Char} (h : isEnd c = true) (d : Char) : joins c d = false := by
  simp only [isEnd, isAsciiSpace, isQuote, Bool.or_eq_true, beq_iff_eq] at h
  rcases h with (((((((rfl | rfl) | rfl) | rfl) | rfl) | rfl | rfl) | rfl) | rfl) | rfl <;>
    simp [joins, isWordChar]

theorem endsWord_of_isEnd {t : Text} {c : Char} (ht : t.getLast? = some c) (h : isEnd c = true) :
    endsWord t = false := by
  rw [endsWord, ht]
  simp only [isEnd, isAsciiSpace, isQuote, Bool.or_eq_true, beq_iff_eq] at h
  rcases h with (((((((rfl | rfl) | rfl) | rfl) | rfl) | rfl | rfl) | rfl) | rfl) | rfl <;> decide

/-- What the items of an import end in. -/
theorem ItemList.getLast?_spelling {items : Targets} {rest : Text} (h : ItemList items rest)
    (hcss : items.isCss = false) {d : Char} (hd : items.spelling.getLast? = some d) :
    isEnd d = true := by
  -- an item ends in a quote, and behind it there are only blanks
  have hend {target : Target} {space blank : Text} (hitem : Item target) (htarget : target.isCss = false)
      (hblank : ∀ c ∈ blank, isBlank c = true)
      (hd : (space ++ target.spelling ++ blank).getLast? = some d) : isEnd d = true := by
    rcases getLast?_append_cases hd with ⟨-, hd⟩ | hd
    · cases hitem with
      | url => cases htarget
      | @quoted quote body hquote hbody =>
        rw [List.getLast?_append_of_ne_nil _ (List.cons_ne_nil _ _), List.getLast?_cons,
          stringTail_getLast? hbody] at hd
        obtain rfl : quote = d := by simpa using hd
        simp [isEnd, hquote]
    · simp [isEnd, isAsciiSpace_of_isBlank (hblank d (List.mem_of_getLast? hd))]
  induction h with
  | @comma space blank rest target others hspace hitem hblank more ih =>
    obtain ⟨-, hothers⟩ := Bool.or_eq_false_iff.1 hcss
    refine ih hothers ?_
    rw [List.getLast?_append_of_ne_nil _ (List.cons_ne_nil _ _), List.getLast?_cons] at hd
    cases hlast : others.spelling.getLast? with
    | none => exact absurd (List.getLast?_eq_none_iff.1 hlast) more.spelling_ne_nil
    | some e => simpa [hlast] using hd
  | semicolon =>
    rw [List.getLast?_concat] at hd
    obtain rfl := Option.some.inj hd
    rfl
  | bare _ hitem hblank => exact hend hitem (Bool.or_eq_false_iff.1 hcss).1 hblank hd

/-- What an import ends in. -/
theorem Form.getLast?_imports {c : Char} {found : Found} {rest : Text} (h : Form functions c found rest)
    {targets : List Text} (hkind : found.kind = .imports targets) {d : Char}
    (hd : (c :: found.tail).getLast? = some d) : isEnd d = true := by
  obtain ⟨rfl, -⟩ := h.eq_of_imports hkind
  cases h with
  | @imports items blank lineEnd rest hhead hitems hcss hblank hend =>
    rw [← List.cons_append, ← List.cons_append, ← List.cons_append] at hd
    rcases getLast?_append_cases hd with ⟨-, hd⟩ | hd
    · rcases getLast?_append_cases hd with ⟨-, hd⟩ | hd
      · rw [List.getLast?_append_of_ne_nil _ hitems.spelling_ne_nil] at hd
        exact hitems.getLast?_spelling hcss hd
      · simp [isEnd, isAsciiSpace_of_isTrailing (hblank d (List.mem_of_getLast? hd))]
    · cases hend with
      | taken =>
        obtain rfl : '\n' = d := by simpa using hd
        rfl
      | absent => cases hd
  | call _ hc => exact absurd hc (by decide)

theorem Strung.joins_eq_false {word statement : Bool} {d : Directive} {ds : List Directive}
    (h : Strung functions word statement (d :: ds)) {c e : Char} (hc : d.raw.getLast? = some c)
    (he : (texts ds).head? = some e) : joins c e = false := by
  cases h with
  | @plain _ _ word' statement' _ _ ps hkind hraw hnext hwalk htokens more =>
    cases ds with
    | nil => cases he
    | cons d' ds =>
      have hstarts := (more.starts (hnext d' rfl)).append (texts ds)
      obtain ⟨ts, hts, hquiet, -⟩ := hwalk.quiet htokens
      have hne : ts ≠ [] := by
        rintro rfl
        exact hraw hts.symm
      rw [hquiet.cut.word_eq hne, hts] at hstarts
      exact hstarts.joins_eq_false hc he
  | @act _ _ _ _ c' found indent hkind hraw hadmits hindent hothers hform more =>
    have hlast : (c' :: found.tail).getLast? = some c := by
      rw [hraw, List.getLast?_append_of_ne_nil _ (List.cons_ne_nil _ _)] at hc
      exact hc
    by_cases himports : ∀ targets, found.kind ≠ .imports targets
    · exact hform.joins_eq_false himports hlast he
    · rw [not_forall] at himports
      obtain ⟨targets, htargets⟩ := himports
      exact joins_of_isEnd (hform.getLast?_imports (not_not.1 htargets) hlast) e

/-- A directive that ends in a word is followed by a brace, or by nothing. -/
theorem Form.endsWord_or_stops {c : Char} {found : Found} {rest : Text} (h : Form functions c found rest) :
    endsWord (c :: found.tail) = false ∨ Stops isWordChar rest := by
  by_cases hkind : ∃ targets, found.kind = .imports targets
  · obtain ⟨targets, hkind⟩ := hkind
    have hlast := List.getLast?_eq_some_getLast (List.cons_ne_nil c found.tail)
    exact .inl (endsWord_of_isEnd hlast (h.getLast?_imports hkind hlast))
  · cases h with
    | imports => exact absurd ⟨_, rfl⟩ hkind
    | @assign name space gap body stop rest hname hword hspace hgap hbody hstatement hvalue =>
      rcases hstatement.ends with rfl | ⟨-, hbrace⟩
      · refine .inl (@endsWord_of_isEnd _ ';' ?_ rfl)
        rw [← List.cons_append, List.getLast?_concat]
      · refine .inr fun d hd => ?_
        rcases hbrace d hd with rfl | rfl <;> rfl
    | call _ hc hword hbody =>
      refine .inl (@endsWord_of_isEnd _ ')' ?_ rfl)
      rw [← List.cons_append, List.getLast?_append, List.getLast?_cons, bracketTail_getLast? hbody]
      rfl

end StylePrep.Scan
