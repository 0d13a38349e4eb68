import StylePrep.Proofs.Forms

/-!
# Tokens of plain text

Where no directive is recognized, a scan takes one token. Which token that is, and
what it does to the surroundings, depends only on the text and on whether a word
comes before it (`skip_toOption`). The surroundings matter in one case alone: a
closing brace needs an open block.

Lines reach the scanner only for the sake of its errors, so two cursors that agree
on whether a word comes before and whether a statement can start recognize the same
directives (`recognize_toOption`).
-/

namespace StylePrep.Scan

open Text Delimited

variable {functions : FunctionTable}

/-- What a token does to its surroundings. -/
inductive Effect where
  | keeps
  | enters
  | opens
  | closes
  | ends
  deriving DecidableEq, Repr

/-- The surroundings behind a token; none if a brace closes no block. -/
def Effect.result? : Effect → Context → Option Context
  | keeps, context => some context
  | enters, context => some { context with atStatement := false }
  | opens, context => some ⟨context.nextBlock :: context.blocks, context.nextBlock + 1, true⟩
  | closes, context => match context.blocks with
    | [] => none
    | _ :: blocks => some { context with blocks, atStatement := true }
  | ends, context => some { context with atStatement := true }

/-- The token that starts with a character: the text it takes behind it and what
it does; none if it is never closed. -/
def token? (followsWord : Bool) (c : Char) (t : Text) : Option (Text × Effect) :=
  if c = '/' ∧ t.head? = some '/' then some (t.takeWhile (· != '\n'), .keeps)
  else if c = '/' ∧ t.head? = some '*' then
    (commentTail t.tail).map fun tail => ('*' :: tail, .keeps)
  else if isQuote c then (stringTail c t).map fun tail => (tail, .enters)
  else if c = '#' ∧ t.head? = some '{' then
    (braceTail t.tail).map fun tail => ('{' :: tail, .enters)
  else if (after? "url(".toList (c :: t)).isSome ∧ !followsWord then
    (parenTail (t.drop 3)).map fun tail => ("rl(".toList ++ tail, .enters)
  else if c = '{' then some ([], .opens)
  else if c = '}' then some ([], .closes)
  else if c = ';' then some ([], .ends)
  else if isAsciiSpace c then some ([], .keeps)
  else some ([], .enters)

/-- Taking a token is finding it and letting it have its effect. -/
theorem skip_toOption (cur : Cursor) (c : Char) (t : Text) :
    (skip cur c t).toOption = (token? cur.followsWord c t).bind fun (tail, effect) =>
      (effect.result? cur.context).map fun context => (tail, context) := by
  rw [skip, token?]
  by_cases hline : c = '/' ∧ t.head? = some '/'
  · rw [if_pos hline, if_pos hline]
    rfl
  rw [if_neg hline, if_neg hline]
  by_cases hblock : c = '/' ∧ t.head? = some '*'
  · rw [if_pos hblock, if_pos hblock]
    cases commentTail t.tail <;> rfl
  rw [if_neg hblock, if_neg hblock]
  by_cases hquote : isQuote c = true
  · rw [if_pos hquote, if_pos hquote]
    cases stringTail c t <;> rfl
  rw [if_neg hquote, if_neg hquote]
  by_cases hbrace : c = '#' ∧ t.head? = some '{'
  · rw [if_pos hbrace, if_pos hbrace]
    cases braceTail t.tail <;> rfl
  rw [if_neg hbrace, if_neg hbrace]
  by_cases hurl : (after? "url(".toList (c :: t)).isSome = true ∧ (!cur.followsWord) = true
  · rw [if_pos hurl, if_pos hurl]
    cases parenTail (t.drop 3) <;> rfl
  rw [if_neg hurl, if_neg hurl]
  by_cases hopen : c = '{'
  · rw [if_pos hopen, if_pos hopen]
    rfl
  rw [if_neg hopen, if_neg hopen]
  by_cases hclose : c = '}'
  · rw [if_pos hclose, if_pos hclose]
    cases hblocks : cur.context.blocks <;> simp [Effect.result?, hblocks, Except.toOption]
  rw [if_neg hclose, if_neg hclose]
  by_cases hend : c = ';'
  · rw [if_pos hend, if_pos hend]
    rfl
  rw [if_neg hend, if_neg hend]
  by_cases hspace : isAsciiSpace c = true
  · rw [if_pos hspace, if_pos hspace]
    rfl
  rw [if_neg hspace, if_neg hspace]
  rfl

theorem toOption_eq_some_iff {α : Type} {x : Except ScanError α} {a : α} :
    x.toOption = some a ↔ x = .ok a := by
  cases x <;> simp [Except.toOption]

theorem skip_eq_ok_iff {cur : Cursor} {c : Char} {t tail : Text} {context : Context} :
    skip cur c t = .ok (tail, context) ↔ ∃ effect,
      token? cur.followsWord c t = some (tail, effect) ∧ effect.result? cur.context = some context := by
  rw [← toOption_eq_some_iff, skip_toOption, Option.bind_eq_some_iff]
  constructor
  · rintro ⟨⟨tail', effect⟩, htoken, happly⟩
    obtain ⟨context', hcontext, heq⟩ := Option.map_eq_some_iff.1 happly
    cases heq
    exact ⟨effect, htoken, hcontext⟩
  · rintro ⟨effect, htoken, happly⟩
    exact ⟨(tail, effect), htoken, by simp [happly]⟩

/-- What a character does that is a token on its own. -/
def effectOf (c : Char) : Effect :=
  if c = '{' then .opens
  else if c = '}' then .closes
  else if c = ';' then .ends
  else if isAsciiSpace c then .keeps
  else .enters

/-- The tokens: the first character, the text behind it and the effect, in front of
the text that follows. -/
inductive Token (followsWord : Bool) : Char → Text → Effect → Text → Prop where
  | lineComment {body rest : Text} (hbody : ∀ c ∈ body, (c != '\n') = true)
      (hrest : Stops (· != '\n') rest) : Token followsWord '/' ('/' :: body) .keeps rest
  | blockComment {body : Text} (rest : Text) (hbody : commentTail body = some body) :
      Token followsWord '/' ('*' :: body) .keeps rest
  | string {c : Char} {body : Text} (rest : Text) (hc : isQuote c = true)
      (hbody : stringTail c body = some body) : Token followsWord c body .enters rest
  | interpolation {body : Text} (rest : Text) (hbody : braceTail body = some body) :
      Token followsWord '#' ('{' :: body) .enters rest
  | url {body : Text} (rest : Text) (hword : followsWord = false)
      (hbody : parenTail body = some body) :
      Token followsWord 'u' ("rl(".toList ++ body) .enters rest
  | single {c : Char} {rest : Text} (hline : ¬ (c = '/' ∧ rest.head? = some '/'))
      (hblock : ¬ (c = '/' ∧ rest.head? = some '*')) (hquote : ¬ isQuote c = true)
      (hbrace : ¬ (c = '#' ∧ rest.head? = some '{'))
      (hurl : ¬ ((after? "url(".toList (c :: rest)).isSome = true ∧ followsWord = false)) :
      Token followsWord c [] (effectOf c) rest

theorem token_of_token? {followsWord : Bool} {c : Char} {t tail : Text} {effect : Effect}
    (h : token? followsWord c t = some (tail, effect)) :
    ∃ rest, t = tail ++ rest ∧ Token followsWord c tail effect rest := by
  rw [token?] at h
  by_cases hline : c = '/' ∧ t.head? = some '/'
  · rw [if_pos hline] at h
    cases h
    obtain ⟨rfl, hhead⟩ := hline
    obtain ⟨t, rfl⟩ := List.head?_eq_some_iff.1 hhead
    refine ⟨t.dropWhile (· != '\n'), by simp [List.takeWhile_append_dropWhile], ?_⟩
    have htake : ('/' :: t).takeWhile (· != '\n') = '/' :: t.takeWhile (· != '\n') := by simp
    rw [htake]
    exact .lineComment (fun c => of_mem_takeWhile) (stops_dropWhile _ t)
  rw [if_neg hline] at h
  by_cases hblock : c = '/' ∧ t.head? = some '*'
  · rw [if_pos hblock] at h
    obtain ⟨body, hbody, heq⟩ := Option.map_eq_some_iff.1 h
    cases heq
    obtain ⟨rfl, hhead⟩ := hblock
    obtain ⟨t, rfl⟩ := List.head?_eq_some_iff.1 hhead
    obtain ⟨rest, rfl⟩ := commentTail_isPrefix hbody
    exact ⟨rest, rfl, .blockComment rest (by simpa using commentTail_congr hbody [])⟩
  rw [if_neg hblock] at h
  by_cases hquote : isQuote c = true
  · rw [if_pos hquote] at h
    obtain ⟨body, hbody, heq⟩ := Option.map_eq_some_iff.1 h
    cases heq
    obtain ⟨rest, rfl⟩ := stringTail_isPrefix hbody
    exact ⟨rest, rfl, .string rest hquote (by simpa using stringTail_congr hbody [])⟩
  rw [if_neg hquote] at h
  by_cases hbrace : c = '#' ∧ t.head? = some '{'
  · rw [if_pos hbrace] at h
    obtain ⟨body, hbody, heq⟩ := Option.map_eq_some_iff.1 h
    cases heq
    obtain ⟨rfl, hhead⟩ := hbrace
    obtain ⟨t, rfl⟩ := List.head?_eq_some_iff.1 hhead
    obtain ⟨rest, rfl⟩ := bracketTail_isPrefix hbody
    exact ⟨rest, rfl, .interpolation rest (by simpa using braceTail_congr hbody [])⟩
  rw [if_neg hbrace] at h
  by_cases hurl : (after? "url(".toList (c :: t)).isSome = true ∧ (!followsWord) = true
  · rw [if_pos hurl] at h
    obtain ⟨body, hbody, heq⟩ := Option.map_eq_some_iff.1 h
    cases heq
    obtain ⟨after, hafter⟩ := Option.isSome_iff_exists.1 hurl.1
    have ht : c :: t = 'u' :: ("rl(".toList ++ after) := after?_eq_some_iff.1 hafter
    obtain ⟨rfl, rfl⟩ := List.cons.inj ht
    obtain ⟨rest, hrest⟩ := bracketTail_isPrefix hbody
    have hafter : after = body ++ rest := hrest.symm
    refine ⟨rest, by rw [hafter, List.append_assoc], .url rest (by simpa using hurl.2) ?_⟩
    simpa using parenTail_congr hbody []
  rw [if_neg hurl] at h
  have hsingle : tail = [] ∧ effect = effectOf c := by
    unfold effectOf
    revert h
    by_cases h₁ : c = '{'
    · simp [h₁, eq_comm]
    by_cases h₂ : c = '}'
    · simp [h₂, eq_comm]
    by_cases h₃ : c = ';'
    · simp [h₃, eq_comm]
    by_cases h₄ : isAsciiSpace c = true <;> simp [h₁, h₂, h₃, h₄, eq_comm]
  obtain ⟨rfl, rfl⟩ := hsingle
  exact ⟨t, rfl, .single hline hblock hquote hbrace (by simpa using hurl)⟩

theorem Token.token? {followsWord : Bool} {c : Char} {tail rest : Text} {effect : Effect}
    (h : Token followsWord c tail effect rest) :
    token? followsWord c (tail ++ rest) = some (tail, effect) := by
  cases h with
  | lineComment hbody hrest =>
    have htake := takeWhile_append_of_stops hbody hrest
    simp [Scan.token?, htake]
  | blockComment rest hbody =>
    have hcomment := commentTail_congr hbody rest
    simp [Scan.token?, hcomment]
  | string rest hc hbody =>
    have hslash : c ≠ '/' := by
      rintro rfl
      exact absurd hc (by decide)
    have hstring := stringTail_congr hbody rest
    simp [Scan.token?, hslash, hc, hstring]
  | interpolation rest hbody =>
    have hbrace := braceTail_congr hbody rest
    simp [Scan.token?, isQuote, hbrace]
  | @url body rest hword hbody =>
    have hafter : after? "url(".toList ('u' :: ("rl(".toList ++ body ++ rest)) =
        some (body ++ rest) := after?_eq_some_iff.2 (by simp)
    have hdrop : ("rl(".toList ++ body ++ rest).drop 3 = body ++ rest := rfl
    have hparen := parenTail_congr hbody rest
    rw [Scan.token?, if_neg (by simp), if_neg (by simp), if_neg (by decide), if_neg (by simp),
      if_pos ⟨by rw [hafter]; rfl, by simp [hword]⟩, hdrop, hparen]
    rfl
  | single hline hblock hquote hbrace hurl =>
    rw [List.nil_append, Scan.token?, if_neg hline, if_neg hblock, if_neg hquote, if_neg hbrace,
      if_neg (by simpa using hurl), effectOf]
    by_cases h₁ : c = '{'
    · simp [h₁]
    by_cases h₂ : c = '}'
    · simp [h₂]
    by_cases h₃ : c = ';'
    · simp [h₃]
    by_cases h₄ : isAsciiSpace c = true <;> simp [h₁, h₂, h₃, h₄]

theorem token?_eq_some_iff {followsWord : Bool} {c : Char} {t tail : Text} {effect : Effect} :
    token? followsWord c t = some (tail, effect) ↔
      ∃ rest, t = tail ++ rest ∧ Token followsWord c tail effect rest := by
  constructor
  · exact token_of_token?
  · rintro ⟨rest, rfl, h⟩
    exact h.token?

/-! ### Independence of lines -/

theorem readTargets_toOption (first line first' line' : Nat) (t : Text) :
    (readTargets first line t).toOption = (readTargets first' line' t).toOption := by
  apply Option.ext
  intro items
  rw [toOption_eq_some_iff, toOption_eq_some_iff, readTargets_eq_ok_iff, readTargets_eq_ok_iff]

theorem readStatement_toOption (line line' depth : Nat) (t : Text) :
    (readStatement line depth t).toOption = (readStatement line' depth t).toOption := by
  apply Option.ext
  rintro ⟨value, stop⟩
  rw [toOption_eq_some_iff, toOption_eq_some_iff, readStatement_eq_ok_iff, readStatement_eq_ok_iff]

theorem toOption_bind {α β : Type} (x : Except ScanError α) (f : α → Except ScanError β) :
    (x >>= f).toOption = x.toOption.bind fun a => (f a).toOption := by
  cases x <;> rfl

theorem readImport_toOption (line line' : Nat) (t : Text) :
    (readImport line t).toOption = (readImport line' t).toOption := by
  unfold readImport
  split
  · rfl
  split
  · rw [toOption_bind, toOption_bind, readTargets_toOption line line line' line']
  · rfl

theorem readAssignment_toOption (line line' : Nat) (t : Text) :
    (readAssignment line t).toOption = (readAssignment line' t).toOption := by
  unfold readAssignment
  simp only
  split
  · rfl
  split
  case h_2 => rfl
  case h_1 rest _ =>
    rw [toOption_bind, toOption_bind, readStatement_toOption _ (line' + newlines _)]
    congr 1
    funext ⟨body, stop⟩
    simp only
    split <;> rfl

theorem readCall_toOption (line line' : Nat) (c : Char) (t : Text) :
    (readCall functions line c t).toOption = (readCall functions line' c t).toOption := by
  unfold readCall
  simp only
  split
  case h_2 => rfl
  case h_1 =>
    split
    · rfl
    split
    · rfl
    split <;> rfl

/-- Cursors with a word before them, and at a statement, alike recognize the same
directives and fail alike. -/
theorem recognize_toOption {cur cur' : Cursor} (hword : cur'.followsWord = cur.followsWord)
    (hstatement : cur'.context.atStatement = cur.context.atStatement) (c : Char) (t : Text) :
    (recognize functions cur' c t).toOption = (recognize functions cur c t).toOption := by
  unfold recognize
  rw [hword, hstatement]
  split
  · exact readImport_toOption _ _ t
  split
  · exact readAssignment_toOption _ _ t
  split
  · exact readCall_toOption _ _ c t
  · rfl

end StylePrep.Scan
