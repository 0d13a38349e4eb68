import StylePrep.Proofs.Pieces

/-!
# Seams

Two texts are joined at a seam: the first one is empty or ends its last line. A scan
of the first text can look beyond the seam in a few ways only. It can read an
assignment whose value is not finished, items of an import or a name that is not
followed by a colon yet. If a statement can start at the seam, none of this has
happened, and the pieces of the first text do not depend on the second one
(`Walk.congr`).

The condition on the second text (`Bars`) is that it starts with an import, or with
nothing at all, so that it continues no item of another import.
-/

namespace StylePrep

namespace Delimited

theorem stringTail_getLast? {quote : Char} {t body : Text} (h : stringTail quote t = some body) :
    body.getLast? = some quote := by
  fun_induction stringTail quote t generalizing body with
  | case1 => simp at h
  | case2 => simp at h
  | case3 c t ih =>
    obtain ⟨rest, hrest, rfl⟩ := Option.map_eq_some_iff.1 h
    simp [List.getLast?_cons, ih hrest]
  | case4 => simp at h
  | case5 =>
    obtain rfl := Option.some.inj h
    rfl
  | case6 c t _ _ _ ih =>
    obtain ⟨rest, hrest, rfl⟩ := Option.map_eq_some_iff.1 h
    simp [List.getLast?_cons, ih hrest]

theorem commentTail_getLast? {t body : Text} (h : commentTail t = some body) :
    body.getLast? = some '/' := by
  fun_induction commentTail t generalizing body with
  | case1 => simp at h
  | case2 =>
    obtain rfl := Option.some.inj h
    rfl
  | case3 c t _ ih =>
    obtain ⟨rest, hrest, rfl⟩ := Option.map_eq_some_iff.1 h
    simp [List.getLast?_cons, ih hrest]

theorem bracketTail_getLast? {opening closing : Char} {depth : Nat} {t body : Text}
    (h : bracketTail opening closing depth t = some body) : body.getLast? = some closing := by
  fun_induction bracketTail opening closing depth t generalizing body with
  | case1 => simp at h
  | case2 => simp at h
  | case3 depth c t _ inner hinner ih =>
    obtain ⟨rest, hrest, rfl⟩ := Option.map_eq_some_iff.1 h
    simp [List.getLast?_cons, List.getLast?_append, ih hrest]
  | case4 => simp at h
  | case5 depth c t _ hc inner hinner ih =>
    obtain ⟨rest, hrest, rfl⟩ := Option.map_eq_some_iff.1 h
    simp [List.getLast?_cons, List.getLast?_append, ih hrest]
  | case6 depth t _ _ ih =>
    obtain ⟨rest, hrest, rfl⟩ := Option.map_eq_some_iff.1 h
    simp [List.getLast?_cons, ih hrest]
  | case7 =>
    obtain rfl := Option.some.inj h
    rfl
  | case8 depth t _ _ _ _ ih =>
    obtain ⟨rest, hrest, rfl⟩ := Option.map_eq_some_iff.1 h
    simp [List.getLast?_cons, ih hrest]
  | case9 depth c t _ _ _ _ ih =>
    obtain ⟨rest, hrest, rfl⟩ := Option.map_eq_some_iff.1 h
    simp [List.getLast?_cons, ih hrest]

end Delimited

namespace Scan

open Text Delimited

variable {functions : FunctionTable}

/-! ### How pieces end -/

theorem getLast?_append_cases {x y : Text} {c : Char} (h : (x ++ y).getLast? = some c) :
    (y = [] ∧ x.getLast? = some c) ∨ y.getLast? = some c := by
  cases hy : y.getLast? with
  | none =>
    obtain rfl := List.getLast?_eq_none_iff.1 hy
    exact .inl ⟨rfl, by simpa using h⟩
  | some d =>
    rw [List.getLast?_append, hy] at h
    exact .inr h

/-- The last character of a text in front of the white space that an import takes along
on its line. -/
def lastCode? (t : Text) : Option Char := (t.reverse.dropWhile isTrailing).head?

theorem lastCode?_of_getLast? {t : Text} {c : Char} (h : t.getLast? = some c)
    (hc : isTrailing c = false) : lastCode? t = some c := by
  obtain ⟨t, rfl⟩ := List.getLast?_eq_some_iff.1 h
  simp [lastCode?, hc]

theorem lastCode?_append_of_trailing (t : Text) {b : Text} (hb : ∀ c ∈ b, isTrailing c = true) :
    lastCode? (t ++ b) = lastCode? t := by
  unfold lastCode?
  rw [List.reverse_append, List.dropWhile_append_of_pos (by simpa using hb)]

theorem lastCode?_append_of_some (s : Text) {t : Text} {c : Char} (h : lastCode? t = some c) :
    lastCode? (s ++ t) = some c := by
  unfold lastCode? at h ⊢
  rw [List.reverse_append, List.dropWhile_append]
  split
  case isTrue hempty =>
    rw [List.isEmpty_iff.1 hempty] at h
    cases h
  case isFalse =>
    rw [List.head?_append, h]
    rfl

theorem mem_of_lastCode? {t : Text} {c : Char} (h : lastCode? t = some c) : c ∈ t := by
  have hmem := (List.dropWhile_suffix isTrailing).subset (List.mem_of_head? h)
  exact List.mem_reverse.1 hmem

theorem isTrailing_of_isBlank {c : Char} (h : isBlank c = true) : isTrailing c = true := by
  simp [isTrailing, h]

theorem Item.lastCode? {target : Target} (h : Item target) :
    ∃ c, Scan.lastCode? target.spelling = some c ∧ isAsciiSpace c = false := by
  cases h with
  | @quoted quote body hquote hbody =>
    have hspace : isAsciiSpace quote = false ∧ isTrailing quote = false := by
      simp only [isQuote, Bool.or_eq_true, beq_iff_eq] at hquote
      rcases hquote with rfl | rfl <;> decide
    have hlast : (quote :: body).getLast? = some quote := by
      simp [List.getLast?_cons, stringTail_getLast? hbody]
    exact ⟨quote, lastCode?_of_getLast? hlast hspace.2, hspace.1⟩
  | @url body hbody =>
    have hlast : ("url(".toList ++ body).getLast? = some ')' := by
      rw [List.getLast?_append, bracketTail_getLast? hbody]
      rfl
    exact ⟨')', lastCode?_of_getLast? hlast (by decide), by decide⟩

/-- The items of an import end in no white space, but for blanks. -/
theorem ItemList.lastCode? {items : Targets} {rest : Text} (h : ItemList items rest) :
    ∃ c, Scan.lastCode? items.spelling = some c ∧ isAsciiSpace c = false := by
  induction h with
  | comma _ _ _ _ ih =>
    obtain ⟨c, hc, hspace⟩ := ih
    refine ⟨c, ?_, hspace⟩
    rw [List.append_cons]
    exact lastCode?_append_of_some _ hc
  | semicolon =>
    exact ⟨';', lastCode?_of_getLast? (by simp) (by decide), by decide⟩
  | @bare space blank _ target _ hitem hblank _ =>
    obtain ⟨c, hc, hspace⟩ := hitem.lastCode?
    refine ⟨c, ?_, hspace⟩
    rw [lastCode?_append_of_trailing _ fun d hd => isTrailing_of_isBlank (hblank d hd)]
    exact lastCode?_append_of_some _ hc

theorem ItemList.lastCode?_import_ne {items : Targets} {rest blank : Text} (h : ItemList items rest)
    (hblank : ∀ c ∈ blank, isTrailing c = true) :
    Scan.lastCode? ('@' :: ("import".toList ++ items.spelling ++ blank)) ≠ some '\n' := by
  obtain ⟨c, hc, hspace⟩ := h.lastCode?
  rw [← List.cons_append, lastCode?_append_of_trailing _ hblank, ← List.cons_append,
    lastCode?_append_of_some _ hc]
  rintro heq
  cases heq
  cases hspace

/-! ### Pieces at the front of a text -/

theorem recognize_eq_none_of {word statement : Bool} {c : Char} (hat : ¬ (c = '@' ∧ statement = true))
    (hdollar : ¬ (c = '$' ∧ statement = true)) (hword : ¬ (isWordStart c = true ∧ word = false))
    (t : Text) : recognize functions (probe word statement) c t = .ok none := by
  unfold recognize
  rw [if_neg (by simpa using hat), if_neg (by simpa using hdollar), if_neg (by simpa using hword)]

theorem piece?_of_token {word statement : Bool} {c : Char} {tail rest : Text} {effect : Effect}
    (hnone : recognize functions (probe word statement) c (tail ++ rest) = .ok none)
    (h : Token word c tail effect rest) :
    piece? functions word statement c (tail ++ rest) = some (.token c tail effect) :=
  piece?_eq_token_iff.2 ⟨rfl, hnone, h.token?⟩

/-- White space is taken one character at a time. -/
theorem piece?_space (word statement : Bool) {c : Char} (hc : isAsciiSpace c = true) (t : Text) :
    piece? functions word statement c t = some (.token c [] .keeps) := by
  have hchar : c = ' ' ∨ c = '\t' ∨ c = '\n' ∨ c = '\x0c' ∨ c = '\r' := by
    simpa [isAsciiSpace, or_assoc] using hc
  have hnone : recognize functions (probe word statement) c t = .ok none := by
    rcases hchar with rfl | rfl | rfl | rfl | rfl <;>
      exact recognize_eq_none_of (by simp) (by simp) (by simp [isWordStart]) t
  have htoken : Token word c [] (effectOf c) t := by
    rcases hchar with rfl | rfl | rfl | rfl | rfl <;>
      exact .single (by simp) (by simp) (by decide) (by simp) (by simp [after?])
  have heffect : effectOf c = .keeps := by
    rcases hchar with rfl | rfl | rfl | rfl | rfl <;> rfl
  rw [← heffect]
  exact piece?_of_token hnone htoken

/-- So is a comma. -/
theorem piece?_comma (word statement : Bool) (t : Text) :
    piece? functions word statement ',' t = some (.token ',' [] .enters) :=
  piece?_of_token (recognize_eq_none_of (by simp) (by simp) (by simp [isWordStart]) t)
    (.single (by simp) (by simp) (by decide) (by simp) (by simp [after?]))

/-- Inside a word its characters are taken one at a time. -/
theorem piece?_wordChar {statement : Bool} {c : Char} (hc : isWordChar c = true) (t : Text) :
    piece? functions true statement c t = some (.token c [] .enters) := by
  have hne (d : Char) (hd : isWordChar d = false) : c ≠ d := by
    rintro rfl
    rw [hc] at hd
    cases hd
  have hnone : recognize functions (probe true statement) c t = .ok none :=
    recognize_eq_none_of (fun h => hne '@' (by decide) h.1) (fun h => hne '$' (by decide) h.1)
      (by simp) t
  have hquote : ¬ isQuote c = true := by
    simp [isQuote, hne '"' (by decide), hne '\'' (by decide)]
  have htoken : Token true c [] (effectOf c) t :=
    .single (fun h => hne '/' (by decide) h.1) (fun h => hne '/' (by decide) h.1) hquote
      (fun h => hne '#' (by decide) h.1) (by simp)
  have heffect : effectOf c = .enters := by
    have hspace : ¬ isAsciiSpace c = true := by
      intro hspace
      rw [isWordChar_of_isAsciiSpace hspace] at hc
      cases hc
    rw [effectOf, if_neg (hne '{' (by decide)), if_neg (hne '}' (by decide)),
      if_neg (hne ';' (by decide)), if_neg hspace]
  rw [← heffect]
  exact piece?_of_token hnone htoken

/-- A string is taken as a whole. -/
theorem piece?_string (word statement : Bool) {quote : Char} {body : Text}
    (hquote : isQuote quote = true) (hbody : stringTail quote body = some body) (rest : Text) :
    piece? functions word statement quote (body ++ rest) = some (.token quote body .enters) := by
  refine piece?_of_token ?_ (.string rest hquote hbody)
  simp only [isQuote, Bool.or_eq_true, beq_iff_eq] at hquote
  rcases hquote with rfl | rfl <;>
    exact recognize_eq_none_of (by simp) (by simp) (by simp [isWordStart]) _

/-- So is `url(…)`, as a token or as a call. -/
theorem piece?_url (functions : FunctionTable) (statement : Bool) {body : Text}
    (hbody : parenTail body = some body) (rest : Text) :
    ∃ p, piece? functions false statement 'u' ("rl(".toList ++ body ++ rest) = some p ∧
      p.text = "url(".toList ++ body ∧ p.statement statement = false := by
  by_cases hknown : functions.contains "url".toList = true
  · refine ⟨.act 'u' ⟨.custom "url".toList (Call.splitArgs body.dropLast), "rl(".toList ++ body, false⟩,
      piece?_eq_act_iff.2 ⟨rfl, recognize_eq_some_iff.2 ⟨by simp [Admits], rest, rfl, ?_⟩⟩, rfl, rfl⟩
    have hkind : callKind? functions ('u' :: "rl".toList) body =
        some (.custom "url".toList (Call.splitArgs body.dropLast)) := by
      have hnone : SpriteFunction.ofName? ('u' :: "rl".toList) = none := by decide
      rw [callKind?, hnone]
      exact if_pos hknown
    exact .call rest (by decide) (List.all_eq_true.1 (by decide +kernel)) hbody hkind
  · refine ⟨.token 'u' ("rl(".toList ++ body) .enters, piece?_of_token ?_ (.url rest rfl hbody), rfl, rfl⟩
    have hnone : SpriteFunction.ofName? "url".toList = none := by decide
    have hword : ("rl(".toList ++ body ++ rest).takeWhile isWordChar = "rl".toList := by
      simp [isWordChar]
    have hrest : ("rl(".toList ++ body ++ rest).dropWhile isWordChar = '(' :: (body ++ rest) := by
      simp [isWordChar]
    unfold recognize
    rw [if_neg (by simp), if_neg (by simp), if_pos (by simp [isWordStart])]
    unfold readCall
    simp only [hword, hrest]
    exact if_pos ⟨by rw [show 'u' :: "rl".toList = "url".toList from rfl, hnone]; rfl, by simpa using hknown⟩

/-! ### Walks with a known front -/

namespace Walk

variable {s u : Text} {word statement word' statement' : Bool} {ps : List Piece}

theorem eq_nil (h : Walk functions s word statement [] ps word' statement') : ps = [] := by
  have htexts := h.texts_eq
  cases ps with
  | nil => rfl
  | cons p ps => exact absurd (List.append_eq_nil_iff.1 htexts).1 p.text_ne_nil

/-- The first piece of a walk is the first piece of the text. -/
theorem of_piece (h : Walk functions s word statement u ps word' statement') (hu : u ≠ []) {c : Char}
    {t : Text} {p : Piece} (hp : piece? functions word statement c t = some p)
    (heq : u ++ s = c :: t) :
    ∃ u' ps', u = p.text ++ u' ∧ ps = p :: ps' ∧
      Walk functions s (endsWord p.text) (p.statement statement) u' ps' word' statement' := by
  cases h with
  | done => exact absurd rfl hu
  | @step _ _ _ _ d tail u q ps hq htext more =>
    obtain ⟨rfl, rfl⟩ : d = c ∧ tail ++ (u ++ s) = t := by simpa using heq
    obtain rfl : q = p := Option.some.inj (hq.symm.trans hp)
    exact ⟨u, ps, by rw [htext]; rfl, rfl, more⟩

/-- A walk over white space ends in it or goes on behind it. -/
theorem of_spaces {space rest : Text} (hspace : ∀ c ∈ space, isAsciiSpace c = true)
    (h : Walk functions s word statement u ps word' statement') (heq : u ++ s = space ++ rest) :
    (∃ y, space = u ++ y ∧ s = y ++ rest ∧ statement' = statement) ∨
      ∃ u' ps', u = space ++ u' ∧
        Walk functions s (word && space.isEmpty) statement u' ps' word' statement' := by
  induction space generalizing u word ps with
  | nil => exact .inr ⟨u, ps, rfl, by simpa using h⟩
  | cons c space ih =>
    have hc := hspace c List.mem_cons_self
    by_cases hu : u = []
    · subst hu
      cases h
      exact .inl ⟨c :: space, rfl, by simpa using heq, rfl⟩
    · have hword : endsWord [c] = false := by
        simp only [isAsciiSpace, Bool.or_eq_true, beq_iff_eq] at hc
        rcases hc with (((rfl | rfl) | rfl) | rfl) | rfl <;> decide
      obtain ⟨u', ps', rfl, rfl, more⟩ := h.of_piece hu (piece?_space word statement hc _) heq
      have heq' : u' ++ s = space ++ rest := by simpa [Piece.text] using heq
      rcases ih (fun d hd => hspace d (List.mem_cons_of_mem _ hd)) more heq' with
        ⟨y, rfl, hs, hst⟩ | ⟨u'', ps'', rfl, hwalk⟩
      · exact .inl ⟨y, rfl, hs, hst⟩
      · refine .inr ⟨u'', ps'', rfl, ?_⟩
        simpa [Piece.text, Piece.statement, hword] using hwalk

/-- A walk over the rest of a word ends in it or goes on behind it, and no statement
starts there. -/
theorem of_wordChars {name rest : Text} (hname : ∀ c ∈ name, isWordChar c = true)
    (h : Walk functions s true false u ps word' statement') (heq : u ++ s = name ++ rest) :
    (∃ y, name = u ++ y) ∨
      ∃ u' ps', u = name ++ u' ∧ Walk functions s true false u' ps' word' statement' := by
  induction name generalizing u ps with
  | nil => exact .inr ⟨u, ps, rfl, h⟩
  | cons c name ih =>
    have hc := hname c List.mem_cons_self
    by_cases hu : u = []
    · subst hu
      exact .inl ⟨c :: name, rfl⟩
    · obtain ⟨u', ps', rfl, rfl, more⟩ := h.of_piece hu (piece?_wordChar hc _) heq
      have hword : endsWord [c] = true := by simp [endsWord, hc]
      have heq' : u' ++ s = name ++ rest := by simpa [Piece.text] using heq
      rw [Piece.text, hword] at more
      rcases ih (fun d hd => hname d (List.mem_cons_of_mem _ hd)) more heq' with
        ⟨y, rfl⟩ | ⟨u'', ps'', rfl, hwalk⟩
      · exact .inl ⟨y, rfl⟩
      · exact .inr ⟨u'', ps'', rfl, hwalk⟩

/-- White space does not change whether a statement can start. -/
theorem statement_of_spaces (h : Walk functions s word statement u ps word' statement')
    (hu : ∀ c ∈ u, isAsciiSpace c = true) : statement' = statement := by
  rcases h.of_spaces hu rfl with ⟨y, -, -, hst⟩ | ⟨u', ps', hu', hwalk⟩
  · exact hst
  · obtain rfl : u' = [] := by simpa using hu'
    cases hwalk
    rfl

end Walk

/-! ### Items of an import in front of a seam -/

/-- A text that starts, behind white space, with a statement of its own, if there is any
text. -/
def Bars (s : Text) : Prop := ∀ c, (s.dropWhile isAsciiSpace).head? = some c → c = '@'

theorem not_bars_item {target : Target} (hitem : Item target) {space rest : Text}
    (hspace : ∀ c ∈ space, isAsciiSpace c = true) : ¬ Bars (space ++ (target.spelling ++ rest)) := by
  intro hs
  unfold Bars at hs
  rw [dropWhile_append_of_stops hspace (hitem.stops_space rest)] at hs
  cases hitem with
  | quoted hquote hbody =>
    have hc := hs _ rfl
    rw [hc] at hquote
    cases hquote
  | url hbody => cases hs _ rfl

theorem not_ends_item {target : Target} (hitem : Item target) (front : Text) {blank : Text}
    (hblank : ∀ c ∈ blank, isBlank c = true) :
    (front ++ (target.spelling ++ blank)).getLast? ≠ some '\n' := by
  intro hlast
  obtain ⟨c, hc, hspace⟩ := hitem.lastCode?
  have hcode : lastCode? (front ++ (target.spelling ++ blank)) = some c := by
    rw [← List.append_assoc,
      lastCode?_append_of_trailing _ fun d hd => isTrailing_of_isBlank (hblank d hd)]
    exact lastCode?_append_of_some _ hc
  rw [lastCode?_of_getLast? hlast (by decide)] at hcode
  cases hcode
  cases hspace

theorem isAsciiSpace_of_isBlank {c : Char} (h : isBlank c = true) : isAsciiSpace c = true := by
  simp only [isBlank, Bool.or_eq_true, beq_iff_eq] at h
  rcases h with rfl | rfl <;> decide

section Items

variable {s u rest : Text} {word word' statement' : Bool} {ps : List Piece} (hs : Bars s)
include hs

/-- One item of an import, with the white space around it, does not reach beyond a line
end behind which another import starts. -/
theorem Walk.of_item {space blank : Text} {target : Target}
    (hspace : ∀ c ∈ space, isAsciiSpace c = true) (hitem : Item target)
    (hblank : ∀ c ∈ blank, isBlank c = true) (h : Walk functions s word false u ps word' statement')
    (heq : u ++ s = space ++ (target.spelling ++ (blank ++ rest))) (hu : u.getLast? = some '\n')
    (hword : word = true → ((space ++ target.spelling).head?.map
      fun c => isAsciiSpace c || isQuote c).getD false = true) :
    ∃ u' ps' word₁, u = space ++ (target.spelling ++ (blank ++ u')) ∧ u' ≠ [] ∧
      Walk functions s word₁ false u' ps' word' statement' := by
  rcases h.of_spaces hspace heq with ⟨y, rfl, rfl, -⟩ | ⟨u₁, ps₁, rfl, h₁⟩
  · exact absurd hs (not_bars_item hitem fun c hc => hspace c (List.mem_append_right _ hc))
  rw [List.append_assoc, List.append_cancel_left_eq] at heq
  have hu₁ : u₁ ≠ [] := by
    rintro rfl
    rw [List.nil_append] at heq
    exact @not_bars_item target hitem [] _ (by simp) (heq ▸ hs)
  -- The item is one piece, so it lies on one side of the seam.
  obtain ⟨u₂, ps₂, w₂, rfl, h₂⟩ : ∃ u₂ ps₂ w₂, u₁ = target.spelling ++ u₂ ∧
      Walk functions s w₂ false u₂ ps₂ word' statement' := by
    cases hitem with
    | quoted hquote hbody =>
      obtain ⟨u₂, ps₂, rfl, -, h₂⟩ := h₁.of_piece hu₁ (piece?_string _ false hquote hbody _) heq
      exact ⟨u₂, ps₂, _, rfl, h₂⟩
    | @url body hbody =>
      have hfalse : (word && space.isEmpty) = false := by
        cases space with
        | cons c space => simp
        | nil =>
          cases word with
          | false => rfl
          | true => exact absurd (hword rfl) (by simp [isAsciiSpace, isQuote])
      rw [hfalse] at h₁
      obtain ⟨p, hp, htext, hstatement⟩ := piece?_url functions false hbody (blank ++ rest)
      obtain ⟨u₂, ps₂, rfl, -, h₂⟩ := h₁.of_piece hu₁ hp (by simpa using heq)
      rw [hstatement] at h₂
      exact ⟨u₂, ps₂, _, by rw [htext], h₂⟩
  rw [List.append_assoc, List.append_cancel_left_eq] at heq
  rcases h₂.of_spaces (fun c hc => isAsciiSpace_of_isBlank (hblank c hc)) heq with
    ⟨y, rfl, -, -⟩ | ⟨u₃, ps₃, rfl, h₃⟩
  · exact absurd hu (not_ends_item hitem space fun c hc => hblank c (List.mem_append_left _ hc))
  · refine ⟨u₃, ps₃, _, rfl, ?_, h₃⟩
    rintro rfl
    rw [List.append_nil] at hu
    exact not_ends_item hitem space hblank hu

/-- The items of an import do not reach beyond a line end behind which another import
starts. -/
theorem Walk.of_items {items : Targets} (hitems : ItemList items rest)
    (h : Walk functions s word false u ps word' statement')
    (heq : u ++ s = items.spelling ++ rest) (hu : u.getLast? = some '\n')
    (hword : word = true →
      (items.spelling.head?.map fun c => isAsciiSpace c || isQuote c).getD false = true) :
    ∃ u', u' ≠ [] ∧ u = items.spelling ++ u' := by
  have hfirst {space more : Text} {target : Target} (hitem : Item target) :
      (space ++ target.spelling ++ more).head? = (space ++ target.spelling).head? := by
    refine head?_append_of_ne_nil ?_ more
    cases hitem <;> simp
  induction hitems generalizing u word ps with
  | @comma space blank rest target others hspace hitem hblank _ ih =>
    rw [List.append_assoc, hfirst hitem] at hword
    simp only [List.append_assoc] at heq
    obtain ⟨u₁, ps₁, w₁, rfl, hne, h₁⟩ := h.of_item hs hspace hitem hblank heq hu hword
    simp only [List.append_assoc, List.append_cancel_left_eq] at heq
    obtain ⟨u₂, ps₂, rfl, -, h₂⟩ := h₁.of_piece hne (piece?_comma w₁ false _) heq
    have hu₂ : u₂.getLast? = some '\n' := by
      simp only [← List.append_assoc] at hu
      rcases getLast?_append_cases hu with ⟨-, hlast⟩ | hlast
      · simp [Piece.text] at hlast
      · exact hlast
    obtain ⟨u₃, hne₃, rfl⟩ := ih h₂ (by simpa [Piece.text] using heq) hu₂
      (by simp [endsWord, Piece.text, isWordChar])
    exact ⟨u₃, hne₃, by simp [Piece.text]⟩
  | semicolon rest hspace hitem hblank =>
    rw [List.append_assoc, hfirst hitem] at hword
    simp only [List.append_assoc] at heq
    obtain ⟨u₁, ps₁, w₁, rfl, hne, h₁⟩ := h.of_item hs hspace hitem hblank heq hu hword
    simp only [List.append_assoc, List.append_cancel_left_eq] at heq
    obtain ⟨c, u₂, rfl⟩ := List.exists_cons_of_ne_nil hne
    obtain rfl : c = ';' := by simpa using congrArg List.head? heq
    refine ⟨u₂, ?_, by simp⟩
    rintro rfl
    simp only [← List.append_assoc] at hu
    simp at hu
  | bare hspace hitem hblank _ =>
    rw [hfirst hitem] at hword
    simp only [List.append_assoc] at heq
    obtain ⟨u₁, ps₁, w₁, rfl, hne, h₁⟩ := h.of_item hs hspace hitem hblank heq hu hword
    exact ⟨u₁, hne, by simp⟩

end Items

/-! ### Where no directive is recognized -/

/-- A text of one line that stands at the front of a text with a line end stands in
front of that line end. -/
theorem after?_append_of_newline {lead u : Text} (hlead : '\n' ∉ lead) (hu : u.getLast? = some '\n')
    (s : Text) : after? lead (u ++ s) = (after? lead u).map (· ++ s) := by
  have hmem : '\n' ∈ u := List.mem_of_getLast? hu
  apply Option.ext
  intro rest
  rw [after?_eq_some_iff, Option.map_eq_some_iff]
  constructor
  · intro h
    rcases List.append_eq_append_iff.1 h with ⟨x, rfl, -⟩ | ⟨x, rfl, rfl⟩
    · exact absurd (List.mem_append_left _ hmem) hlead
    · exact ⟨x, after?_eq_some_iff.2 rfl, rfl⟩
  · rintro ⟨x, hx, rfl⟩
    rw [after?_eq_some_iff.1 hx, List.append_assoc]

/-- The characters of a class at the front of a text with another character in it. -/
theorem exists_takeWhile {p : Char → Bool} {u : Text} (hu : ∃ c ∈ u, p c = false) :
    ∃ front c rest, u = front ++ c :: rest ∧ (∀ d ∈ front, p d = true) ∧ p c = false := by
  have hsplit := (List.takeWhile_append_dropWhile (p := p) (l := u)).symm
  cases hrest : u.dropWhile p with
  | nil =>
    obtain ⟨c, hc, hfalse⟩ := hu
    rw [hrest, List.append_nil] at hsplit
    rw [hsplit] at hc
    rw [of_mem_takeWhile hc] at hfalse
    cases hfalse
  | cons c rest =>
    rw [hrest] at hsplit
    exact ⟨_, c, rest, hsplit, fun d => of_mem_takeWhile, stops_dropWhile p u c (by rw [hrest]; rfl)⟩

section NoDirective

variable {s u : Text} {word' : Bool} {ps : List Piece} (hu : u.getLast? = some '\n')
include hu

theorem readCall_none_congr {line : Nat} {c : Char}
    (h : readCall functions line c (u ++ s) = .ok none) (s' : Text) :
    readCall functions line c (u ++ s') = .ok none := by
  obtain ⟨word, d, rest, rfl, hword, hd⟩ :=
    exists_takeWhile (p := isWordChar) ⟨'\n', List.mem_of_getLast? hu, by decide⟩
  have hstops (t : Text) : Stops isWordChar (d :: rest ++ t) := stops_cons hd _
  simp only [readCall, List.append_assoc, takeWhile_append_of_stops hword (hstops _),
    dropWhile_append_of_stops hword (hstops _)] at h ⊢
  by_cases hparen : d = '('
  · subst hparen
    simp only [List.cons_append] at h ⊢
    split at h
    case isTrue hknown => rw [if_pos hknown]
    case isFalse =>
      split at h
      · cases h
      · split at h <;> cases h
  · split
    case h_1 heq => exact absurd (List.cons.inj heq).1 hparen
    case h_2 => rfl

theorem readAssignment_none_congr (hwalk : Walk functions s true false u ps word' true) {line : Nat}
    (h : readAssignment line (u ++ s) = .ok none) (s' : Text) :
    readAssignment line (u ++ s') = .ok none := by
  obtain ⟨name, d, rest, rfl, hname, hd⟩ :=
    exists_takeWhile (p := isWordChar) ⟨'\n', List.mem_of_getLast? hu, by decide⟩
  have hstops (t : Text) : Stops isWordChar (d :: rest ++ t) := stops_cons hd _
  -- If only white space follows the name, no statement can start at the seam.
  have hcolon : ∃ c ∈ d :: rest, isAsciiSpace c = false := by
    by_contra hnone
    push Not at hnone
    rcases hwalk.of_wordChars hname (by rw [List.append_assoc]) with ⟨y, hy⟩ | ⟨u', ps', hu', hwalk'⟩
    · simp at hy
    · rw [List.append_cancel_left_eq] at hu'
      subst hu'
      have := hwalk'.statement_of_spaces fun c hc => by simpa using hnone c hc
      cases this
  obtain ⟨space, e, more, hrest, hspace, he⟩ := exists_takeWhile (p := isAsciiSpace) hcolon
  have hstops' (t : Text) : Stops isAsciiSpace (e :: more ++ t) := stops_cons he _
  have hdrop (t : Text) : (d :: rest ++ t).dropWhile isAsciiSpace = e :: more ++ t := by
    rw [hrest, List.append_assoc, dropWhile_append_of_stops hspace (hstops' t)]
  unfold readAssignment at h ⊢
  simp only [List.append_assoc, takeWhile_append_of_stops hname (hstops _),
    dropWhile_append_of_stops hname (hstops _), hdrop] at h ⊢
  split at h
  case isTrue hempty => rw [if_pos hempty]
  case isFalse hne =>
    rw [if_neg hne]
    split at h
    case h_1 heq =>
      obtain ⟨⟨body, stop⟩, -, h⟩ := exists_of_bind_eq_ok h
      dsimp only at h
      split at h <;> cases h
    case h_2 hcolon' =>
      split
      case h_1 heq =>
        obtain ⟨rfl, -⟩ := List.cons.inj heq
        exact absurd rfl (hcolon' _)
      case h_2 => rfl

theorem readImport_none_congr (hs : Bars s) (hwalk : Walk functions s true false u ps word' true)
    {line : Nat} (h : readImport line (u ++ s) = .ok none) (s' : Text) :
    readImport line (u ++ s') = .ok none := by
  have hlead : '\n' ∉ "import".toList := by decide
  unfold readImport at h ⊢
  rw [after?_append_of_newline hlead hu] at h ⊢
  cases hafter : after? "import".toList u with
  | none => rfl
  | some t =>
    obtain rfl := after?_eq_some_iff.1 hafter
    have ht : t.getLast? = some '\n' := by
      rcases getLast?_append_cases hu with ⟨-, hlast⟩ | hlast
      · simp at hlast
      · exact hlast
    have hne : t ≠ [] := by
      rintro rfl
      cases ht
    rw [hafter] at h
    simp only [Option.map_some, head?_append_of_ne_nil hne] at h ⊢
    split at h
    case isFalse hhead => rw [if_neg hhead]
    case isTrue hhead =>
      rw [if_pos hhead]
      obtain ⟨items, hitems, h⟩ := exists_of_bind_eq_ok h
      split at h
      case isFalse => cases h
      case isTrue hcss =>
        obtain ⟨rest, heq, hlist⟩ := readTargets_eq_ok_iff.1 hitems
        have hname : ∀ c ∈ "import".toList, isWordChar c = true :=
          List.all_eq_true.1 (by decide +kernel)
        rcases hwalk.of_wordChars hname (List.append_assoc _ _ _) with ⟨y, hy⟩ | ⟨t', ps', ht', hwalk'⟩
        · rw [List.append_assoc, eq_comm, List.append_right_eq_self] at hy
          exact absurd (List.append_eq_nil_iff.1 hy).1 hne
        · rw [List.append_cancel_left_eq] at ht'
          subst ht'
          have hfirst : (items.spelling.head?.map fun c => isAsciiSpace c || isQuote c).getD false =
              true := by
            have := congrArg List.head? heq
            rw [head?_append_of_ne_nil hne, head?_append_of_ne_nil hlist.spelling_ne_nil] at this
            rwa [← this]
          obtain ⟨t', hne', rfl⟩ := hwalk'.of_items hs hlist heq ht fun _ => hfirst
          obtain rfl : t' ++ s = rest := by
            rw [List.append_assoc, List.append_cancel_left_eq] at heq
            exact heq
          have hlist' : ItemList items (t' ++ s') := hlist.congr (by
            rw [head?_append_of_ne_nil hne', head?_append_of_ne_nil hne'])
          rw [List.append_assoc, hlist'.readTargets]
          simp [hcss, bind, Except.bind, pure, Except.pure]

end NoDirective

/-! ### Pieces in front of a seam -/

/-- A statement ends with its semicolon, or in front of a brace or the end of the text. -/
theorem Statement.ends {depth : Nat} {value stop rest : Text} (h : Statement depth value stop rest) :
    stop = [';'] ∨ (stop = [] ∧ ∀ c, rest.head? = some c → c = '{' ∨ c = '}') := by
  induction h with
  | atEnd => exact .inr ⟨rfl, by simp⟩
  | semicolon => exact .inl rfl
  | brace rest hc =>
    refine .inr ⟨rfl, fun d hd => ?_⟩
    obtain rfl : _ = d := by simpa using hd
    exact hc
  | string _ _ _ ih => exact ih
  | comment _ _ ih => exact ih
  | interpolation _ _ ih => exact ih
  | char _ _ _ _ _ _ ih => exact ih

theorem Bars.head?_ne {s : Text} (hs : Bars s) {c : Char} (hc : c = '{' ∨ c = '}') :
    s.head? ≠ some c := by
  intro hhead
  obtain ⟨t, rfl⟩ := List.head?_eq_some_iff.1 hhead
  have hspace : isAsciiSpace c = false := by rcases hc with rfl | rfl <;> decide
  have hat : c = '@' := hs c (by simp [hspace])
  rcases hc with rfl | rfl <;> cases hat

theorem Token.eq_single {word : Bool} {c : Char} {tail rest : Text} {effect : Effect}
    (h : Token word c tail effect rest) (hc : c = '@' ∨ c = '$') : tail = [] ∧ effect = .enters := by
  cases h with
  | single => rcases hc with rfl | rfl <;> exact ⟨rfl, rfl⟩
  | string _ hquote => rcases hc with rfl | rfl <;> cases hquote
  | lineComment => simp at hc
  | blockComment => simp at hc
  | interpolation => simp at hc
  | url => simp at hc

section Seam

variable {s : Text} {word word' statement : Bool} {c : Char} {tail u : Text} {ps : List Piece}
variable (hu : (c :: (tail ++ u)).getLast? = some '\n')
include hu

/-- A directive in front of a seam stays one. Only the value of a variable could go on
beyond it. -/
theorem Form.congr_seam {found : Found} (h : Form functions c found (u ++ s)) (hs : Bars s)
    (htail : found.tail = tail) (hend : s = [] → u ≠ []) (s' : Text) :
    Form functions c found (u ++ s') := by
  by_cases hne : u = []
  · subst hne
    rw [List.append_nil] at hu
    subst htail
    cases h with
    | @imports items blank lineEnd _ hhead hitems hcss hblank hline =>
      cases hline with
      | taken =>
        have hnext : (['\n'] ++ ([] ++ s')).head? = (['\n'] ++ ([] ++ s)).head? := rfl
        exact .imports hhead (hitems.congr (head?_append_congr hnext blank)) hcss hblank (.taken _)
      | absent =>
        rw [List.append_nil] at hu
        exact absurd (lastCode?_of_getLast? hu (by decide)) (hitems.lastCode?_import_ne hblank)
    | @assign name space gap body stop _ hname hword hspace hgap hbody hstatement hvalue =>
      rcases hstatement.ends with rfl | ⟨rfl, hrest⟩
      · rw [← List.cons_append, List.getLast?_concat] at hu
        cases hu
      · cases s with
        | nil => exact absurd rfl (hend rfl)
        | cons d s => exact absurd rfl (hs.head?_ne (hrest d rfl))
    | call _ hc hword hbody hkind => exact .call _ hc hword hbody hkind
  · exact h.congr (by rw [head?_append_of_ne_nil hne, head?_append_of_ne_nil hne])

/-- A token in front of a seam stays one. -/
theorem Token.congr_seam {effect : Effect} (h : Token word c tail effect (u ++ s)) (s' : Text) :
    Token word c tail effect (u ++ s') := by
  cases h with
  | blockComment _ hbody => exact .blockComment _ hbody
  | string _ hc hbody => exact .string _ hc hbody
  | interpolation _ hbody => exact .interpolation _ hbody
  | url _ hword hbody => exact .url _ hword hbody
  | @lineComment body _ hbody hrest =>
    have hne : u ≠ [] := by
      rintro rfl
      rw [List.append_nil] at hu
      have hmem : '\n' ∈ '/' :: '/' :: body := List.mem_of_getLast? hu
      have hbody' : '\n' ∈ body := by simpa using hmem
      cases hbody _ hbody'
    refine .lineComment hbody (stops_congr ?_ hrest)
    rw [head?_append_of_ne_nil hne, head?_append_of_ne_nil hne]
  | single hline hblock hquote hbrace hurl =>
    rcases getLast?_append_cases (x := [c]) hu with ⟨rfl, hlast⟩ | hlast
    · obtain rfl : c = '\n' := by simpa using hlast
      exact .single (by simp) (by simp) (by decide) (by simp) (by simp [after?])
    · have hne : u ≠ [] := by
        rintro rfl
        cases hlast
      have hhead : (u ++ s').head? = (u ++ s).head? := by
        rw [head?_append_of_ne_nil hne, head?_append_of_ne_nil hne]
      have hlast' : (c :: u).getLast? = some '\n' := by simpa using hu
      have hurl' : (after? "url(".toList (c :: (u ++ s'))).isSome =
          (after? "url(".toList (c :: (u ++ s))).isSome := by
        rw [← List.cons_append, ← List.cons_append, after?_append_of_newline (by decide) hlast',
          after?_append_of_newline (by decide) hlast', Option.isSome_map, Option.isSome_map]
      exact .single (hhead ▸ hline) (hhead ▸ hblock) hquote (hhead ▸ hbrace) (hurl' ▸ hurl)

/-- Where no directive is recognized in front of a seam, none is. -/
theorem recognize_none_congr {effect : Effect} (hs : Bars s) (htoken : Token word c tail effect (u ++ s))
    (more : Walk functions s (endsWord (c :: tail)) ((Piece.token c tail effect).statement statement) u
      ps word' true)
    (h : recognize functions (probe word statement) c (tail ++ (u ++ s)) = .ok none) (s' : Text) :
    recognize functions (probe word statement) c (tail ++ (u ++ s')) = .ok none := by
  have hlast (hc : c ≠ '\n') : (tail ++ u).getLast? = some '\n' := by
    rcases getLast?_append_cases (x := [c]) hu with ⟨-, hlast⟩ | hlast
    · exact absurd (by simpa using hlast) hc
    · exact hlast
  by_cases hat : c = '@' ∧ statement = true
  · obtain ⟨rfl, rfl⟩ := hat
    obtain ⟨rfl, rfl⟩ := htoken.eq_single (.inl rfl)
    exact readImport_none_congr (hlast (by decide)) hs more h s'
  by_cases hdollar : c = '$' ∧ statement = true
  · obtain ⟨rfl, rfl⟩ := hdollar
    obtain ⟨rfl, rfl⟩ := htoken.eq_single (.inr rfl)
    exact readAssignment_none_congr (hlast (by decide)) more h s'
  by_cases hword : isWordStart c = true ∧ word = false
  · have hc : c ≠ '\n' := by
      rintro rfl
      cases hword.1
    unfold recognize at h ⊢
    rw [if_neg (by simpa using hat), if_neg (by simpa using hdollar),
      if_pos (by simpa using hword), ← List.append_assoc] at h ⊢
    exact readCall_none_congr (hlast hc) h s'
  · exact recognize_eq_none_of hat hdollar hword _

end Seam

/-- The pieces of a text that ends its last line do not depend on what is behind it, if a
statement can start there. -/
theorem Walk.congr {s u : Text} {word statement word' : Bool} {ps : List Piece}
    (h : Walk functions s word statement u ps word' true) (hu : u = [] ∨ u.getLast? = some '\n')
    (hs : Bars s) (hend : s = [] → ∀ c found, ps.getLast? ≠ some (.act c found)) (s' : Text) :
    Walk functions s' word statement u ps word' true := by
  generalize hstatement' : true = statement' at h
  induction h with
  | done => exact .done _ _
  | @step word statement word' statement' c tail u p ps hp htext more ih =>
    subst hstatement'
    have hlast : (c :: (tail ++ u)).getLast? = some '\n' := by simpa using hu
    have hu' : u = [] ∨ u.getLast? = some '\n' := by
      rw [← List.cons_append] at hlast
      exact (getLast?_append_cases hlast).imp And.left id
    have hend' : s = [] → ∀ c found, ps.getLast? ≠ some (.act c found) := by
      intro hs d found hps
      refine hend hs d found ?_
      rw [List.getLast?_cons, hps]
      rfl
    refine .step ?_ htext (ih hu' hend' rfl)
    cases p with
    | act d found =>
      obtain ⟨rfl, hfound⟩ := piece?_eq_act_iff.1 hp
      obtain rfl : found.tail = tail := (List.cons.inj htext).2
      obtain ⟨hadmits, rest, hrest, hform⟩ := recognize_eq_some_iff.1 hfound
      rw [List.append_cancel_left_eq] at hrest
      subst hrest
      have hne : s = [] → u ≠ [] := by
        rintro hs rfl
        obtain rfl := more.eq_nil
        exact hend hs d found rfl
      exact piece?_eq_act_iff.2 ⟨rfl, recognize_eq_some_iff.2
        ⟨hadmits, u ++ s', rfl, hform.congr_seam hlast hs rfl hne s'⟩⟩
    | token d tail' effect =>
      obtain ⟨rfl, hnone, htoken⟩ := piece?_eq_token_iff.1 hp
      obtain rfl : tail' = tail := (List.cons.inj htext).2
      obtain ⟨rest, hrest, htoken'⟩ := token?_eq_some_iff.1 htoken
      rw [List.append_cancel_left_eq] at hrest
      subst hrest
      exact piece?_of_token (recognize_none_congr hlast hs htoken' more hnone s')
        (htoken'.congr_seam hlast s')

/-! ### Blanks behind a seam -/

section Blanks

variable {word statement : Bool} {c : Char} {tail rest : Text} {p : Piece}

theorem getLast?_ne_of_blank {t : Text} (ht : ∃ d, t.getLast? = some d ∧ isBlank d = true) {e : Char}
    (he : isBlank e = false) : t.getLast? ≠ some e := by
  obtain ⟨d, hd, hblank⟩ := ht
  intro h
  obtain rfl : d = e := Option.some.inj (hd.symm.trans h)
  rw [hblank] at he
  cases he

/-- A directive that ends in a blank, in front of another blank or an import, has no new
line in front of its last blanks. -/
theorem Form.lastCode?_ne {found : Found} (h : Form functions c found rest)
    (hrest : ∃ d, rest.head? = some d ∧ (isBlank d = true ∨ d = '@'))
    (hlast : ∃ d, (c :: found.tail).getLast? = some d ∧ isBlank d = true) :
    Scan.lastCode? (c :: found.tail) ≠ some '\n' := by
  have hne (e : Char) (he : isBlank e = false) : (c :: found.tail).getLast? ≠ some e :=
    getLast?_ne_of_blank hlast he
  cases h with
  | @imports items blank lineEnd _ hhead hitems hcss hblank hline =>
    cases hline with
    | taken =>
      refine absurd ?_ (hne '\n' (by decide))
      rw [← List.cons_append, List.getLast?_concat]
    | absent =>
      rw [List.append_nil]
      exact hitems.lastCode?_import_ne hblank
  | @assign name space gap body stop _ hname hword hspace hgap hbody hstatement hvalue =>
    rcases hstatement.ends with rfl | ⟨rfl, hbrace⟩
    · refine absurd ?_ (hne ';' (by decide))
      rw [← List.cons_append, List.getLast?_concat]
    · obtain ⟨e, he, hstart⟩ := hrest
      rcases hbrace e he with rfl | rfl <;> rcases hstart with h | h <;> cases h
  | @call _ word body _ _ hc hword hbody hkind =>
    refine absurd ?_ (hne ')' (by decide))
    rw [← List.cons_append, List.getLast?_append, List.getLast?_cons, bracketTail_getLast? hbody]
    rfl

/-- Nor has a token of more than one character. -/
theorem Token.lastCode?_ne {effect : Effect} (h : Token word c tail effect rest) (htail : tail ≠ [])
    (hlast : ∃ d, (c :: tail).getLast? = some d ∧ isBlank d = true) :
    Scan.lastCode? (c :: tail) ≠ some '\n' := by
  have hne (e : Char) (he : isBlank e = false) : (c :: tail).getLast? ≠ some e :=
    getLast?_ne_of_blank hlast he
  cases h with
  | single => exact absurd rfl htail
  | lineComment hbody _ =>
    intro hcode
    have hmem := mem_of_lastCode? hcode
    simp only [List.mem_cons] at hmem
    rcases hmem with h | h | h
    · cases h
    · cases h
    · cases hbody _ h
  | blockComment _ hbody =>
    exact absurd (by simp [List.getLast?_cons, commentTail_getLast? hbody]) (hne '/' (by decide))
  | string _ hquote hbody =>
    have hspace : isBlank c = false := by
      simp only [isQuote, Bool.or_eq_true, beq_iff_eq] at hquote
      rcases hquote with rfl | rfl <;> decide
    exact absurd (by simp [List.getLast?_cons, stringTail_getLast? hbody]) (hne c hspace)
  | interpolation _ hbody =>
    exact absurd (by simp [List.getLast?_cons, bracketTail_getLast? hbody]) (hne '}' (by decide))
  | url _ hword hbody =>
    exact absurd (by simp [List.getLast?_cons, bracketTail_getLast? hbody]) (hne ')' (by decide))

/-- No piece takes the end of a line and blanks of the next one, in front of another blank
or an import. -/
theorem piece?_not_across {u x : Text} (hp : piece? functions word statement c (u ++ x ++ rest) = some p)
    (htext : p.text = c :: (u ++ x)) (hu : (c :: u).getLast? = some '\n')
    (hblank : ∀ d ∈ x, isBlank d = true) (hrest : ∃ d, rest.head? = some d ∧ (isBlank d = true ∨ d = '@')) :
    x = [] := by
  by_contra hx
  have hlast : ∃ d, (c :: (u ++ x)).getLast? = some d ∧ isBlank d = true := by
    obtain ⟨d, hd⟩ : ∃ d, x.getLast? = some d := ⟨_, List.getLast?_eq_some_getLast hx⟩
    refine ⟨d, ?_, hblank d (List.mem_of_getLast? hd)⟩
    rw [← List.cons_append, List.getLast?_append, hd]
    rfl
  have hcode : Scan.lastCode? (c :: (u ++ x)) = some '\n' := by
    rw [← List.cons_append,
      lastCode?_append_of_trailing _ fun d hd => isTrailing_of_isBlank (hblank d hd)]
    exact lastCode?_of_getLast? hu (by decide)
  cases p with
  | act d found =>
    obtain ⟨rfl, hfound⟩ := piece?_eq_act_iff.1 hp
    obtain htail : found.tail = u ++ x := (List.cons.inj htext).2
    obtain ⟨-, rest', hrest', hform⟩ := recognize_eq_some_iff.1 hfound
    rw [htail, List.append_cancel_left_eq] at hrest'
    subst hrest'
    rw [← htail] at hlast hcode
    exact hform.lastCode?_ne hrest hlast hcode
  | token d tail effect =>
    obtain ⟨rfl, -, htoken⟩ := piece?_eq_token_iff.1 hp
    obtain rfl : tail = u ++ x := (List.cons.inj htext).2
    obtain ⟨rest', hrest', htoken'⟩ := token?_eq_some_iff.1 htoken
    exact htoken'.lastCode?_ne (by simp [hx]) hlast hcode

/-- A walk over blanks behind a seam, in front of an import, starts at the seam. -/
theorem Walk.split_blanks {s u b : Text} {word word' statement' : Bool} {ps : List Piece}
    (h : Walk functions s word statement (u ++ b) ps word' statement')
    (hu : u = [] ∨ u.getLast? = some '\n') (hb : ∀ c ∈ b, isBlank c = true)
    (hs : s.head? = some '@') :
    ∃ ps₁ ps₂ word₁, ps = ps₁ ++ ps₂ ∧ Walk functions (b ++ s) word statement u ps₁ word₁ statement' ∧
      Walk functions s word₁ statement' b ps₂ word' statement' := by
  generalize hub : u ++ b = v at h
  induction h generalizing u with
  | done =>
    obtain ⟨rfl, rfl⟩ := List.append_eq_nil_iff.1 hub
    exact ⟨[], [], _, rfl, .done _ _, .done _ _⟩
  | @step word statement word' statement' c tail v p ps hp htext more ih =>
    cases u with
    | nil =>
      rw [List.nil_append] at hub
      have hwalk : Walk functions s word statement b (p :: ps) word' statement' :=
        hub ▸ .step hp htext more
      obtain rfl := hwalk.statement_of_spaces fun c hc => isAsciiSpace_of_isBlank (hb c hc)
      exact ⟨[], p :: ps, word, rfl, .done _ _, hwalk⟩
    | cons d u =>
      obtain ⟨rfl, heq⟩ : d = c ∧ u ++ b = tail ++ v := by simpa using hub
      have hlast : (d :: u).getLast? = some '\n' := by simpa using hu
      have hsplit : (∃ x, u = tail ++ x ∧ v = x ++ b) ∨ ∃ x, x ≠ [] ∧ tail = u ++ x ∧ b = x ++ v := by
        rcases List.append_eq_append_iff.1 heq with ⟨x, htail, hb⟩ | ⟨x, hu, hv⟩
        · by_cases hx : x = []
          · subst hx
            exact .inl ⟨[], by simpa using htail.symm, by simpa using hb.symm⟩
          · exact .inr ⟨x, hx, htail, hb⟩
        · exact .inl ⟨x, hu, hv⟩
      rcases hsplit with ⟨x, rfl, rfl⟩ | ⟨x, hx, rfl, rfl⟩
      · have hx : x = [] ∨ x.getLast? = some '\n' := by
          rw [← List.cons_append] at hlast
          exact (getLast?_append_cases hlast).imp And.left id
        obtain ⟨ps₁, ps₂, w₁, rfl, hwalk₁, hwalk₂⟩ := ih hx rfl
        refine ⟨p :: ps₁, ps₂, w₁, rfl, .step ?_ htext hwalk₁, hwalk₂⟩
        simpa using hp
      · -- The piece would take the line end and the blanks `x`.
        have hnext : ∃ d, (v ++ s).head? = some d ∧ (isBlank d = true ∨ d = '@') := by
          cases v with
          | nil => exact ⟨'@', hs, .inr rfl⟩
          | cons c v => exact ⟨c, rfl, .inl (hb c (by simp))⟩
        exact absurd (piece?_not_across hp htext hlast
          (fun c hc => hb c (List.mem_append_left _ hc)) hnext) hx

end Blanks

end Scan

end StylePrep
