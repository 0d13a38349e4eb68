import StylePrep.Proofs.Agreement
import StylePrep.Proofs.Substitution

/-!
# What calls are replaced by

A call of a sprite function is replaced by a quoted text, by the address of one, perhaps with a
position behind it, or by a text of simple characters (`expand_shaped`). Whatever the variables
and the workspace are, none of these has a call in it, as long as nothing in the quoted text
ends the quotes (`Shaped.substitute`).
-/

namespace StylePrep

namespace Step

variable {σ α β : Type}

/-- All that a step returns has a property. -/
def Yields (P : α → Prop) (x : Step σ α) : Prop := ∀ s a s', Returns x s a s' → P a

namespace Yields

variable {P : α → Prop} {Q : β → Prop}

theorem pure {a : α} (h : P a) : Yields P (Pure.pure a : Step σ α) := by
  intro s b s' hreturns
  obtain ⟨rfl, -⟩ := returns_pure.1 hreturns
  exact h

theorem throw (e : Error) : Yields P (MonadExcept.throw e : Step σ α) :=
  fun _ _ _ h => absurd h not_returns_throw

/-- What a sequence returns is what its last part returns. -/
theorem last {x : Step σ α} {f : α → Step σ β} (hf : ∀ a, Yields Q (f a)) : Yields Q (x >>= f) := by
  intro s b s' h
  obtain ⟨a, s₁, -, hrest⟩ := returns_bind.1 h
  exact hf a s₁ b s' hrest

theorem bind {x : Step σ α} {f : α → Step σ β} (hx : Yields P x) (hf : ∀ a, P a → Yields Q (f a)) :
    Yields Q (x >>= f) := by
  intro s b s' h
  obtain ⟨a, s₁, hfirst, hrest⟩ := returns_bind.1 h
  exact hf a (hx s a s₁ hfirst) s₁ b s' hrest

end Yields

end Step

namespace Expand

open Text Step Scan

/-- The form of a text that replaces a call. -/
inductive Shaped : Text → Prop where
  | quoted (p : Text) : Shaped (quote p)
  | address (p : Text) {rest : Text} (hrest : ∀ c ∈ rest, isSimple c = true)
      (hhead : ∀ c, rest.head? = some c → c = ' ') : Shaped (url (quote p) ++ rest)
  | simple {c : Char} {t : Text} (hc : isWordChar c = true) (ht : ∀ d ∈ c :: t, isSimple d = true) :
      Shaped (c :: t)

/-- A word, perhaps with simple characters behind it. -/
theorem Shaped.of_word {t u : Text} (hne : t ≠ []) (ht : ∀ c ∈ t, isWordChar c = true)
    (hu : ∀ c ∈ u, isSimple c = true) : Shaped (t ++ u) := by
  obtain ⟨c, t, rfl⟩ := List.exists_cons_of_ne_nil hne
  refine .simple (ht c List.mem_cons_self) fun d hd => ?_
  rcases List.mem_append.1 (show d ∈ (c :: t) ++ u from hd) with hd | hd
  · exact isSimple_of_isWordChar (ht d hd)
  · exact hu d hd

/-! ### Numbers -/

theorem isWordChar_of_mem_ofNat {n : Nat} {c : Char} (hc : c ∈ ofNat n) : isWordChar c = true := by
  rw [ofNat, Nat.toString_eq_repr, Nat.toList_repr] at hc
  have hdigit := Nat.isDigit_of_mem_toDigits (by decide) (by decide) hc
  simp [isWordChar, Char.isAlphanum, hdigit]

theorem isWordChar_of_mem_ofInt {i : Int} {c : Char} (hc : c ∈ ofInt i) : isWordChar c = true := by
  cases i with
  | ofNat n => exact isWordChar_of_mem_ofNat hc
  | negSucc n =>
    have htext : ofInt (.negSucc n) = '-' :: ofNat (n + 1) := String.toList_append
    rw [htext] at hc
    rcases List.mem_cons.1 hc with rfl | hc
    · rfl
    · exact isWordChar_of_mem_ofNat hc

theorem isWordChar_of_mem_pixels {n : Nat} {c : Char} (hc : c ∈ pixels n) : isWordChar c = true := by
  rcases List.mem_append.1 hc with hc | hc
  · exact isWordChar_of_mem_ofNat hc
  · exact List.all_eq_true.1 (by decide) c hc

theorem isWordChar_of_mem_px {i : Int} {c : Char} (hc : c ∈ px i) : isWordChar c = true := by
  unfold px at hc
  split at hc
  · exact List.all_eq_true.1 (by decide) c hc
  · rcases List.mem_append.1 hc with hc | hc
    · exact isWordChar_of_mem_ofInt hc
    · exact List.all_eq_true.1 (by decide) c hc

theorem px_ne_nil (i : Int) : px i ≠ [] := by
  unfold px
  split <;> simp

theorem isSimple_of_mem_offset {i : Int} {c : Char} (hc : c ∈ ' ' :: px i) : isSimple c = true := by
  rcases List.mem_cons.1 hc with rfl | hc
  · rfl
  · exact isSimple_of_isWordChar (isWordChar_of_mem_px hc)

theorem shaped_pixels (n : Nat) : Shaped (pixels n) := by
  have h := @Shaped.of_word (pixels n) [] (by simp [pixels]) (fun c => isWordChar_of_mem_pixels) (by simp)
  rwa [List.append_nil] at h

theorem shaped_url (p : Text) : Shaped (url (quote p)) := by
  have h := @Shaped.address p [] (by simp) (by simp)
  rwa [List.append_nil] at h

/-! ### Functions -/

variable {config : SpriteConfig} {resolve : Text → Task Argument} {call : Invocation}

theorem position_yields (frame : Frame) :
    Yields (fun t => ∃ x y, t = px x ++ ' ' :: px y) (position config resolve call frame) :=
  .last fun _ => .last fun _ => .last fun _ => .last fun _ => .pure ⟨_, _, rfl⟩

theorem plain_shaped {text : Task Text} (h : Yields Shaped text) :
    Yields (fun e => Shaped e.text) (plain text) := .bind h fun _ ht => .pure ht

theorem dimensions_shaped {indent : Text} (hindent : ∀ c ∈ indent, isBlank c = true) (width height : Nat) :
    Shaped ("width: ".toList ++ pixels width ++ ";\n".toList ++ indent ++ "height: ".toList ++
      pixels height) := by
  have hpixels (n : Nat) (c : Char) (hc : c ∈ pixels n) : isSimple c = true :=
    isSimple_of_isWordChar (isWordChar_of_mem_pixels hc)
  have hblank (c : Char) (hc : c ∈ indent) : isSimple c = true :=
    isSimple_of_isSpace (isSpace_of_isAsciiSpace (isAsciiSpace_of_isBlank (hindent c hc)))
  have h := @Shaped.of_word "width".toList (": ".toList ++ (pixels width ++ (";\n".toList ++ (indent ++
    ("height: ".toList ++ pixels height))))) (by decide) (List.all_eq_true.1 (by decide)) ?_
  · simpa using h
  · simp only [List.forall_mem_append]
    exact ⟨List.all_eq_true.1 (by decide), hpixels width, List.all_eq_true.1 (by decide), hblank,
      List.all_eq_true.1 (by decide), hpixels height⟩

theorem expandFunction_shaped {indent : Text} (hindent : ∀ c ∈ indent, isBlank c = true) (f : SpriteFunction) :
    Yields (fun e => Shaped e.text) (expandFunction config resolve call indent f) := by
  cases f with
  | spriteMap => exact .last fun _ => .last fun _ => .last fun _ => .last fun _ => .pure (.quoted _)
  | sprite =>
    refine plain_shaped <| .last fun _ => .last fun ⟨_, frame⟩ => .bind (position_yields frame) ?_
    rintro _ ⟨x, y, rfl⟩
    refine .pure (.address _ ?_ fun c hc => by simpa using hc.symm)
    rw [← List.cons_append, List.forall_mem_append]
    exact ⟨fun c => isSimple_of_mem_offset, fun c => isSimple_of_mem_offset⟩
  | spriteUrl => exact plain_shaped <| .last fun _ => .last fun _ => .pure (shaped_url _)
  | spritePosition =>
    refine plain_shaped <| .last fun _ => .last fun ⟨_, frame⟩ => ?_
    intro w t w' h
    obtain ⟨x, y, rfl⟩ := position_yields frame w t w' h
    exact .of_word (px_ne_nil x) (fun c => isWordChar_of_mem_px) fun c => isSimple_of_mem_offset
  | spriteFile => exact plain_shaped <| .last fun _ => .last fun _ => .pure (.quoted _)
  | spriteHeight => exact plain_shaped <| .last fun _ => .last fun _ => .pure (shaped_pixels _)
  | spriteWidth => exact plain_shaped <| .last fun _ => .last fun _ => .pure (shaped_pixels _)
  | spriteDimensions =>
    exact plain_shaped <| .last fun _ => .last fun _ => .pure (dimensions_shaped hindent _ _)
  | imageUrl =>
    refine plain_shaped <| .last fun _ => .last fun name => ?_
    have hurl (p : Text) (onlyPath : Bool) : Shaped (if onlyPath then quote p else url (quote p)) := by
      cases onlyPath
      · exact shaped_url p
      · exact .quoted p
    dsimp only
    split
    · exact .last fun onlyPath => .pure (hurl _ onlyPath)
    · exact .last fun onlyPath => .pure (hurl _ onlyPath)
  | imageHeight => exact plain_shaped <| .last fun _ => .last fun _ => .pure (shaped_pixels _)
  | imageWidth => exact plain_shaped <| .last fun _ => .last fun _ => .pure (shaped_pixels _)
  | inlineImage =>
    refine plain_shaped <| .last fun _ => .last fun name => .last fun tree => ?_
    cases tree.read (config.imageDir.join ⟨name⟩) with
    | error e => exact .throw _
    | ok bytes =>
      dsimp only
      split
      · exact .last fun mime => .pure (shaped_url _)
      · exact .last fun mime => .pure (shaped_url _)

/-- What replaces a call of a sprite function has one of these forms. -/
theorem expand_shaped {vars : VariableTable} {indent : Text} (hindent : ∀ c ∈ indent, isBlank c = true) :
    Yields (fun e => Shaped e.text) (expand config vars call indent) := by
  unfold expand
  cases SpriteFunction.ofName? call.name with
  | none => exact .throw _
  | some f => exact expandFunction_shaped hindent f

/-- A sprite map is replaced by a quoted text. -/
theorem expand_spriteMap {vars : VariableTable} {args : List Text} {line : Nat} {indent : Text} :
    Yields (fun e => ∃ p, e.text = quote p)
      (expand config vars ⟨SpriteFunction.spriteMap.name, args, line⟩ indent) :=
  .last fun _ => .last fun _ => .last fun _ => .last fun _ => .pure ⟨_, rfl⟩

/-! ### Quotes -/

/-- A text with at most one quoted part, in which nothing ends or escapes the quotes. -/
def WellQuoted (t : Text) : Prop := '"' ∈ t → t.count '"' = 2 ∧ '\\' ∉ t ∧ '\n' ∉ t

instance (t : Text) : Decidable (WellQuoted t) := inferInstanceAs (Decidable (_ → _))

theorem enclosable_of_wellQuoted {t a p b : Text} (h : WellQuoted t) (ht : t = a ++ quote p ++ b) :
    Enclosable p := by
  obtain ⟨hcount, hslash, hline⟩ := h (by simp [ht, quote])
  subst ht
  refine ⟨?_, ?_, ?_⟩
  · intro hp
    have hpositive := List.count_pos_iff.2 hp
    simp only [quote, List.cons_append, List.count_append, List.count_cons, List.count_nil, BEq.rfl,
      if_true] at hcount
    omega
  · exact fun hp => hslash (by simp [quote, hp])
  · exact fun hp => hline (by simp [quote, hp])

theorem Shaped.substitute {t : Text} (h : Shaped t) (hquotes : WellQuoted t) : Substitute t := by
  cases h with
  | quoted p =>
    have hp : Enclosable p := enclosable_of_wellQuoted hquotes (a := []) (b := []) (by simp)
    refine ⟨.quoted hp false, by simp [quote], fun c d hd hjoins => ?_, fun c hc => ?_⟩
    · obtain rfl : '"' = d := by simpa [quote] using hd
      simp [joins, isWordChar] at hjoins
    · rw [quote, List.getLast?_concat] at hc
      obtain rfl : '"' = c := by simpa using hc
      decide
  | @address p rest hrest hhead =>
    have hp : Enclosable p := enclosable_of_wellQuoted hquotes (a := "url(".toList) (b := ')' :: rest) (by simp [url])
    refine ⟨(Fits.address hp).append (fun word' => .simple hrest word') ?_, by simp [url], ?_, ?_⟩
    · intro c d _ hd
      obtain rfl := hhead d hd
      simp [joins, isWordChar]
    · intro c d hd hjoins
      obtain rfl : 'u' = d := by simpa [url] using hd
      exact isWordChar_of_joins (by decide) hjoins
    · intro c hc
      rcases getLast?_append_cases hc with ⟨-, hlast⟩ | hlast
      · rw [url, List.getLast?_concat] at hlast
        obtain rfl : ')' = c := by simpa using hlast
        decide
      · have hsimple := hrest c (List.mem_of_getLast? hlast)
        constructor <;> rintro rfl <;> exact absurd hsimple (by decide)
  | @simple c t hc ht =>
    refine ⟨.simple ht false, List.cons_ne_nil _ _, ?_, fun d hd => ?_⟩
    · intro d e he hjoins
      obtain rfl : c = e := by simpa using he
      exact isWordChar_of_joins hc hjoins
    · have hsimple := ht d (List.mem_of_getLast? hd)
      constructor <;> rintro rfl <;> exact absurd hsimple (by decide)

end Expand

end StylePrep
