import StylePrep.Proofs.Arguments
import StylePrep.Proofs.Grammar

/-!
# Comments in argument lists

The reader of parentheses steps over block comments, but the one that cuts the list between them
does not know comments: to it, commas, quotes and brackets in a comment are as good as any
(`splitArgs_comma_in_comment`). A comment is `Harmless` behind a text if, read like code there, it
is not cut and changes nothing for what follows. These comments, and no others, leave the number of
arguments alone whatever follows them, and then all arguments but the one they stand in
(`splitArgs_comment`).
-/

namespace StylePrep.Call

open Text Delimited

/-- Whether the reader of an argument list is in a string that may still close. -/
def Mode.inString : Mode → Bool
  | string _ _ | escape _ _ => true
  | code _ | lost => false

/-- In mode `m`, a text is read over without a cut and without a change. -/
structure Mode.Passes (m : Mode) (t : Text) : Prop where
  uncut : Uncut m t
  same : m.after t = m

/-- A comment that is read over behind the text `a`. -/
def Harmless (a c : Text) : Prop := ((Mode.code 0).after a).Passes c

variable {m : Mode} {depth : Nat} {a b c t : Text}

/-! ### Harmless comments -/

theorem passes_of_plain (hm : m.inString = false)
    (ht : ∀ d ∈ t, isQuote d = false ∧ d ∉ [',', '(', ')', '[', ']']) : m.Passes t := by
  induction t with
  | nil => exact ⟨trivial, rfl⟩
  | cons d t ih =>
    obtain ⟨hquote, hplain⟩ := ht d List.mem_cons_self
    have hnext : m.next d = m := by
      cases m with
      | code => simp_all [Mode.next]
      | lost => rfl
      | string => cases hm
      | escape => cases hm
    obtain ⟨huncut, hsame⟩ := ih fun e he => ht e (List.mem_cons_of_mem _ he)
    refine ⟨⟨fun h => hplain (by simp [h.2]), ?_⟩, ?_⟩
    · rwa [hnext]
    · rwa [Mode.after_cons, hnext]

/-- A comment without quotes, commas and brackets is harmless. -/
theorem harmless_of_plain (ha : ((Mode.code 0).after a).inString = false)
    (hc : ∀ d ∈ c, isQuote d = false ∧ d ∉ [',', '(', ')', '[', ']']) : Harmless a c :=
  passes_of_plain ha hc

theorem trim_around_comment (hc : BlockComment c) (s t : Text) :
    trim (s ++ c ++ t) = trimStart s ++ c ++ trimEnd t := by
  obtain ⟨inner, rfl, -⟩ := hc
  refine trim_around (by simp) ?_ ?_ s t
  · rintro d hd
    obtain rfl := Option.some.inj hd
    rfl
  · rw [List.reverse_append]
    rintro d hd
    obtain rfl := Option.some.inj hd
    rfl

theorem dropBlank_append_cons {arg : Text} (h : arg ≠ []) (before after : List Text) :
    dropBlank (before ++ arg :: after) = before ++ arg :: dropBlank after := by
  cases after with
  | nil => simp [dropBlank, h]
  | cons other after =>
    simp only [dropBlank, List.getLast?_append_cons, List.getLast?_cons_cons]
    split <;> simp

/-- What a text with a harmless comment is cut into: only the argument with the comment depends on
the comment. -/
theorem exists_splitArgs_eq (a b : Text) : ∃ before x y after, ∀ c, BlockComment c → Harmless a c →
    splitArgs (a ++ c ++ b) = before ++ (x ++ c ++ y) :: after := by
  obtain ⟨before, p, h⟩ := exists_cuts_append (.code 0) a
  generalize hm : (Mode.code 0).after a = m at h
  refine ⟨before.map trim, trimStart p, trimEnd (cut m b).1, dropBlank ((cut m b).2.map trim), ?_⟩
  intro c hc hharmless
  rw [Harmless, hm] at hharmless
  have hcuts := h (c ++ b)
  rw [hharmless.uncut.cut_append, hharmless.same, ← List.append_assoc, ← List.append_assoc] at hcuts
  rw [splitArgs_eq, hcuts, List.map_append, List.map_cons, trim_around_comment hc]
  apply dropBlank_append_cons
  obtain ⟨inner, rfl, -⟩ := hc
  simp

/-! ### Other comments -/

/-- A list that ends neither in white space nor in a comma has one argument for each piece. -/
theorem length_splitArgs_concat {d : Char} (hspace : isSpace d = false) (hcomma : d ≠ ',') (t : Text) :
    (splitArgs (t ++ [d])).length = (cuts (.code 0) t).length := by
  obtain ⟨before, p, h⟩ := exists_cuts_append (.code 0) t
  have ht := h []
  have htd := h [d]
  rw [cut_cons_of_ne fun h => hcomma h.2] at htd
  rw [List.append_nil] at ht
  have hstops : Stops isSpace [d] := fun e he => by
    obtain rfl := Option.some.inj he
    exact hspace
  have htrim := trim_around (List.cons_ne_nil d []) hstops hstops p []
  rw [List.append_nil] at htrim
  rw [splitArgs_eq, htd, List.map_append, List.map_cons, cut, htrim, dropBlank_append_cons (by simp), ht]
  simp [dropBlank, cut]

theorem uncut_lost (t : Text) : Uncut .lost t := by
  rw [uncut_iff_length, cuts, cut_lost]
  rfl

/-- Outside of code, only a quote leads to a cut. -/
theorem uncut_of_not_code (ht : ∀ d ∈ t, isQuote d = false) (hm : ∀ depth, m ≠ .code depth) : Uncut m t := by
  induction t generalizing m with
  | nil => trivial
  | cons d t ih =>
    refine ⟨fun h => hm 0 h.1, ih (fun e he => ht e (List.mem_cons_of_mem _ he)) ?_⟩
    intro depth hnext
    obtain ⟨depth', rfl⟩ := Mode.exists_code_of_next (ht d List.mem_cons_self) hnext
    exact hm depth' rfl

/-- A comma behind closing parentheses, which is cut at if these close all brackets. -/
def probe (n : Nat) : Text := List.replicate n ')' ++ [',']

theorem isQuote_of_mem_probe (n : Nat) : ∀ d ∈ probe n, isQuote d = false := by
  intro d hd
  rcases List.mem_append.1 hd with hd | hd
  · rw [List.eq_of_mem_replicate hd]
    rfl
  · rw [List.mem_singleton.1 hd]
    rfl

theorem length_cuts_probe (n depth : Nat) :
    (cuts (.code depth) (probe n)).length = if depth ≤ n then 2 else 1 := by
  induction n generalizing depth with
  | zero =>
    cases depth with
    | zero => rfl
    | succ depth => rfl
  | succ n ih =>
    have hnext : (Mode.code depth).next ')' = .code (depth - 1) := rfl
    have hprobe : probe (n + 1) = ')' :: probe n := rfl
    rw [hprobe, length_cuts_cons (by simp), hnext, ih]
    simp only [Nat.sub_le_iff_le_add]

/-- In code, the cuts to come tell how many brackets are open. -/
theorem Mode.eq_code_of_length_cuts (h : ∀ t, (cuts m t).length = (cuts (.code depth) t).length) :
    m = .code depth := by
  have hprobe := h (probe depth)
  rw [length_cuts_probe, if_pos (Nat.le_refl depth)] at hprobe
  obtain ⟨depth', rfl⟩ : ∃ depth', m = .code depth' := by
    by_contra hcode
    have huncut : Uncut m (probe depth) :=
      uncut_of_not_code (isQuote_of_mem_probe depth) fun depth' hm => hcode ⟨depth', hm⟩
    rw [uncut_iff_length, hprobe] at huncut
    cases huncut
  have hprobe' := h (probe depth')
  rw [length_cuts_probe] at hprobe
  rw [length_cuts_probe, if_pos (Nat.le_refl depth'), length_cuts_probe] at hprobe'
  have hle : depth' ≤ depth := by
    by_contra hlt
    rw [if_neg hlt] at hprobe
    cases hprobe
  have hge : depth ≤ depth' := by
    by_contra hlt
    rw [if_neg hlt] at hprobe'
    cases hprobe'
  rw [Nat.le_antisymm hle hge]

/-- In code, a text that goes with as many arguments as an empty comment does is read over without
a cut and without a change. -/
theorem harmless_of_length (hm : (Mode.code 0).after a = .code depth)
    (h : ∀ b, (splitArgs (a ++ c ++ b)).length = (splitArgs (a ++ "/**/".toList ++ b)).length) : Harmless a c := by
  have hempty : Harmless a "/**/".toList := harmless_of_plain (by rw [hm]; rfl) (by simp [isQuote])
  have hlengths (t : Text) : (cuts (.code depth) c).length + (cuts ((Mode.code depth).after c) t).length =
      (cuts (.code depth) t).length + 1 := by
    have hb := h (t ++ ['x'])
    rw [← List.append_assoc, ← List.append_assoc, length_splitArgs_concat rfl (by decide),
      length_splitArgs_concat rfl (by decide), List.append_assoc, List.append_assoc] at hb
    have hcomment := length_cuts_append (.code 0) a (c ++ t)
    have hplain := length_cuts_append (.code 0) a ("/**/".toList ++ t)
    have hbehind := length_cuts_append (.code depth) c t
    have hbehind' := length_cuts_append (.code depth) "/**/".toList t
    rw [Harmless, hm] at hempty
    have huncut := uncut_iff_length.1 hempty.uncut
    rw [hm] at hcomment hplain
    rw [hempty.same] at hbehind'
    omega
  have hpiece : (cuts (.code depth) c).length = 1 := Nat.add_right_cancel (hlengths [])
  have hmode : (Mode.code depth).after c = .code depth := by
    refine Mode.eq_code_of_length_cuts fun t => ?_
    have ht := hlengths t
    omega
  rw [Harmless, hm]
  exact ⟨uncut_iff_length.2 hpiece, hmode⟩

/-- Behind a text that does not end in a string, a comment keeps the number of arguments, whatever
follows, exactly if it is harmless; and a harmless comment stays in one argument, with the same
arguments in front of it and behind it as an empty comment has. -/
theorem splitArgs_comment (ha : ((Mode.code 0).after a).inString = false) (hc : BlockComment c) :
    (Harmless a c ↔
      ∀ b, (splitArgs (a ++ c ++ b)).length = (splitArgs (a ++ "/**/".toList ++ b)).length) ∧
    (Harmless a c → ∀ b, ∃ before x y after,
      splitArgs (a ++ c ++ b) = before ++ (x ++ c ++ y) :: after ∧
      splitArgs (a ++ "/**/".toList ++ b) = before ++ (x ++ "/**/".toList ++ y) :: after) := by
  have hempty : Harmless a "/**/".toList := harmless_of_plain ha (by simp [isQuote])
  have hcomment : BlockComment "/**/".toList := ⟨[], rfl, by decide⟩
  have harguments (h : Harmless a c) (b : Text) : ∃ before x y after,
      splitArgs (a ++ c ++ b) = before ++ (x ++ c ++ y) :: after ∧
      splitArgs (a ++ "/**/".toList ++ b) = before ++ (x ++ "/**/".toList ++ y) :: after := by
    obtain ⟨before, x, y, after, hargs⟩ := exists_splitArgs_eq a b
    exact ⟨before, x, y, after, hargs c hc h, hargs _ hcomment hempty⟩
  refine ⟨⟨fun h b => ?_, fun h => ?_⟩, harguments⟩
  · obtain ⟨before, x, y, after, hargs, hargs'⟩ := harguments h b
    simp only [hargs, hargs', List.length_append, List.length_cons]
  · cases hm : (Mode.code 0).after a with
    | code depth => exact harmless_of_length hm h
    | lost =>
      rw [Harmless, hm]
      exact ⟨uncut_lost c, Mode.after_lost c⟩
    | string =>
      rw [hm] at ha
      cases ha
    | escape =>
      rw [hm] at ha
      cases ha

/-- A comment behind a string with a comment mark, in an open parenthesis. -/
theorem splitArgs_comment_open :
    ((Mode.code 0).after "'/*', f(1".toList).inString = false ∧ BlockComment "/* one */".toList ∧
    Harmless "'/*', f(1".toList "/* one */".toList ∧
      ∀ b, (splitArgs ("'/*', f(1".toList ++ "/* one */".toList ++ b)).length =
        (splitArgs ("'/*', f(1".toList ++ "/**/".toList ++ b)).length := by
  have hcode : ((Mode.code 0).after "'/*', f(1".toList).inString = false := by decide
  have hcomment : BlockComment "/* one */".toList := ⟨" one ".toList, rfl, by decide⟩
  have hharmless : Harmless "'/*', f(1".toList "/* one */".toList := harmless_of_plain hcode (by simp [isQuote])
  exact ⟨hcode, hcomment, hharmless, (splitArgs_comment hcode hcomment).1.1 hharmless⟩

/-- A comma in a comment makes two arguments of one, in a call that is read as a whole. -/
theorem splitArgs_comma_in_comment :
    BlockComment "/* , */".toList ∧ ¬ Harmless "x".toList "/* , */".toList ∧
      splitArgs ("x".toList ++ "/* , */".toList) = ["x/*".toList, "*/".toList] ∧
      splitArgs ("x".toList ++ "/**/".toList) = ["x/**/".toList] ∧
      parenTail "x/* , */)".toList = some "x/* , */)".toList := by
  refine ⟨⟨" , ".toList, rfl, by decide⟩, fun h => ?_, by decide +kernel, by decide +kernel, by decide +kernel⟩
  have hcut : ¬ Uncut ((Mode.code 0).after "x".toList) "/* , */".toList := by decide
  exact hcut h.uncut

end StylePrep.Call
