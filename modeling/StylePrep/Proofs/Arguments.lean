import StylePrep.Proofs.Trimmed

/-!
# How an argument list is cut

A list of arguments is cut at its top-level commas. Read character by character, what matters at
each place is how many brackets are open and whether a string is (`Mode`), and this is a function
of the text in front. A string that can no longer close, because its line ended, reaches to the
end of the list, so nothing behind it is cut (`Mode.lost`). This reader cuts as the one that skips
strings as a whole does (`pieces_eq_cut`), and a text in two parts can be read one part after the
other (`exists_cuts_append`).

White space does not change a mode outside strings, so the pieces of a list are still pieces when
they are trimmed (`Separate.trim`), and a list that is put together from them is cut at the same
commas (`splitArgs_join`).
-/

namespace StylePrep.Call

open Text Delimited

/-- A character that opens and closes strings. -/
abbrev Quote := { c : Char // isQuote c = true }

theorem Quote.ne (quote : Quote) {c : Char} (hc : isQuote c = false) : c ≠ quote.1 := by
  rintro rfl
  rw [quote.2] at hc
  cases hc

/-- What the reader of an argument list is in the middle of: code between `depth` brackets, a
string there, perhaps behind a backslash, or what follows a string that was broken off. -/
inductive Mode where
  | code (depth : Nat)
  | string (depth : Nat) (quote : Quote)
  | escape (depth : Nat) (quote : Quote)
  | lost
  deriving DecidableEq

namespace Mode

def next : Mode → Char → Mode
  | code depth, c =>
    if h : isQuote c = true then string depth ⟨c, h⟩
    else if c = '(' ∨ c = '[' then code (depth + 1)
    else if c = ')' ∨ c = ']' then code (depth - 1)
    else code depth
  | string depth quote, c =>
    if c = '\\' then escape depth quote
    else if c = '\n' then lost
    else if c = quote.1 then code depth
    else string depth quote
  | escape depth quote, _ => string depth quote
  | lost, _ => lost

def after (m : Mode) (t : Text) : Mode := t.foldl next m

@[simp] theorem after_nil (m : Mode) : m.after [] = m := rfl

@[simp] theorem after_cons (m : Mode) (c : Char) (t : Text) : m.after (c :: t) = (m.next c).after t := rfl

@[simp] theorem after_append (m : Mode) (s t : Text) : m.after (s ++ t) = (m.after s).after t :=
  List.foldl_append

@[simp] theorem after_lost (t : Text) : lost.after t = lost := by
  induction t with
  | nil => rfl
  | cons c t ih => exact ih

theorem isQuote_of_isSpace {c : Char} (hc : isSpace c = true) : isQuote c = false := by
  rw [Bool.eq_false_iff]
  intro hquote
  rcases Bool.or_eq_true_iff.1 hquote with hquote | hquote
  · rw [beq_iff_eq.1 hquote] at hc
    cases hc
  · rw [beq_iff_eq.1 hquote] at hc
    cases hc

/-- White space in code changes nothing. -/
theorem next_space {c : Char} (hc : isSpace c = true) (depth : Nat) : (code depth).next c = code depth := by
  have hopening : ¬ (c = '(' ∨ c = '[') := by rintro (rfl | rfl) <;> cases hc
  have hclosing : ¬ (c = ')' ∨ c = ']') := by rintro (rfl | rfl) <;> cases hc
  rw [next, dif_neg (by simp [isQuote_of_isSpace hc]), if_neg hopening, if_neg hclosing]

theorem after_spaces {u : Text} (hu : ∀ c ∈ u, isSpace c = true) (depth : Nat) :
    (code depth).after u = code depth := by
  induction u with
  | nil => rfl
  | cons c u ih =>
    rw [after_cons, next_space (hu c List.mem_cons_self)]
    exact ih fun d hd => hu d (List.mem_cons_of_mem _ hd)

/-- Only a quote closes a string, and nothing leads back from a lost one. -/
theorem exists_code_of_next {m : Mode} {c : Char} {depth : Nat} (hc : isQuote c = false)
    (h : m.next c = code depth) : ∃ depth', m = code depth' := by
  cases m with
  | code depth => exact ⟨depth, rfl⟩
  | string depth' quote =>
    rw [next, if_neg (quote.ne hc)] at h
    split at h
    · cases h
    · split at h <;> cases h
  | escape => cases h
  | lost => cases h

theorem eq_code_of_next_space {m : Mode} {c : Char} {depth : Nat} (hc : isSpace c = true)
    (h : m.next c = code depth) : m = code depth := by
  obtain ⟨depth', rfl⟩ := exists_code_of_next (isQuote_of_isSpace hc) h
  rwa [next_space hc] at h

theorem eq_code_of_after_spaces {m : Mode} {u : Text} {depth : Nat} (hu : ∀ c ∈ u, isSpace c = true)
    (h : m.after u = code depth) : m = code depth := by
  induction u generalizing m with
  | nil => exact h
  | cons c u ih =>
    apply eq_code_of_next_space (hu c List.mem_cons_self)
    exact ih (fun d hd => hu d (List.mem_cons_of_mem _ hd)) h

end Mode

/-- The pieces of a list between the commas where no bracket and no string is open, the first one
apart from the others. -/
def cut (m : Mode) : Text → Text × List Text
  | [] => ([], [])
  | c :: t =>
    let rest := cut (m.next c) t
    if m = .code 0 ∧ c = ',' then ([], rest.1 :: rest.2) else (c :: rest.1, rest.2)

variable {m : Mode} {depth : Nat} {c : Char} {s t p : Text} {ps : List Text}

theorem cut_cons_of_ne (h : ¬ (m = .code 0 ∧ c = ',')) :
    cut m (c :: t) = (c :: (cut (m.next c) t).1, (cut (m.next c) t).2) := if_neg h

theorem cut_comma (t : Text) : cut (.code 0) (',' :: t) = ([], (cut (.code 0) t).1 :: (cut (.code 0) t).2) := rfl

theorem cut_lost (t : Text) : cut .lost t = (t, []) := by
  induction t with
  | nil => rfl
  | cons c t ih =>
    rw [cut_cons_of_ne (by simp)]
    change (c :: (cut .lost t).1, (cut .lost t).2) = _
    rw [ih]

/-- A string is passed as a whole, or else the rest of the list is one piece. -/
theorem cut_string (depth : Nat) (quote : Quote) (t : Text) : cut (.string depth quote) t =
    match stringTail quote.1 t with
    | none => (t, [])
    | some body => (body ++ (cut (.code depth) (t.drop body.length)).1, (cut (.code depth) (t.drop body.length)).2) := by
  obtain ⟨q, hq⟩ := quote
  fun_induction stringTail q t with
  | case1 => rfl
  | case2 => rfl
  | case3 c t ih =>
    rw [cut_cons_of_ne (by simp), Mode.next, if_pos rfl, cut_cons_of_ne (by simp), Mode.next, ih]
    cases stringTail q t <;> simp
  | case4 t hslash =>
    rw [cut_cons_of_ne (by simp), Mode.next, if_neg (by decide), if_pos rfl, cut_lost]
  | case5 t hslash hline =>
    rw [cut_cons_of_ne (by simp), Mode.next, if_neg (by simpa using hslash), if_neg hline, if_pos rfl]
    simp
  | case6 c t hslash hline hquote ih =>
    rw [cut_cons_of_ne (by simp), Mode.next, if_neg (by simpa using hslash), if_neg hline, if_neg hquote, ih]
    cases stringTail q t <;> simp

/-- Reading character by character cuts where skipping strings does. -/
theorem pieces_eq_cut (depth : Nat) (t : Text) : pieces depth t = cut (.code depth) t := by
  have hquote_ne {c : Char} (h : isQuote c = true) : c ≠ ',' := by
    rintro rfl
    cases h
  fun_induction pieces depth t with
  | case1 => rfl
  | case2 depth c t hquote hstring =>
    rw [cut_cons_of_ne (fun h => hquote_ne hquote h.2), Mode.next, dif_pos hquote, cut_string, hstring]
  | case3 depth c t hquote body hstring first others hrest ih =>
    rw [cut_cons_of_ne (fun h => hquote_ne hquote h.2), Mode.next, dif_pos hquote, cut_string, hstring]
    dsimp only
    rw [← ih, hrest]
    rfl
  | case4 depth c t hquote hc first others hrest ih =>
    obtain ⟨rfl, rfl⟩ := hc
    rw [cut_comma, ← ih, hrest]
  | case5 depth c t hquote hc hopening first others hrest ih =>
    rw [cut_cons_of_ne (fun h => hc ⟨h.2, Mode.code.inj h.1⟩), Mode.next, dif_neg hquote, if_pos hopening, ← ih, hrest]
  | case6 depth c t hquote hc hopening hclosing first others hrest ih =>
    rw [cut_cons_of_ne (fun h => hc ⟨h.2, Mode.code.inj h.1⟩), Mode.next, dif_neg hquote, if_neg hopening,
      if_pos hclosing, ← ih, hrest]
  | case7 depth c t hquote hc hopening hclosing first others hrest ih =>
    rw [cut_cons_of_ne (fun h => hc ⟨h.2, Mode.code.inj h.1⟩), Mode.next, dif_neg hquote, if_neg hopening,
      if_neg hclosing, ← ih, hrest]

def cuts (m : Mode) (t : Text) : List Text := (cut m t).1 :: (cut m t).2

/-- An empty last argument does not count. -/
def dropBlank (args : List Text) : List Text := if args.getLast? = some [] then args.dropLast else args

theorem splitArgs_eq (t : Text) : splitArgs t = dropBlank ((cuts (.code 0) t).map trim) := by
  rw [splitArgs, pieces_eq_cut]
  rfl

/-! ### Texts without a cut -/

/-- No comma of the text is at the top level, if it is read in mode `m`. -/
def Uncut (m : Mode) : Text → Prop
  | [] => True
  | c :: t => ¬ (m = .code 0 ∧ c = ',') ∧ Uncut (m.next c) t

instance decidableUncut : (m : Mode) → (t : Text) → Decidable (Uncut m t)
  | _, [] => .isTrue trivial
  | m, c :: t => @instDecidableAnd _ _ _ (decidableUncut (m.next c) t)

theorem uncut_append : Uncut m (s ++ t) ↔ Uncut m s ∧ Uncut (m.after s) t := by
  induction s generalizing m with
  | nil => simp [Uncut]
  | cons c s ih => rw [List.cons_append, Uncut, Uncut, ih, Mode.after_cons, and_assoc]

theorem Uncut.cut_append (h : Uncut m s) (t : Text) :
    cut m (s ++ t) = (s ++ (cut (m.after s) t).1, (cut (m.after s) t).2) := by
  induction s generalizing m with
  | nil => rfl
  | cons c s ih => rw [List.cons_append, cut_cons_of_ne h.1, ih h.2, List.cons_append, Mode.after_cons]

theorem Uncut.cut_eq (h : Uncut m s) : cut m s = (s, []) := by
  have happend := h.cut_append []
  rwa [List.append_nil, cut, List.append_nil] at happend

/-- A text in front leaves its last piece open, and behind it the rest is cut as in its own mode. -/
theorem exists_cuts_append (m : Mode) (t : Text) : ∃ before p, ∀ s,
    cuts m (t ++ s) = before ++ (p ++ (cut (m.after t) s).1) :: (cut (m.after t) s).2 := by
  induction t generalizing m with
  | nil => exact ⟨[], [], fun s => rfl⟩
  | cons c t ih =>
    obtain ⟨before, p, h⟩ := ih (m.next c)
    by_cases hcomma : m = .code 0 ∧ c = ','
    · obtain ⟨rfl, rfl⟩ := hcomma
      refine ⟨[] :: before, p, fun s => ?_⟩
      rw [List.cons_append, cuts, cut_comma, List.cons_append, Mode.after_cons, ← h s]
      rfl
    · cases before with
      | nil =>
        refine ⟨[], c :: p, fun s => ?_⟩
        obtain ⟨hfirst, hothers⟩ := List.cons.inj (h s)
        rw [List.cons_append, cuts, cut_cons_of_ne hcomma, hfirst, hothers]
        rfl
      | cons first before =>
        refine ⟨(c :: first) :: before, p, fun s => ?_⟩
        obtain ⟨hfirst, hothers⟩ := List.cons.inj (h s)
        rw [List.cons_append, cuts, cut_cons_of_ne hcomma, hfirst, hothers]
        rfl

/-- The cuts of two texts in a row add up. -/
theorem length_cuts_append (m : Mode) (s t : Text) :
    (cuts m (s ++ t)).length + 1 = (cuts m s).length + (cuts (m.after s) t).length := by
  obtain ⟨before, p, h⟩ := exists_cuts_append m s
  have hs := h []
  rw [List.append_nil] at hs
  rw [h t, hs]
  simp only [cuts, cut, List.length_append, List.length_cons, List.length_nil]
  omega

theorem length_cuts_cons (h : ¬ (m = .code 0 ∧ c = ',')) :
    (cuts m (c :: t)).length = (cuts (m.next c) t).length := by
  rw [cuts, cuts, cut_cons_of_ne h, List.length_cons, List.length_cons]

theorem uncut_iff_length : Uncut m s ↔ (cuts m s).length = 1 := by
  induction s generalizing m with
  | nil => simp [Uncut, cuts, cut]
  | cons c s ih =>
    by_cases hcomma : m = .code 0 ∧ c = ','
    · obtain ⟨rfl, rfl⟩ := hcomma
      rw [cuts, cut_comma]
      simp [Uncut]
    · rw [Uncut, and_iff_right hcomma, ih, length_cuts_cons hcomma]

/-! ### Pieces -/

/-- Texts that commas between them cut apart: none has a cut in itself, and all but the last one
end outside of brackets and strings. -/
structure Separate (ps : List Text) : Prop where
  uncut : ∀ p ∈ ps, Uncut (.code 0) p
  ended : ∀ p ∈ ps.dropLast, (Mode.code 0).after p = .code 0

theorem Separate.cons (hp : Uncut (.code 0) p) (hend : ps ≠ [] → (Mode.code 0).after p = .code 0)
    (hps : Separate ps) : Separate (p :: ps) := by
  refine ⟨List.forall_mem_cons.2 ⟨hp, hps.uncut⟩, ?_⟩
  cases ps with
  | nil => simp
  | cons q ps =>
    rw [List.dropLast_cons_cons]
    exact List.forall_mem_cons.2 ⟨hend (List.cons_ne_nil _ _), hps.ended⟩

theorem Separate.tail (h : Separate (p :: ps)) : Separate ps := by
  refine ⟨fun q hq => h.uncut q (List.mem_cons_of_mem _ hq), fun q hq => h.ended q ?_⟩
  cases ps with
  | nil => cases hq
  | cons r ps => exact List.mem_cons_of_mem _ hq

theorem Separate.after_head (h : Separate (p :: ps)) (hne : ps ≠ []) : (Mode.code 0).after p = .code 0 := by
  obtain ⟨q, ps, rfl⟩ := List.exists_cons_of_ne_nil hne
  exact h.ended p List.mem_cons_self

/-- The pieces of a list are separate. -/
theorem separate_cuts (t : Text) : Separate (cuts (.code 0) t) := by
  have hpieces (m : Mode) : Uncut m (cut m t).1 ∧ ((cut m t).2 ≠ [] → m.after (cut m t).1 = .code 0) ∧
      Separate (cut m t).2 := by
    induction t generalizing m with
    | nil => exact ⟨trivial, fun h => absurd rfl h, by simp [cut], by simp [cut]⟩
    | cons c t ih =>
      by_cases hcomma : m = .code 0 ∧ c = ','
      · obtain ⟨rfl, rfl⟩ := hcomma
        obtain ⟨huncut, hend, hrest⟩ := ih (.code 0)
        rw [cut_comma]
        exact ⟨trivial, fun _ => rfl, .cons huncut hend hrest⟩
      · obtain ⟨huncut, hend, hrest⟩ := ih (m.next c)
        rw [cut_cons_of_ne hcomma]
        exact ⟨⟨hcomma, huncut⟩, hend, hrest⟩
  obtain ⟨huncut, hend, hrest⟩ := hpieces (.code 0)
  exact .cons huncut hend hrest

theorem join_cons_cons (sep p q : Text) (ps : List Text) :
    join sep (p :: q :: ps) = p ++ sep ++ join sep (q :: ps) := rfl

theorem join_cons_char (sep : Text) (c : Char) (p : Text) (ps : List Text) :
    join sep ((c :: p) :: ps) = c :: join sep (p :: ps) := by
  cases ps <;> rfl

theorem join_concat (sep p q : Text) (ps : List Text) :
    join sep (p :: ps ++ [q]) = join sep (p :: ps) ++ sep ++ q := by
  induction ps generalizing p with
  | nil => rfl
  | cons r ps ih =>
    rw [List.cons_append, List.cons_append, join_cons_cons, ← List.cons_append, ih r, join_cons_cons]
    simp only [List.append_assoc]

/-- The commas between the pieces make a list of them again. -/
theorem join_cuts (m : Mode) (t : Text) : join [','] (cuts m t) = t := by
  induction t generalizing m with
  | nil => rfl
  | cons c t ih =>
    by_cases hcomma : m = .code 0 ∧ c = ','
    · obtain ⟨rfl, rfl⟩ := hcomma
      exact congrArg (',' :: ·) (ih (.code 0))
    · rw [cuts, cut_cons_of_ne hcomma, join_cons_char]
      exact congrArg (c :: ·) (ih (m.next c))

/-- Separate texts are the pieces of the list in which commas join them. -/
theorem Separate.cuts_join (h : Separate (p :: ps)) : cuts (.code 0) (join [','] (p :: ps)) = p :: ps := by
  induction ps generalizing p with
  | nil => rw [join, cuts, (h.uncut p List.mem_cons_self).cut_eq]
  | cons q ps ih =>
    have hp := h.uncut p List.mem_cons_self
    have hcut := hp.cut_append ([','] ++ join [','] (q :: ps))
    rw [h.after_head (List.cons_ne_nil _ _), List.singleton_append, cut_comma, List.append_nil] at hcut
    rw [join_cons_cons, List.append_assoc, cuts, List.singleton_append, hcut]
    exact congrArg (p :: ·) (ih h.tail)

theorem Separate.map {f : Text → Text} (h : Separate ps)
    (huncut : ∀ p, Uncut (.code 0) p → Uncut (.code 0) (f p))
    (hended : ∀ p, (Mode.code 0).after p = .code 0 → (Mode.code 0).after (f p) = .code 0) :
    Separate (ps.map f) := by
  refine ⟨List.forall_mem_map.2 fun p hp => huncut p (h.uncut p hp), ?_⟩
  rw [← List.map_dropLast]
  exact List.forall_mem_map.2 fun p hp => hended p (h.ended p hp)

theorem uncut_trim (h : Uncut (.code 0) p) : Uncut (.code 0) (trim p) := by
  obtain ⟨u, v, hp, hu, -⟩ := exists_spaces_around p
  rw [hp, uncut_append, Mode.after_spaces hu, uncut_append] at h
  exact h.2.1

theorem after_trim (h : (Mode.code 0).after p = .code 0) : (Mode.code 0).after (trim p) = .code 0 := by
  obtain ⟨u, v, hp, hu, hv⟩ := exists_spaces_around p
  rw [hp, Mode.after_append, Mode.after_spaces hu, Mode.after_append] at h
  exact Mode.eq_code_of_after_spaces hv h

theorem Separate.trim (h : Separate ps) : Separate (ps.map Text.trim) :=
  h.map (fun _ => uncut_trim) fun _ => after_trim

theorem Separate.dropBlank (h : Separate ps) : Separate (dropBlank ps) := by
  unfold Call.dropBlank
  split
  · exact ⟨fun p hp => h.uncut p (List.dropLast_subset _ hp),
      fun p hp => h.ended p (List.dropLast_subset _ hp)⟩
  · exact h

theorem join_eq_join_map (p : Text) (ps : List Text) :
    join [',', ' '] (p :: ps) = join [','] (p :: ps.map (' ' :: ·)) := by
  induction ps generalizing p with
  | nil => rfl
  | cons q ps ih =>
    rw [join_cons_cons, ih q, List.map_cons, join_cons_cons, join_cons_char]
    simp

/-- A list put together from trimmed texts without a cut has these as its arguments. -/
theorem Separate.splitArgs_join {args : List Text} (h : Separate args) (htrim : ∀ arg ∈ args, Text.trim arg = arg)
    (hlast : args.getLast? ≠ some []) : splitArgs (join [',', ' '] args) = args := by
  cases args with
  | nil =>
    rw [splitArgs_eq]
    rfl
  | cons arg args =>
    have hspaced : Separate (arg :: args.map (' ' :: ·)) := by
      refine .cons (h.uncut arg List.mem_cons_self) (fun hne => h.after_head ?_)
        (h.tail.map (fun p hp => ⟨by simp, hp⟩) fun p hp => hp)
      rintro rfl
      exact hne rfl
    have hmap : (arg :: args.map (' ' :: ·)).map Text.trim = arg :: args := by
      rw [List.map_cons, List.map_map, htrim arg List.mem_cons_self]
      congr 1
      refine (List.map_congr_left fun p hp => ?_).trans (List.map_id args)
      rw [Function.comp_apply, trim_cons_space, htrim p (List.mem_cons_of_mem _ hp), id]
    rw [splitArgs_eq, join_eq_join_map, hspaced.cuts_join, hmap, Call.dropBlank, if_neg hlast]

/-- The arguments of a list are trimmed, and none has a cut. -/
theorem separate_splitArgs (t : Text) : Separate (splitArgs t) := by
  rw [splitArgs_eq]
  exact (separate_cuts t).trim.dropBlank

theorem trim_of_mem_splitArgs {arg : Text} (h : arg ∈ splitArgs t) : trim arg = arg := by
  have hmem : arg ∈ (cuts (.code 0) t).map trim := by
    rw [splitArgs_eq, dropBlank] at h
    split at h
    · exact List.dropLast_subset _ h
    · exact h
  obtain ⟨p, -, rfl⟩ := List.mem_map.1 hmem
  exact trim_trim p

/-- Joined by commas and spaces, the arguments of a list are its arguments again. -/
theorem splitArgs_join_splitArgs (h : (splitArgs t).getLast? ≠ some []) :
    splitArgs (join [',', ' '] (splitArgs t)) = splitArgs t :=
  (separate_splitArgs t).splitArgs_join (fun _ => trim_of_mem_splitArgs) h

end StylePrep.Call
