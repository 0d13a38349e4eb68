import StylePrep.Proofs.Arguments
import StylePrep.Proofs.Grammar

/-!
# Calls that are written and read again

Writing a call puts a comma and a space between its arguments, where the text it was read from may
have had other white space. The reader of parentheses, which knows comments but not square
brackets, must still find the same end. It is followed here through a text character by character
(`Place`). White space and commas never close the text, and they leave the same place behind
whichever they are, as long as none breaks a string off (`Place.settle`). So a text that closes
goes on closing when the white space around its pieces changes (`Place.after_tightened`), and a
call that is written is read as itself (`parse?_render`).
-/

namespace StylePrep.Call

open Text Delimited

/-- Where the reader of a text in parentheses is: where the reader of an argument list can be too,
at a slash that may open a comment, in a comment, at a star there that may end it, or behind the
last parenthesis. -/
inductive Place where
  | inside (m : Mode)
  | slash (depth : Nat)
  | comment (depth : Nat)
  | star (depth : Nat)
  | closed

namespace Place

def code (depth : Nat) (c : Char) : Place :=
  if h : isQuote c = true then inside (.string depth ⟨c, h⟩)
  else if c = '/' then slash depth
  else if c = '(' then inside (.code (depth + 1))
  else if c = ')' then if depth ≤ 1 then closed else inside (.code (depth - 1))
  else inside (.code depth)

def next : Place → Char → Place
  | inside (.code depth), c => code depth c
  | inside m, c => inside (m.next c)
  | slash depth, c => if c = '*' then comment depth else code depth c
  | comment depth, c => if c = '*' then star depth else comment depth
  | star depth, c =>
    if c = '/' then inside (.code depth) else if c = '*' then star depth else comment depth
  | closed, _ => inside .lost

def after (l : Place) (t : Text) : Place := t.foldl next l

variable {l : Place} {depth : Nat} {c : Char} {s t g : Text}

@[simp] theorem after_nil (l : Place) : l.after [] = l := rfl

@[simp] theorem after_cons (l : Place) (c : Char) (t : Text) : l.after (c :: t) = (l.next c).after t := rfl

@[simp] theorem after_append (l : Place) (s t : Text) : l.after (s ++ t) = (l.after s).after t :=
  List.foldl_append

theorem next_string (depth : Nat) (quote : Quote) (c : Char) :
    (inside (.string depth quote)).next c = inside ((Mode.string depth quote).next c) := rfl

@[simp] theorem after_lost (t : Text) : (inside .lost).after t = inside .lost := by
  induction t with
  | nil => rfl
  | cons c t ih => exact ih

theorem after_closed_iff : closed.after t = closed ↔ t = [] := by
  cases t with
  | nil => simp
  | cons c t => simp [next]

/-! ### The reader of parentheses -/

theorem after_string_iff {quote : Quote} : (inside (.string depth quote)).after t = closed ↔
    ∃ body, stringTail quote.1 t = some body ∧
      (inside (.code depth)).after (t.drop body.length) = closed := by
  obtain ⟨q, hq⟩ := quote
  fun_induction stringTail q t with
  | case1 => simp
  | case2 => simp [next, Mode.next]
  | case3 c t ih => simp [next, Mode.next, ih]
  | case4 t hslash => simp [next, Mode.next]
  | case5 t hslash hline =>
    have hslash' : q ≠ '\\' := by simpa using hslash
    simp [next, Mode.next, hslash', hline]
  | case6 c t hslash hline hquote ih =>
    have hslash' : c ≠ '\\' := by simpa using hslash
    simp [next, Mode.next, hslash', hline, hquote, ih]

/-- A star that does not end the comment is like any character of it. -/
theorem after_star_iff (h : t.head? ≠ some '/') :
    (star depth).after t = closed ↔ (comment depth).after t = closed := by
  cases t with
  | nil => simp
  | cons c t =>
    have hc : c ≠ '/' := by simpa using h
    simp [next, hc]

theorem after_comment_iff : (comment depth).after t = closed ↔
    ∃ body, commentTail t = some body ∧ (inside (.code depth)).after (t.drop body.length) = closed := by
  fun_induction commentTail t with
  | case1 => simp
  | case2 c t hc =>
    obtain ⟨rfl, hhead⟩ := hc
    obtain ⟨t, rfl⟩ := List.head?_eq_some_iff.1 hhead
    simp [next]
  | case3 c t hc ih =>
    have hnext : ((comment depth).next c).after t = closed ↔ (comment depth).after t = closed := by
      by_cases hstar : c = '*'
      · rw [next, if_pos hstar]
        exact after_star_iff fun hhead => hc ⟨hstar, hhead⟩
      · rw [next, if_neg hstar]
    simp [hnext, ih]

/-- A slash that does not open a comment is like any character of code. -/
theorem after_slash_iff (h : t.head? ≠ some '*') :
    (slash depth).after t = closed ↔ (inside (.code depth)).after t = closed := by
  cases t with
  | nil => simp
  | cons c t =>
    have hc : c ≠ '*' := by simpa using h
    simp [next, hc]

/-- The reader of parentheses takes a text to its end exactly if it closes there. -/
theorem bracketTail_eq_self_iff :
    bracketTail '(' ')' depth t = some t ↔ (inside (.code depth)).after t = closed := by
  fun_induction bracketTail '(' ')' depth t with
  | case1 => simp
  | case2 depth c t hquote hstring =>
    rw [after_cons, next, code, dif_pos hquote, after_string_iff]
    simp [hstring]
  | case3 depth c t hquote body hstring ih =>
    rw [after_cons, next, code, dif_pos hquote, after_string_iff]
    obtain ⟨u, rfl⟩ := stringTail_isPrefix hstring
    simpa [hstring] using ih
  | case4 depth c t hquote hc hcomment =>
    obtain ⟨rfl, hhead⟩ := hc
    obtain ⟨t, rfl⟩ := List.head?_eq_some_iff.1 hhead
    rw [List.tail_cons] at hcomment
    rw [after_cons, next, code, dif_neg hquote, if_pos rfl, after_cons, next, if_pos rfl, after_comment_iff]
    simp [hcomment]
  | case5 depth c t hquote hc body hcomment ih =>
    obtain ⟨rfl, hhead⟩ := hc
    obtain ⟨t, rfl⟩ := List.head?_eq_some_iff.1 hhead
    rw [List.tail_cons] at hcomment
    rw [after_cons, next, code, dif_neg hquote, if_pos rfl, after_cons, next, if_pos rfl, after_comment_iff]
    obtain ⟨u, rfl⟩ := commentTail_isPrefix hcomment
    simpa [hcomment] using ih
  | case6 depth t hquote hc ih => simpa [next, code, hquote] using ih
  | case7 depth t hdepth hquote hc hopening =>
    rw [after_cons, next, code, dif_neg hquote, if_neg (by decide), if_neg hopening, if_pos rfl, if_pos hdepth,
      after_closed_iff]
    simp [eq_comm]
  | case8 depth t hdepth hquote hc hopening ih =>
    rw [after_cons, next, code, dif_neg hquote, if_neg (by decide), if_neg hopening, if_pos rfl, if_neg hdepth]
    simpa using ih
  | case9 depth c t hquote hc hopening hclosing ih =>
    rw [after_cons, next, code, dif_neg hquote, if_neg hopening, if_neg hclosing]
    split
    case isTrue hslash =>
      rw [after_slash_iff fun hhead => hc ⟨hslash, hhead⟩]
      simpa using ih
    case isFalse => simpa using ih

/-! ### White space and commas -/

/-- White space and commas. -/
def IsGap (g : Text) : Prop := ∀ c ∈ g, isSpace c = true ∨ c = ','

/-- The place that white space or a comma leaves behind, if it breaks no string off. -/
def settle : Place → Place
  | inside (.escape depth quote) => inside (.string depth quote)
  | slash depth => inside (.code depth)
  | star depth => comment depth
  | closed => inside .lost
  | l => l

@[simp] theorem settle_settle (l : Place) : l.settle.settle = l.settle := by
  cases l with
  | inside m => cases m <;> rfl
  | _ => rfl

theorem isQuote_of_gap (hc : isSpace c = true ∨ c = ',') : isQuote c = false := by
  rcases hc with hc | rfl
  · exact Mode.isQuote_of_isSpace hc
  · rfl

theorem ne_of_gap {d : Char} (hc : isSpace c = true ∨ c = ',') (hspace : isSpace d = false) (hcomma : d ≠ ',') :
    c ≠ d := by
  rintro rfl
  rcases hc with hc | hc
  · rw [hspace] at hc
    cases hc
  · exact hcomma hc

theorem code_of_gap (hc : isSpace c = true ∨ c = ',') (depth : Nat) : code depth c = inside (.code depth) := by
  have hslash : c ≠ '/' := ne_of_gap hc rfl (by decide)
  have hopening : c ≠ '(' := ne_of_gap hc rfl (by decide)
  have hclosing : c ≠ ')' := ne_of_gap hc rfl (by decide)
  simp [code, isQuote_of_gap hc, hslash, hopening, hclosing]

theorem next_of_gap (hc : isSpace c = true ∨ c = ',') (l : Place) :
    l.next c = l.settle ∨ c = '\n' ∧ l.next c = inside .lost := by
  have hstar : c ≠ '*' := ne_of_gap hc rfl (by decide)
  cases l with
  | inside m =>
    cases m with
    | code => exact .inl (code_of_gap hc _)
    | string depth quote =>
      rw [next_string, Mode.next, if_neg (ne_of_gap hc rfl (by decide)), if_neg (quote.ne (isQuote_of_gap hc))]
      split
      case isTrue hline => exact .inr ⟨hline, rfl⟩
      case isFalse => exact .inl rfl
    | escape => exact .inl rfl
    | lost => exact .inl rfl
  | slash =>
    rw [next, if_neg hstar]
    exact .inl (code_of_gap hc _)
  | comment =>
    rw [next, if_neg hstar]
    exact .inl rfl
  | star =>
    rw [next, if_neg (ne_of_gap hc rfl (by decide)), if_neg hstar]
    exact .inl rfl
  | closed => exact .inl rfl

/-- White space and commas do not lead out of a settled place, unless a string is broken off. -/
theorem after_of_settled (hl : l.settle = l) (hg : IsGap g) : l.after g = l ∨ l.after g = inside .lost := by
  induction g with
  | nil => exact .inl rfl
  | cons c g ih =>
    rw [after_cons]
    rcases next_of_gap (hg c List.mem_cons_self) l with hnext | ⟨-, hnext⟩
    · rw [hnext, hl]
      exact ih fun d hd => hg d (List.mem_cons_of_mem _ hd)
    · rw [hnext]
      exact .inr (after_lost g)

/-- All white space and commas leave the same place behind, unless a string is broken off. -/
theorem after_of_gap (hne : g ≠ []) (hg : IsGap g) (l : Place) :
    l.after g = l.settle ∨ l.after g = inside .lost := by
  obtain ⟨c, g, rfl⟩ := List.exists_cons_of_ne_nil hne
  rw [after_cons]
  rcases next_of_gap (hg c List.mem_cons_self) l with hnext | ⟨-, hnext⟩
  · rw [hnext]
    exact after_of_settled (settle_settle l) fun d hd => hg d (List.mem_cons_of_mem _ hd)
  · rw [hnext]
    exact .inr (after_lost g)

/-- A comma with a space behind it breaks no string off. -/
theorem after_comma_space (l : Place) : l.after [',', ' '] = l.settle := by
  have hnext {c : Char} (hc : isSpace c = true ∨ c = ',') (hline : c ≠ '\n') (l : Place) : l.next c = l.settle :=
    (next_of_gap hc l).resolve_right fun h => hline h.1
  rw [after_cons, hnext (.inr rfl) (by decide), after_cons, hnext (.inl rfl) (by decide), settle_settle, after_nil]

/-- Text in which a string was broken off does not close any more. -/
theorem not_closed_of_lost (hl : l = inside .lost) : l.after t ≠ closed := by
  rw [hl, after_lost]
  nofun

/-- White space and commas in front of the last parenthesis can be left out. -/
theorem closed_of_gap (hg : IsGap g) (h : l.after (g ++ [')']) = closed) : l.next ')' = closed := by
  by_cases hne : g = []
  · rwa [hne] at h
  rw [after_append] at h
  rcases after_of_gap hne hg l with hgap | hgap
  · rw [hgap] at h
    -- a settled place that a parenthesis closes is code, where it was code or a slash before
    cases l with
    | inside m =>
      cases m with
      | code => exact h
      | _ => cases h
    | slash => exact h
    | _ => cases h
  · exact absurd h (not_closed_of_lost hgap)

/-- White space in front is left out where the place is settled. -/
theorem after_of_spaces (hl : l.settle = l) (hg : IsGap g) (h : l.after (g ++ t) = closed) : l.after t = closed := by
  rw [after_append] at h
  rcases after_of_settled hl hg with hgap | hgap
  · rwa [hgap] at h
  · exact absurd h (not_closed_of_lost hgap)

theorem isGap_of_spaces (hg : ∀ c ∈ g, isSpace c = true) : IsGap g := fun c hc => .inl (hg c hc)

theorem IsGap.append (hs : IsGap s) (ht : IsGap t) : IsGap (s ++ t) := by
  intro c hc
  rcases List.mem_append.1 hc with hc | hc
  · exact hs c hc
  · exact ht c hc

/-- Text that closes behind pieces with commas between them still closes when the pieces are
trimmed, and when the white space and commas behind the last one are left out. -/
theorem after_tightened {p : Text} {ps : List Text} (hl : l.settle = l) (hg : IsGap g)
    (h : l.after (join [','] (p :: ps) ++ g ++ [')']) = closed) :
    l.after (join [',', ' '] ((p :: ps).map trim) ++ [')']) = closed := by
  induction ps generalizing p l with
  | nil =>
    obtain ⟨u, v, hp, hu, hv⟩ := exists_spaces_around p
    rw [join, hp, List.append_assoc, List.append_assoc] at h
    have htrimmed := after_of_spaces hl (isGap_of_spaces hu) h
    rw [List.append_assoc, after_append, ← List.append_assoc] at htrimmed
    rw [List.map_singleton, join, after_append]
    exact closed_of_gap ((isGap_of_spaces hv).append hg) htrimmed
  | cons q ps ih =>
    obtain ⟨u, v, hp, hu, hv⟩ := exists_spaces_around p
    have htext : join [','] (p :: q :: ps) ++ g ++ [')'] =
        u ++ (trim p ++ ((v ++ [',']) ++ (join [','] (q :: ps) ++ g ++ [')']))) := by
      rw [join_cons_cons]
      generalize trim p = r at hp
      simp [hp]
    rw [htext] at h
    have htrimmed := after_of_spaces hl (isGap_of_spaces hu) h
    rw [after_append, after_append] at htrimmed
    have hcomma : IsGap (v ++ [',']) := (isGap_of_spaces hv).append (by simp [IsGap])
    rcases after_of_gap (by simp) hcomma (l.after (trim p)) with hsettle | hlost
    · rw [hsettle] at htrimmed
      have hrest := ih (settle_settle _) htrimmed
      rw [← after_comma_space, ← after_append, ← after_append, ← List.append_assoc, ← List.append_assoc] at hrest
      exact hrest
    · exact absurd htrimmed (not_closed_of_lost hlost)

end Place

theorem enclosed_iff {b : Text} : Enclosed b ↔ (Place.inside (.code 1)).after (b ++ [')']) = .closed := by
  rw [← Place.bracketTail_eq_self_iff, ← parenTail, parenTail_eq_self_iff]
  simp

/-- The arguments of an enclosed text, written with a comma and a space between them, are one. -/
theorem Enclosed.join_splitArgs {b : Text} (h : Enclosed b) : Enclosed (join [',', ' '] (splitArgs b)) := by
  rw [splitArgs_eq, dropBlank]
  have hclosed := enclosed_iff.1 h
  rw [← join_cuts (.code 0) b] at hclosed
  obtain ⟨ps, p, hcuts⟩ : ∃ ps p, cuts (.code 0) b = ps ++ [p] :=
    ⟨_, _, (List.dropLast_append_getLast (List.cons_ne_nil _ _)).symm⟩
  split
  case isFalse =>
    refine enclosed_iff.2 (Place.after_tightened (g := []) rfl (by simp [Place.IsGap]) ?_)
    rwa [List.append_nil]
  case isTrue hblank =>
    -- the last piece is white space, and it goes with the comma in front of it
    rw [hcuts, List.map_append, List.map_singleton, List.getLast?_concat, Option.some_inj] at hblank
    have hp : ∀ c ∈ p, isSpace c = true := spaces_of_trim_eq_nil hblank
    rw [hcuts, List.map_append, List.map_singleton, List.dropLast_concat]
    cases ps with
    | nil => exact .nil
    | cons q ps =>
      rw [hcuts, join_concat, List.append_assoc _ [','] p] at hclosed
      have hgap : Place.IsGap ([','] ++ p) := .append (by simp [Place.IsGap]) (Place.isGap_of_spaces hp)
      exact enclosed_iff.2 (Place.after_tightened rfl hgap hclosed)

/-- What is read as a call has no white space at its ends when it is written. -/
theorem trim_render {call : Call} (hname : IsName call.name) : trim (render call) = render call := by
  have hstart : Stops isSpace (render call) := by
    rw [render, List.append_assoc]
    refine stops_append hname.ne_nil (fun c hc => ?_) _
    rw [Bool.eq_false_iff]
    intro hspace
    have hword := hname.isWordChar c (List.mem_of_mem_head? hc)
    rw [isWordChar_of_isSpace hspace] at hword
    cases hword
  rw [trim, trimStart_of_stops hstart]
  exact trimEnd_concat _ rfl

/-- A written call is read as itself if its last argument is not empty, and the arguments of a list
are its arguments when it is put together from them. -/
theorem parse?_render :
    (∀ t call, parse? t = some call → call.args.getLast? ≠ some [] → parse? (render call) = some call) ∧
    (∀ t, (splitArgs t).getLast? ≠ some [] → splitArgs (join [',', ' '] (splitArgs t)) = splitArgs t) := by
  refine ⟨fun t call h hlast => ?_, fun t => splitArgs_join_splitArgs⟩
  obtain ⟨b, -, hname, hb, hargs⟩ := parse?_eq_some_iff.1 h
  rw [hargs] at hlast
  refine parse?_eq_some_iff.2 ⟨join [',', ' '] call.args, trim_render hname, hname, ?_, ?_⟩
  · rw [hargs]
    exact hb.join_splitArgs
  · rw [hargs, splitArgs_join_splitArgs hlast]

/-- A call with white space and a comma in a comment, and its arguments alone. -/
theorem parse?_render_comment :
    let call : Call := ⟨"mix".toList, ["'a, b'".toList, "rgb(1 ,2) /* x".toList, "y */".toList]⟩
    parse? " mix( 'a, b',rgb(1 ,2) /* x , y */,)".toList = some call ∧ parse? (render call) = some call ∧
      splitArgs (join [',', ' '] (splitArgs "1 ,\t[2, 3]".toList)) = splitArgs "1 ,\t[2, 3]".toList := by
  have hparse : parse? " mix( 'a, b',rgb(1 ,2) /* x , y */,)".toList =
      some ⟨"mix".toList, ["'a, b'".toList, "rgb(1 ,2) /* x".toList, "y */".toList]⟩ := by
    decide +kernel
  exact ⟨hparse, parse?_render.1 _ _ hparse (by decide), parse?_render.2 _ (by decide +kernel)⟩

end StylePrep.Call
