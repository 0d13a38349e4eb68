import Mathlib.Data.List.Infix
import StylePrep.Proofs.Readers

/-!
# The grammar of a call

What stands between the parentheses of a call is a text in which strings and block comments are
complete and parentheses match (`Enclosed`). The reader of brackets counts how many are open
instead. A text that it reads through `depth` closing parentheses is as many enclosed texts, each
with the parenthesis behind it (`closing_of_bracketTail`), and conversely it reads any such text
to its end (`Enclosed.bracketTail`). So a text is read as a call exactly if it is a name and an enclosed
text in parentheses (`parse?_grammar`).
-/

namespace StylePrep

namespace Delimited

/-- The rest of a string behind its opening quote: characters, or a backslash with any one
behind it, and the same quote again. -/
inductive StringRest (quote : Char) : Text → Prop where
  | close : StringRest quote [quote]
  | char {c : Char} {t : Text} (hquote : c ≠ quote) (hslash : c ≠ '\\') (hline : c ≠ '\n')
      (ht : StringRest quote t) : StringRest quote (c :: t)
  | escape (c : Char) {t : Text} (ht : StringRest quote t) : StringRest quote ('\\' :: c :: t)

/-- A block comment: its end mark is the first one behind its opening mark. -/
def BlockComment (t : Text) : Prop :=
  ∃ inner, t = '/' :: '*' :: inner ++ ['*', '/'] ∧ ¬ ['*', '/'] <:+: inner ++ ['*']

theorem stringRest_of_stringTail {quote : Char} {t body : Text} (h : stringTail quote t = some body) :
    StringRest quote body := by
  fun_induction stringTail quote t generalizing body with
  | case1 => cases h
  | case2 => cases h
  | case3 c t ih =>
    obtain ⟨rest, hrest, rfl⟩ := Option.map_eq_some_iff.1 h
    exact .escape c (ih hrest)
  | case4 => cases h
  | case5 =>
    obtain rfl := Option.some.inj h
    exact .close
  | case6 c t hslash hline hquote ih =>
    obtain ⟨rest, hrest, rfl⟩ := Option.map_eq_some_iff.1 h
    exact .char hquote hslash hline (ih hrest)

theorem StringRest.stringTail {quote : Char} {body : Text} (h : StringRest quote body)
    (hquote : isQuote quote = true) (rest : Text) : stringTail quote (body ++ rest) = some body := by
  have hslash : quote ≠ '\\' := by rintro rfl; cases hquote
  have hline : quote ≠ '\n' := by rintro rfl; cases hquote
  induction h with
  | close => simp [Delimited.stringTail, hline]
  | char hquote hslash hline _ ih => simp [Delimited.stringTail, hquote, hline, ih]
  | escape c _ ih => simp [Delimited.stringTail, ih]

theorem endless_cons_iff {c : Char} {inner : Text} :
    ¬ ['*', '/'] <:+: c :: inner ++ ['*'] ↔
      ¬ (c = '*' ∧ inner.head? = some '/') ∧ ¬ ['*', '/'] <:+: inner ++ ['*'] := by
  rw [List.cons_append, List.infix_cons_iff, not_or]
  cases inner with
  | nil => simp [List.cons_prefix_cons]
  | cons d inner => simp [List.cons_prefix_cons, eq_comm]

theorem exists_of_commentTail {t body : Text} (h : commentTail t = some body) :
    ∃ inner, body = inner ++ ['*', '/'] ∧ ¬ ['*', '/'] <:+: inner ++ ['*'] := by
  fun_induction commentTail t generalizing body with
  | case1 => cases h
  | case2 c t hc =>
    obtain rfl := Option.some.inj h
    exact ⟨[], rfl, by decide⟩
  | case3 c t hc ih =>
    obtain ⟨rest, hrest, rfl⟩ := Option.map_eq_some_iff.1 h
    obtain ⟨inner, rfl, hinner⟩ := ih hrest
    refine ⟨c :: inner, rfl, endless_cons_iff.2 ⟨?_, hinner⟩⟩
    rintro ⟨rfl, hhead⟩
    obtain ⟨inner, rfl⟩ := List.head?_eq_some_iff.1 hhead
    obtain ⟨u, rfl⟩ := commentTail_isPrefix hrest
    exact hc ⟨rfl, rfl⟩

theorem commentTail_of_endless {inner : Text} (h : ¬ ['*', '/'] <:+: inner ++ ['*']) (rest : Text) :
    commentTail (inner ++ '*' :: '/' :: rest) = some (inner ++ ['*', '/']) := by
  induction inner with
  | nil => rfl
  | cons c inner ih =>
    obtain ⟨hc, hinner⟩ := endless_cons_iff.1 h
    have hhead : ¬ (c = '*' ∧ (inner ++ '*' :: '/' :: rest).head? = some '/') := by
      cases inner with
      | nil => simp
      | cons d inner => exact hc
    rw [List.cons_append, commentTail, if_neg hhead, ih hinner]
    rfl

end Delimited

namespace Call

open Text Delimited

/-- What can stand between parentheses: strings and block comments are complete, and
parentheses match. -/
inductive Enclosed : Text → Prop where
  | nil : Enclosed []
  | char {c : Char} {t : Text} (hquote : isQuote c = false) (hopening : c ≠ '(') (hclosing : c ≠ ')')
      (hcomment : ¬ (c = '/' ∧ t.head? = some '*')) (ht : Enclosed t) : Enclosed (c :: t)
  | string {quote : Char} {s t : Text} (hquote : isQuote quote = true) (hs : StringRest quote s)
      (ht : Enclosed t) : Enclosed (quote :: s ++ t)
  | comment {s t : Text} (hs : BlockComment s) (ht : Enclosed t) : Enclosed (s ++ t)
  | paren {s t : Text} (hs : Enclosed s) (ht : Enclosed t) : Enclosed ('(' :: s ++ ')' :: t)

/-- As many enclosed texts, each with a closing parenthesis behind it. -/
def Closing : Nat → Text → Prop
  | 0, t => t = []
  | depth + 1, t => ∃ s rest, t = s ++ ')' :: rest ∧ Enclosed s ∧ Closing depth rest

/-- A name that a function can have. -/
structure IsName (name : Text) : Prop where
  ne_nil : name ≠ []
  isWordChar : ∀ c ∈ name, isWordChar c = true
  isDigit_head : ∀ c, name.head? = some c → c.isDigit = false

variable {depth : Nat} {t body : Text}

/-- What is put in front goes into the first enclosed text. -/
theorem Closing.extend {s : Text} (h : Closing depth t) (hdepth : 0 < depth)
    (hs : ∀ u rest, t = u ++ ')' :: rest → Enclosed u → Enclosed (s ++ u)) : Closing depth (s ++ t) := by
  obtain ⟨n, rfl⟩ := Nat.exists_eq_add_one.2 hdepth
  obtain ⟨u, rest, rfl, hu, hrest⟩ := h
  exact ⟨s ++ u, rest, by simp, hs u rest rfl hu, hrest⟩

/-- A parenthesis that opens joins the first two enclosed texts. -/
theorem Closing.paren (h : Closing (depth + 1) t) (hdepth : 0 < depth) : Closing depth ('(' :: t) := by
  obtain ⟨s, rest, rfl, hs, hrest⟩ := h
  have hjoined := hrest.extend (s := '(' :: s ++ [')']) hdepth fun u _ _ hu => by
    simpa using Enclosed.paren hs hu
  simpa using hjoined

/-- What the reader of brackets returns. -/
theorem closing_of_bracketTail (hdepth : 0 < depth) (h : bracketTail '(' ')' depth t = some body) :
    Closing depth body := by
  fun_induction bracketTail '(' ')' depth t generalizing body with
  | case1 => cases h
  | case2 => cases h
  | case3 depth c t hquote s hs ih =>
    obtain ⟨rest, hrest, rfl⟩ := Option.map_eq_some_iff.1 h
    have hstring := stringRest_of_stringTail hs
    exact (ih hdepth hrest).extend hdepth fun u _ _ hu => .string hquote hstring hu
  | case4 => cases h
  | case5 depth c t _ hc s hs ih =>
    obtain ⟨rest, hrest, rfl⟩ := Option.map_eq_some_iff.1 h
    obtain ⟨inner, rfl, hinner⟩ := exists_of_commentTail hs
    exact (ih hdepth hrest).extend hdepth fun u _ _ hu => .comment ⟨inner, rfl, hinner⟩ hu
  | case6 depth t _ _ ih =>
    obtain ⟨rest, hrest, rfl⟩ := Option.map_eq_some_iff.1 h
    exact (ih (Nat.succ_pos depth) hrest).paren hdepth
  | case7 depth t hle _ _ _ =>
    obtain rfl := Option.some.inj h
    obtain rfl : depth = 1 := by omega
    exact ⟨[], [], rfl, .nil, rfl⟩
  | case8 depth t hle _ _ _ ih =>
    obtain ⟨rest, hrest, rfl⟩ := Option.map_eq_some_iff.1 h
    obtain ⟨n, rfl⟩ := Nat.exists_eq_add_of_lt (show 1 < depth by omega)
    exact ⟨[], rest, rfl, .nil, ih (by omega) hrest⟩
  | case9 depth c t hquote hc hopening hclosing ih =>
    obtain ⟨rest, hrest, rfl⟩ := Option.map_eq_some_iff.1 h
    refine (ih hdepth hrest).extend (s := [c]) hdepth fun u rest' hu' hu => ?_
    refine .char (by simpa using hquote) hopening hclosing ?_ hu
    rintro ⟨rfl, hhead⟩
    obtain ⟨u, rfl⟩ := List.head?_eq_some_iff.1 hhead
    obtain ⟨v, rfl⟩ := bracketTail_isPrefix hrest
    exact hc ⟨rfl, by simp [hu']⟩

/-- The reader of brackets passes an enclosed text. -/
theorem Enclosed.bracketTail {b : Text} (h : Enclosed b) (depth : Nat) (rest : Text) :
    bracketTail '(' ')' (depth + 1) (b ++ ')' :: rest) =
      (bracketTail '(' ')' (depth + 1) (')' :: rest)).map (b ++ ·) := by
  induction h generalizing depth rest with
  | nil => simp
  | @char c t hquote hopening hclosing hcomment _ ih =>
    have hhead : ¬ (c = '/' ∧ (t ++ ')' :: rest).head? = some '*') := by
      cases t with
      | nil => simp
      | cons d t => exact hcomment
    rw [List.cons_append, Delimited.bracketTail, if_neg (by simp [hquote]), if_neg hhead, if_neg hopening,
      if_neg hclosing, ih, Option.map_map]
    rfl
  | @string quote s t hquote hs _ ih =>
    simp only [List.cons_append, List.append_assoc]
    rw [Delimited.bracketTail, if_pos hquote, hs.stringTail hquote]
    dsimp only
    rw [List.drop_left, ih, Option.map_map]
    congr 1
  | @comment s t hs _ ih =>
    obtain ⟨inner, rfl, hinner⟩ := hs
    have hcomment := commentTail_of_endless hinner (t ++ ')' :: rest)
    have hdrop : (inner ++ '*' :: '/' :: (t ++ ')' :: rest)).drop (inner ++ ['*', '/']).length = t ++ ')' :: rest := by
      have hsplit : inner ++ '*' :: '/' :: (t ++ ')' :: rest) = (inner ++ ['*', '/']) ++ (t ++ ')' :: rest) := by simp
      rw [hsplit, List.drop_left]
    simp only [List.cons_append, List.append_assoc, List.nil_append]
    rw [Delimited.bracketTail, if_neg (by decide), if_pos (by simp), List.tail_cons, hcomment]
    dsimp only
    rw [hdrop, ih, Option.map_map]
    congr 1
    funext u
    simp
  | @paren s t _ _ ihs iht =>
    have hclose : Delimited.bracketTail '(' ')' (depth + 2) (')' :: (t ++ ')' :: rest)) =
        (Delimited.bracketTail '(' ')' (depth + 1) (t ++ ')' :: rest)).map (')' :: ·) := by
      rw [Delimited.bracketTail, if_neg (by decide), if_neg (by simp), if_neg (by decide), if_pos rfl,
        if_neg (by omega)]
      rfl
    simp only [List.cons_append, List.append_assoc]
    rw [Delimited.bracketTail, if_neg (by decide), if_neg (by simp), if_pos rfl, ihs, hclose, iht,
      Option.map_map, Option.map_map, Option.map_map]
    congr 1

theorem parenTail_eq_self_iff {rest : Text} :
    parenTail rest = some rest ↔ ∃ b, rest = b ++ [')'] ∧ Enclosed b := by
  constructor
  · intro h
    obtain ⟨b, u, rfl, hb, rfl⟩ := closing_of_bracketTail Nat.one_pos h
    exact ⟨b, rfl, hb⟩
  · rintro ⟨b, rfl, hb⟩
    have hclose : Delimited.bracketTail '(' ')' 1 [')'] = some [')'] := by simp [Delimited.bracketTail, isQuote]
    rw [parenTail, hb.bracketTail 0 [], hclose]
    rfl

theorem isWordStart_iff {c : Char} : isWordStart c = true ↔ Text.isWordChar c = true ∧ c.isDigit = false := by
  simp only [isWordStart, Text.isWordChar, Char.isAlphanum, Bool.or_eq_true, beq_iff_eq]
  constructor
  · rintro ((halpha | rfl) | rfl)
    · refine ⟨.inl (.inl (.inl halpha)), ?_⟩
      delta Char.isAlpha Char.isUpper Char.isLower at halpha
      delta Char.isDigit
      grind
    · decide
    · decide
  · rintro ⟨((halpha | hdigit) | hc) | hc, hnot⟩
    · exact .inl (.inl halpha)
    · rw [hdigit] at hnot
      cases hnot
    · exact .inl (.inr hc)
    · exact .inr hc

theorem isName_iff {name : Text} :
    IsName name ↔ (∀ c ∈ name, Text.isWordChar c = true) ∧ (name.head?.map isWordStart).getD false = true := by
  cases name with
  | nil =>
    simp only [List.head?_nil, Option.map_none, Option.getD_none, reduceCtorEq, and_false, iff_false]
    exact fun h => h.ne_nil rfl
  | cons c name =>
    rw [List.head?_cons, Option.map_some, Option.getD_some, isWordStart_iff]
    constructor
    · intro h
      exact ⟨h.isWordChar, h.isWordChar c List.mem_cons_self, h.isDigit_head c rfl⟩
    · rintro ⟨hword, -, hdigit⟩
      refine ⟨List.cons_ne_nil c name, hword, ?_⟩
      rintro d hd
      obtain rfl := Option.some.inj hd
      exact hdigit

/-- A text is a call exactly if, apart from white space around it, it is a name and an enclosed
text in parentheses; the arguments are those of the enclosed text. -/
theorem parse?_eq_some_iff {call : Call} :
    parse? t = some call ↔
      ∃ b, trim t = call.name ++ '(' :: b ++ [')'] ∧ IsName call.name ∧ Enclosed b ∧
        call.args = splitArgs b := by
  obtain ⟨name, args⟩ := call
  unfold parse?
  dsimp only
  generalize trim t = t
  constructor
  · intro h
    split at h
    case isFalse => cases h
    case isTrue hstart =>
      split at h
      case h_2 => cases h
      case h_1 rest hrest =>
        split at h
        case h_2 => cases h
        case h_1 body hbody =>
          split at h
          case isFalse => cases h
          case isTrue hself =>
            subst hself
            cases h
            obtain ⟨b, rfl, hb⟩ := parenTail_eq_self_iff.1 hbody
            refine ⟨b, ?_, ?_, hb, by simp⟩
            · rw [List.append_assoc, List.cons_append, ← hrest, List.takeWhile_append_dropWhile]
            · rw [isName_iff]
              refine ⟨fun c => of_mem_takeWhile, ?_⟩
              cases t with
              | nil => cases hstart
              | cons c t =>
                have hc : isWordStart c = true := hstart
                rw [List.takeWhile_cons_of_pos (isWordStart_iff.1 hc).1]
                exact hc
  · rintro ⟨b, rfl, hname, hb, rfl⟩
    obtain ⟨hword, hstart⟩ := isName_iff.1 hname
    have hstops : Stops Text.isWordChar ('(' :: (b ++ [')'])) := by
      rintro c hc
      obtain rfl := Option.some.inj hc
      rfl
    have hhead : (name ++ '(' :: b ++ [')']).head? = name.head? := by
      cases name with
      | nil => exact absurd rfl hname.ne_nil
      | cons c name => rfl
    rw [hhead, if_pos hstart]
    rw [List.append_assoc, List.cons_append, dropWhile_append_of_stops hword hstops,
      takeWhile_append_of_stops hword hstops]
    have hparen := parenTail_eq_self_iff.2 ⟨b, rfl, hb⟩
    simp [hparen]

/-- The texts that are calls are those of the grammar, each with the one name and the arguments that
it has there; all others are refused. -/
theorem parse?_grammar (t : Text) :
    (∀ name args, parse? t = some ⟨name, args⟩ ↔
      ∃ b, trim t = name ++ '(' :: b ++ [')'] ∧ IsName name ∧ Enclosed b ∧ args = splitArgs b) ∧
    (parse? t = none ↔ ¬ ∃ name b, trim t = name ++ '(' :: b ++ [')'] ∧ IsName name ∧ Enclosed b) := by
  refine ⟨fun name args => parse?_eq_some_iff, ?_⟩
  constructor
  · rintro hnone ⟨name, b, htrim, hname, hb⟩
    have hsome : parse? t = some ⟨name, splitArgs b⟩ := parse?_eq_some_iff.2 ⟨b, htrim, hname, hb, rfl⟩
    rw [hnone] at hsome
    cases hsome
  · intro hnot
    cases hparse : parse? t with
    | none => rfl
    | some call =>
      obtain ⟨b, htrim, hname, hb, -⟩ := parse?_eq_some_iff.1 hparse
      exact absurd ⟨call.name, b, htrim, hname, hb⟩ hnot

end Call

end StylePrep
