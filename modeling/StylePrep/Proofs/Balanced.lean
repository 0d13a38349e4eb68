import StylePrep.Balance
import StylePrep.Proofs.Includable

/-!
# What the check of blocks accepts

The check that the output goes through reads strings and comments in its own, simpler way. A
scan knows escapes in strings, and it steps over `url(…)`, `#{…}` and directives as a whole;
the check knows none of them. So the two can part: with an address that has two slashes in
it, the check takes the rest of the line for a comment, and with it the brace that closes the
block (`passThrough_address`).

`Balanced` describes the texts that the check gets through with as many open blocks as
before. If all that a scan steps over is such a text (`Piece.Alike`), then the check and the
scan see the same blocks, and the check accepts a text that is scanned without an error
exactly if all its blocks are closed (`passThrough_eq_ok_iff`).
-/

namespace StylePrep

open Text Delimited

namespace Balance

/-! ### Steps of the check -/

section Steps

variable (opened : List Nat) (line : Nat) {c : Char} {t body : Text}

/-- Whether a character opens a comment in front of a text. -/
def opensComment (c : Char) (t : Text) : Bool :=
  c == '/' && (t.head? == some '/' || t.head? == some '*')

theorem opensComment_eq_false_iff :
    opensComment c t = false ↔
      ¬ (c = '/' ∧ t.head? = some '/') ∧ ¬ (c = '/' ∧ t.head? = some '*') := by
  unfold opensComment
  grind

theorem checkFrom_cons (c : Char) (t : Text) :
    checkFrom opened line (c :: t) =
      if c = '\n' then checkFrom opened (line + 1) t
      else if isQuote c then
        match lineString c t with
        | none => .error ⟨line, .unterminatedString⟩
        | some body => checkFrom opened line (t.drop body.length)
      else if c = '/' ∧ t.head? = some '*' then
        match commentTail t.tail with
        | none => .error ⟨line, .unterminatedComment⟩
        | some body => checkFrom opened (line + body.newlines) (t.tail.drop body.length)
      else if c = '/' ∧ t.head? = some '/' then checkFrom opened line (t.dropWhile (· != '\n'))
      else if c = '{' then checkFrom (line :: opened) line t
      else if c = '}' then
        match opened with
        | [] => .error ⟨line, .unexpectedBrace⟩
        | _ :: opened => checkFrom opened line t
      else checkFrom opened line t :=
  checkFrom.eq_def opened line (c :: t)

theorem checkFrom_char (hquote : isQuote c = false) (hopen : c ≠ '{') (hclose : c ≠ '}')
    (hcomment : opensComment c t = false) :
    checkFrom opened line (c :: t) = checkFrom opened (line + newlines [c]) t := by
  obtain ⟨hline, hblock⟩ := opensComment_eq_false_iff.1 hcomment
  rw [checkFrom_cons, hquote, if_neg hblock, if_neg hline, if_neg hopen, if_neg hclose]
  by_cases hc : c = '\n' <;> simp [hc]

theorem lineString_eq (hbody : ∀ d ∈ body, d ≠ c ∧ d ≠ '\n') (t : Text) :
    lineString c (body ++ c :: t) = some (body ++ [c]) := by
  induction body with
  | nil => simp [lineString]
  | cons d body ih =>
    obtain ⟨hd, hbody⟩ := List.forall_mem_cons.1 hbody
    simp [lineString, hd, ih hbody]

theorem ne_newline_of_isQuote (hc : isQuote c = true) : c ≠ '\n' := by
  rintro rfl
  cases hc

theorem checkFrom_string (hc : isQuote c = true) (hbody : ∀ d ∈ body, d ≠ c ∧ d ≠ '\n') :
    checkFrom opened line (c :: (body ++ c :: t)) = checkFrom opened line t := by
  have hdrop : (body ++ c :: t).drop (body ++ [c]).length = t := by
    rw [List.append_cons body c t, List.drop_left]
  rw [checkFrom_cons, if_neg (ne_newline_of_isQuote hc), if_pos hc, lineString_eq hbody]
  simp only [hdrop]

theorem lineString_end (hbody : ∀ d ∈ body, d ≠ c ∧ d ≠ '\n') : lineString c body = some body := by
  induction body with
  | nil => rfl
  | cons d body ih =>
    obtain ⟨hd, hbody⟩ := List.forall_mem_cons.1 hbody
    simp [lineString, hd, ih hbody]

theorem checkFrom_openString (hc : isQuote c = true) (hbody : ∀ d ∈ body, d ≠ c ∧ d ≠ '\n') :
    checkFrom opened line (c :: body) = checkFrom opened line [] := by
  rw [checkFrom_cons, if_neg (ne_newline_of_isQuote hc), if_pos hc, lineString_end hbody]
  simp only [List.drop_length]

theorem checkFrom_comment (hbody : commentTail body = some body) :
    checkFrom opened line ('/' :: '*' :: (body ++ t)) =
      checkFrom opened (line + body.newlines) t := by
  have hcomment := commentTail_congr hbody t
  rw [checkFrom_cons, if_neg (by decide), if_neg (by decide), if_pos (by simp)]
  simp [hcomment]

theorem checkFrom_lineComment (hbody : ∀ d ∈ body, (d != '\n') = true) (ht : Stops (· != '\n') t) :
    checkFrom opened line ('/' :: '/' :: (body ++ t)) = checkFrom opened line t := by
  have hdrop := dropWhile_append_of_stops hbody ht
  rw [checkFrom_cons, if_neg (by decide), if_neg (by decide), if_neg (by simp), if_pos (by simp)]
  simp [hdrop]

theorem checkFrom_open :
    checkFrom opened line ('{' :: t) = checkFrom (line :: opened) line t := by
  rw [checkFrom_cons]
  simp [isQuote]

theorem checkFrom_close (top : Nat) :
    checkFrom (top :: opened) line ('}' :: t) = checkFrom opened line t := by
  rw [checkFrom_cons]
  simp [isQuote]

end Steps

theorem checkFrom_nil_iff {opened : List Nat} {line : Nat} :
    checkFrom opened line [] = .ok () ↔ opened = [] := by
  cases opened <;> simp [checkFrom]

/-! ### Balanced texts -/

/-- `Balanced rest u`: the text `u` in front of `rest` is made of strings that end on their
line, comments, blocks around such a text, and characters that are part of none of them. Only
at the very end of a text is a string complete without its closing quote. -/
inductive Balanced : Text → Text → Prop where
  | nil (rest : Text) : Balanced rest []
  | char {c : Char} {rest u : Text} (hquote : isQuote c = false) (hopen : c ≠ '{')
      (hclose : c ≠ '}') (hcomment : opensComment c (u ++ rest) = false) :
      Balanced rest u → Balanced rest (c :: u)
  | string {c : Char} {body rest u : Text} (hc : isQuote c = true)
      (hbody : ∀ d ∈ body, d ≠ c ∧ d ≠ '\n') :
      Balanced rest u → Balanced rest (c :: (body ++ c :: u))
  | openString {c : Char} {body : Text} (hc : isQuote c = true)
      (hbody : ∀ d ∈ body, d ≠ c ∧ d ≠ '\n') : Balanced [] (c :: body)
  | comment {body rest u : Text} (hbody : commentTail body = some body) :
      Balanced rest u → Balanced rest ('/' :: '*' :: (body ++ u))
  | lineComment {body rest u : Text} (hbody : ∀ d ∈ body, (d != '\n') = true)
      (hu : Stops (· != '\n') (u ++ rest)) :
      Balanced rest u → Balanced rest ('/' :: '/' :: (body ++ u))
  | block {inner rest u : Text} :
      Balanced ('}' :: (u ++ rest)) inner → Balanced rest u →
      Balanced rest ('{' :: (inner ++ '}' :: u))

/-- A text without quotes, braces and slashes is balanced. -/
theorem Balanced.of_plain {rest u : Text}
    (h : u.all (fun c => !isQuote c && c != '{' && c != '}' && c != '/') = true) :
    Balanced rest u := by
  induction u with
  | nil => exact .nil rest
  | cons c u ih =>
    simp only [List.all_cons, Bool.and_eq_true, Bool.not_eq_true', bne_iff_ne] at h
    obtain ⟨⟨⟨⟨hquote, hopen⟩, hclose⟩, hslash⟩, hu⟩ := h
    exact .char hquote hopen hclose (by simp [opensComment, hslash]) (ih (by simpa using hu))

theorem newlines_eq_zero {t : Text} (h : ∀ c ∈ t, c ≠ '\n') : t.newlines = 0 :=
  List.count_eq_zero.2 fun hmem => h _ hmem rfl

/-- The check gets through a balanced text with the same open blocks, and on the right line. -/
theorem Balanced.checkFrom_append {rest u : Text} (h : Balanced rest u) (opened : List Nat)
    (line : Nat) : checkFrom opened line (u ++ rest) = checkFrom opened (line + u.newlines) rest := by
  induction h generalizing opened line with
  | nil => rfl
  | @char c rest u hquote hopen hclose hcomment _ ih =>
    have hlines : newlines (c :: u) = newlines [c] + newlines u := newlines_append [c] u
    rw [List.cons_append, checkFrom_char opened line hquote hopen hclose hcomment, ih, hlines,
      Nat.add_assoc]
  | @string c body rest u hc hbody _ ih =>
    have hlines := newlines_eq_zero fun d hd => (hbody d hd).2
    rw [List.cons_append, List.append_assoc, List.cons_append, checkFrom_string opened line hc hbody,
      ih]
    simp [hlines, ne_newline_of_isQuote hc]
  | @openString c body hc hbody =>
    have hlines := newlines_eq_zero fun d hd => (hbody d hd).2
    rw [List.append_nil, checkFrom_openString opened line hc hbody]
    simp [hlines, ne_newline_of_isQuote hc]
  | comment hbody _ ih =>
    rw [List.cons_append, List.cons_append, List.append_assoc, checkFrom_comment opened line hbody, ih]
    simp [Nat.add_assoc]
  | @lineComment body rest u hbody hu _ ih =>
    have hlines : body.newlines = 0 := newlines_eq_zero fun d hd => by simpa using hbody d hd
    rw [List.cons_append, List.cons_append, List.append_assoc,
      checkFrom_lineComment opened line hbody hu, ih]
    simp [hlines]
  | @block inner rest u _ _ ihinner ih =>
    have hinner := ihinner (line :: opened) line
    rw [List.cons_append, List.append_assoc, List.cons_append, checkFrom_open, hinner,
      checkFrom_close, ih]
    simp [Nat.add_assoc]

end Balance

namespace Scan

open Balance

/-! ### Pieces that the check reads alike -/

namespace Piece

/-- Whether a piece is stepped over as a whole and is not a comment. -/
def isOpaque : Piece → Bool
  | act .. => true
  | token c tail _ => c != '/' && !tail.isEmpty

/-- The check reads pieces as a scan does: what a scan steps over is balanced. -/
def Alike : List Piece → Prop
  | [] => True
  | p :: ps => (p.isOpaque = true → Balanced (texts ps) p.text) ∧ Alike ps

end Piece

/-- The open blocks at the end of a text, outermost first; nothing if a scan does not get
there. -/
def endScope? (functions : FunctionTable) (t : Text) : Option (List Nat) :=
  if (lex functions false true t).2 then
    (trail (.start .sheet 1) (.fresh (.start .sheet 1)) (lex functions false true t).1).map
      fun (_, cur, _) => cur.scope
  else none

/-- As many blocks are open in the check as in a scan. -/
def Level (opened : List Nat) (context : Context) : Prop :=
  opened.length = context.blocks.length

/-- The check steps over a token that is a character like a scan does. -/
theorem checkFrom_single {c : Char} {rest : Text} {opened : List Nat} {context context' : Context}
    (hquote : isQuote c = false) (hcomment : opensComment c rest = false)
    (hresult : (effectOf c).result? context = some context') (hlevel : Level opened context)
    (line : Nat) : ∃ opened', Level opened' context' ∧
      checkFrom opened line (c :: rest) = checkFrom opened' (line + newlines [c]) rest := by
  by_cases hopen : c = '{'
  · subst hopen
    cases hresult
    exact ⟨line :: opened, congrArg (· + 1) hlevel, checkFrom_open opened line⟩
  by_cases hclose : c = '}'
  · subst hclose
    obtain ⟨blocks, nextBlock, atStatement⟩ := context
    cases blocks with
    | nil => cases hresult
    | cons block blocks =>
      cases hresult
      obtain ⟨top, opened, rfl⟩ := List.exists_cons_of_length_eq_add_one hlevel
      exact ⟨opened, Nat.succ.inj hlevel, checkFrom_close opened line top⟩
  · have hblocks : context'.blocks = context.blocks := by
      unfold effectOf at hresult
      rw [if_neg hopen, if_neg hclose] at hresult
      split at hresult
      · cases hresult
        rfl
      · split at hresult <;> cases hresult <;> rfl
    exact ⟨opened, hlevel.trans (congrArg _ hblocks.symm),
      checkFrom_char opened line hquote hopen hclose hcomment⟩

theorem checkFrom_token {followsWord : Bool} {c : Char} {tail rest : Text} {effect : Effect}
    (h : Token followsWord c tail effect rest)
    (hwhole : (Piece.token c tail effect).isOpaque = true → Balanced rest (c :: tail))
    {opened : List Nat} {context context' : Context}
    (hresult : effect.result? context = some context') (hlevel : Level opened context)
    (line : Nat) : ∃ opened', Level opened' context' ∧
      checkFrom opened line (c :: (tail ++ rest)) =
        checkFrom opened' (line + newlines (c :: tail)) rest := by
  cases h with
  | @lineComment body rest hbody hrest =>
    cases hresult
    have hlines : body.newlines = 0 := newlines_eq_zero fun d hd => by simpa using hbody d hd
    refine ⟨opened, hlevel, ?_⟩
    rw [List.cons_append, checkFrom_lineComment opened line hbody hrest]
    simp [hlines]
  | blockComment rest hbody =>
    cases hresult
    refine ⟨opened, hlevel, ?_⟩
    rw [List.cons_append, checkFrom_comment opened line hbody]
    simp
  | @single c rest hline hblock hquote =>
    exact checkFrom_single (Bool.eq_false_iff.2 hquote)
      (opensComment_eq_false_iff.2 ⟨hline, hblock⟩) hresult hlevel line
  | string rest hc hbody =>
    cases hresult
    have hslash : c ≠ '/' := by
      rintro rfl
      cases hc
    have htail : tail ≠ [] := by
      rintro rfl
      cases hbody
    exact ⟨opened, hlevel, (hwhole (by simp [Piece.isOpaque, hslash, htail])).checkFrom_append
      opened line⟩
  | interpolation rest hbody =>
    cases hresult
    exact ⟨opened, hlevel, (hwhole rfl).checkFrom_append opened line⟩
  | url rest hword hbody =>
    cases hresult
    exact ⟨opened, hlevel, (hwhole rfl).checkFrom_append opened line⟩

/-- Along pieces that it reads alike, the check has as many blocks open as a scan. -/
theorem Walk.checkFrom_eq {functions : FunctionTable} {t : Text}
    {word statement word' statement' : Bool} {ps : List Piece}
    (h : Walk functions [] word statement t ps word' statement') (halike : Piece.Alike ps)
    {cur cur' : Cursor} {run run' : Run} {ds : List Directive}
    (htrail : trail cur run ps = some (ds, cur', run')) {opened : List Nat}
    (hlevel : Level opened cur.context) (line : Nat) :
    ∃ opened', Level opened' cur'.context ∧
      checkFrom opened line t = checkFrom opened' (line + t.newlines) [] := by
  induction h generalizing cur run ds opened line with
  | done =>
    cases htrail
    exact ⟨opened, hlevel, rfl⟩
  | @step word statement word' statement' c tail u p ps hp htext more ih =>
    obtain ⟨hwhole, halike⟩ := halike
    rw [more.texts_eq, htext] at hwhole
    have hlines : newlines (c :: (tail ++ u)) = newlines (c :: tail) + newlines u :=
      newlines_append (c :: tail) u
    cases p with
    | act d found =>
      obtain ⟨⟨ds', cur'', run''⟩, htrail', heq⟩ := Option.map_eq_some_iff.1 htrail
      cases heq
      obtain ⟨opened', hlevel', hcheck⟩ := ih halike htrail' hlevel (line + newlines (c :: tail))
      refine ⟨opened', hlevel', ?_⟩
      have hpiece := (hwhole rfl).checkFrom_append opened line
      rw [List.cons_append] at hpiece
      rw [hpiece, hcheck, hlines, Nat.add_assoc]
    | token d tail' effect =>
      obtain ⟨rfl, -, htoken⟩ := piece?_eq_token_iff.1 hp
      obtain rfl : tail' = tail := (List.cons.inj htext).2
      obtain ⟨rest, hrest, htoken⟩ := token_of_token? htoken
      obtain rfl : u = rest := by simpa using hrest
      obtain ⟨context, hresult, htrail'⟩ := Option.bind_eq_some_iff.1 htrail
      obtain ⟨opened₁, hlevel₁, hpiece⟩ := checkFrom_token htoken hwhole hresult hlevel line
      obtain ⟨opened', hlevel', hcheck⟩ :=
        ih halike htrail' hlevel₁ (line + newlines (d :: tail'))
      refine ⟨opened', hlevel', ?_⟩
      rw [hpiece, hcheck, hlines, Nat.add_assoc]

end Scan

namespace Balance

/-- If the check reads the pieces of a text as a scan does, it accepts a text that is scanned
without an error exactly if its blocks are closed. -/
theorem passThrough_eq_ok_iff (functions : FunctionTable) {t : Text}
    (herror : (scan functions t).error? = none)
    (halike : Scan.Piece.Alike (Scan.lex functions false true t).1) :
    passThrough t = .ok t ↔ Scan.endScope? functions t = some [] := by
  obtain ⟨hcomplete, word', statement', ds, cur, run, hwalk, htrail, -⟩ := Scan.exists_trail herror
  have hscope : Scan.endScope? functions t = some cur.scope := by
    simp [Scan.endScope?, hcomplete, htrail]
  have hstart : Scan.Level [] (Scan.Cursor.start .sheet 1).context := rfl
  obtain ⟨opened, hlevel, hcheck⟩ := hwalk.checkFrom_eq halike htrail hstart 1
  calc passThrough t = .ok t
    _ ↔ checkFrom opened (1 + t.newlines) [] = .ok () := by
      rw [← hcheck, passThrough, check]
      cases checkFrom [] 1 t <;> simp [Except.map]
    _ ↔ opened = [] := checkFrom_nil_iff
    _ ↔ cur.context.blocks = [] := by
      rw [← List.length_eq_zero_iff, ← List.length_eq_zero_iff, show opened.length = _ from hlevel]
    _ ↔ Scan.endScope? functions t = some [] := by simp [hscope, Scan.Cursor.scope]

/-- A brace in a string closes no block, for the check as for a scan. -/
theorem passThrough_brace :
    passThrough "a\x7b b:url(c)\"\x7d\"\x7d".toList = .ok "a\x7b b:url(c)\"\x7d\"\x7d".toList := by
  refine (passThrough_eq_ok_iff .empty (by decide +kernel) ?_).2 (by decide +kernel)
  have hlex : (Scan.lex .empty false true "a\x7b b:url(c)\"\x7d\"\x7d".toList).1 =
      [.token 'a' [] .enters, .token '{' [] .opens, .token ' ' [] .keeps, .token 'b' [] .enters,
        .token ':' [] .enters, .token 'u' "rl(c)".toList .enters, .token '"' ['}', '"'] .enters,
        .token '}' [] .closes] := by decide +kernel
  have haddress : Balanced ['"', '}', '"', '}'] "url(c)".toList := .of_plain (by decide)
  have hstring : Balanced ['}'] ['"', '}', '"'] :=
    @Balanced.string '"' ['}'] _ [] (by decide) (by simp) (.nil _)
  rw [hlex]
  exact ⟨nofun, nofun, nofun, nofun, nofun, fun _ => haddress, fun _ => hstring, nofun, trivial⟩

/-- An address is no comment for a scan, but it is for the check. -/
theorem passThrough_address :
    (scan .empty "a { b: url(http://c/d.png); }\n".toList).error? = none ∧
      Scan.endScope? .empty "a { b: url(http://c/d.png); }\n".toList = some [] ∧
      passThrough "a { b: url(http://c/d.png); }\n".toList = .error ⟨1, .unclosedBlock⟩ := by
  decide +kernel

end Balance

end StylePrep
