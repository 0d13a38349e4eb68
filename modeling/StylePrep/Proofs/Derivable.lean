import StylePrep.Proofs.Grammar
import StylePrep.Proofs.Unbalanced

/-!
# Balanced texts are the ones accepted

`Balanced` is a grammar: it says of which pieces a text is made, and a block is a piece around
such a text. The check has no pieces. It goes through a text once, with a list of open blocks.
Where it comes to, the text behind it is balanced but for the open blocks, and between any
two of these it is balanced (`Nested`). So a text that it gets through with no block open is
balanced as a whole, and the check accepts exactly those (`check_eq_ok_iff`).

If it does not accept a text, then for the first thing that is wrong with it. What is wrong
with a text (`FaultAt`) is said without the check: a reader who takes no offence at braces
without a block comes to more places than the check does (`Lexes`). The check comes to none of
them behind the first fault, and to all up to there (`Lexes.reads_or_fails`). Open blocks are
reported last, the innermost one (`passThrough_accepts_balanced`).
-/

namespace StylePrep

open Text Delimited

namespace Delimited

/-- A comment is complete if its only end mark is at its end. -/
theorem commentTail_eq_self_iff {body : Text} : commentTail body = some body ↔
    ∃ inner, body = inner ++ ['*', '/'] ∧ ¬ ['*', '/'] <:+: inner ++ ['*'] := by
  constructor
  · exact exists_of_commentTail
  · rintro ⟨inner, rfl, hinner⟩
    exact commentTail_of_endless hinner []

theorem commentTail_eq_none_iff {t : Text} : commentTail t = none ↔ ¬ ['*', '/'] <:+: t := by
  induction t with
  | nil => simp [commentTail]
  | cons c t ih =>
    have hmark : ['*', '/'] <+: c :: t ↔ c = '*' ∧ t.head? = some '/' := by
      cases t with
      | nil => simp [List.cons_prefix_cons]
      | cons d t => simp [List.cons_prefix_cons, eq_comm]
    rw [List.infix_cons_iff, hmark, not_or, ← ih, commentTail]
    split <;> simp_all

end Delimited

namespace Balance

variable {before rest u v t : Text} {opened : List Text} {fault : BalanceFault}

/-- Two balanced texts, one behind the other. -/
theorem Balanced.append (hu : Balanced (v ++ rest) u) (hv : Balanced rest v) :
    Balanced rest (u ++ v) := by
  generalize hrest : v ++ rest = whole at hu
  induction hu with
  | nil => exact hv
  | char hquote hopen hclose hcomment _ ih =>
    subst hrest
    exact .char hquote hopen hclose (by simpa using hcomment) (ih rfl)
  | string hc hbody _ ih =>
    rw [List.cons_append, List.append_assoc, List.cons_append]
    exact .string hc hbody (ih hrest)
  | openString hc hbody =>
    obtain ⟨rfl, rfl⟩ := List.append_eq_nil_iff.1 hrest
    rw [List.append_nil]
    exact .openString hc hbody
  | comment hbody _ ih =>
    rw [List.cons_append, List.cons_append, List.append_assoc]
    exact .comment hbody (ih hrest)
  | lineComment hbody hstops _ ih =>
    subst hrest
    rw [List.cons_append, List.cons_append, List.append_assoc]
    exact .lineComment hbody (by simpa using hstops) (ih rfl)
  | block hinner _ _ ih =>
    subst hrest
    rw [List.cons_append, List.append_assoc, List.cons_append]
    exact .block (by simpa using hinner) (ih rfl)

/-- The text `before`, in front of `rest`, is balanced but for the blocks that are open behind the
texts `opened`, the innermost one first. -/
def Nested (rest : Text) : Text → List Text → Prop
  | before, [] => Balanced rest before
  | before, block :: opened =>
    ∃ inner, before = block ++ '{' :: inner ∧ Balanced rest inner ∧
      Nested ('{' :: (inner ++ rest)) block opened

theorem Nested.append (h : Nested (v ++ rest) before opened) (hv : Balanced rest v) :
    Nested rest (before ++ v) opened := by
  cases opened with
  | nil => exact Balanced.append h hv
  | cons block opened =>
    obtain ⟨inner, rfl, hinner, hblock⟩ := h
    refine ⟨inner ++ v, by simp, hinner.append hv, ?_⟩
    rwa [List.append_assoc]

/-- Where the check comes to, the text behind it is balanced but for the open blocks. -/
theorem Reads.nested (h : Reads before rest opened) : Nested rest before opened := by
  induction h with
  | start t => exact .nil t
  | char hquote hopen hclose hcomment _ ih =>
    exact Nested.append (v := [_]) ih (.char hquote hopen hclose hcomment (.nil _))
  | string hc hbody _ ih =>
    exact Nested.append (by simpa using ih) (.string hc hbody (.nil _))
  | openString hc hbody _ ih =>
    exact Nested.append (by simpa using ih) (.openString hc hbody)
  | @comment before body rest opened hbody _ ih =>
    refine Nested.append (by simpa using ih) ?_
    simpa using Balanced.comment hbody (.nil rest)
  | @lineComment before body rest opened hbody hrest _ ih =>
    refine Nested.append (by simpa using ih) ?_
    simpa using Balanced.lineComment hbody (by simpa using hrest) (.nil rest)
  | opens _ ih => exact ⟨[], rfl, .nil _, ih⟩
  | @closes before rest block opened _ ih =>
    obtain ⟨inner, rfl, hinner, hblock⟩ := ih
    rw [List.append_assoc, List.cons_append]
    exact Nested.append (by simpa using hblock) (.block (by simpa using hinner) (.nil _))

/-- The check goes over a balanced text. -/
theorem Balanced.reads (hu : Balanced rest u) (h : Reads before (u ++ rest) opened) :
    Reads (before ++ u) rest opened := by
  induction hu generalizing before opened with
  | nil => rwa [List.append_nil]
  | char hquote hopen hclose hcomment _ ih =>
    simpa using ih (.char hquote hopen hclose hcomment h)
  | string hc hbody _ ih =>
    simpa using ih (.string hc hbody (by simpa using h))
  | openString hc hbody => exact .openString hc hbody (by simpa using h)
  | comment hbody _ ih => simpa using ih (.comment hbody (by simpa using h))
  | lineComment hbody hstops _ ih => simpa using ih (.lineComment hbody hstops (by simpa using h))
  | block _ _ ihinner ih =>
    have hinner := ihinner (.opens (by simpa using h))
    simpa using ih (.closes hinner)

/-- The check accepts exactly the balanced texts. -/
theorem check_eq_ok_iff : check t = .ok () ↔ Balanced [] t := by
  constructor
  · intro h
    obtain ⟨before, rest, hsplit, hend⟩ := (Reads.start t).exists_end
    rw [List.nil_append] at hsplit
    subst hsplit
    rcases hend with ⟨fault, hfault⟩ | ⟨rfl, opened, hreads⟩
    · cases hfault.check_eq.symm.trans h
    · rw [hreads.checkFrom_eq, checkFrom_nil_iff, List.map_eq_nil_iff] at h
      subst h
      rw [List.append_nil]
      exact hreads.nested
  · intro h
    have hstart : Reads [] (t ++ []) [] := by
      rw [List.append_nil]
      exact .start t
    have hreads : Reads ([] ++ t) [] [] := h.reads hstart
    have hcheck := hreads.checkFrom_eq
    simpa [checkFrom] using hcheck

/-! ### The first fault of a text -/

/-- `Lexes before rest n`: read from the left, strings and comments as a whole, the text
`before ++ rest` has the place in front of `rest`, and `n` blocks are open there. A closing brace
without a block counts for nothing. -/
inductive Lexes : Text → Text → Nat → Prop where
  | start (t : Text) : Lexes [] t 0
  | balanced {before u rest : Text} {n : Nat} :
      Lexes before (u ++ rest) n → Balanced rest u → Lexes (before ++ u) rest n
  | opens {before rest : Text} {n : Nat} :
      Lexes before ('{' :: rest) n → Lexes (before ++ ['{']) rest (n + 1)
  | closes {before rest : Text} {n : Nat} :
      Lexes before ('}' :: rest) n → Lexes (before ++ ['}']) rest (n - 1)

/-- What is wrong with a text behind `before`, where `rest` starts: a closing brace without a
block, a string that meets a line feed, or a comment that never ends. -/
inductive FaultAt : BalanceFault → Text → Text → Prop where
  | brace {before rest : Text} :
      Lexes before ('}' :: rest) 0 → FaultAt .unexpectedBrace before ('}' :: rest)
  | string {c : Char} {before body rest : Text} {n : Nat} (hc : isQuote c = true)
      (hbody : ∀ d ∈ body, d ≠ c ∧ d ≠ '\n') :
      Lexes before (c :: (body ++ '\n' :: rest)) n →
        FaultAt .unterminatedString before (c :: (body ++ '\n' :: rest))
  | comment {before body : Text} {n : Nat} (hbody : commentTail body = none) :
      Lexes before ('/' :: '*' :: body) n →
        FaultAt .unterminatedComment before ('/' :: '*' :: body)

/-- The first thing that is wrong with a text, from the left. -/
structure FirstFault (t : Text) (fault : BalanceFault) (before rest : Text) : Prop where
  split : t = before ++ rest
  fault : FaultAt fault before rest
  first : ∀ fault' before' rest', t = before' ++ rest' → FaultAt fault' before' rest' →
    before.length ≤ before'.length

theorem Nested.lexes (h : Nested rest before opened) : Lexes before rest opened.length := by
  induction opened generalizing rest before with
  | nil =>
    have hlexes := Lexes.balanced (.start (before ++ rest)) h
    rwa [List.nil_append] at hlexes
  | cons block opened ih =>
    obtain ⟨inner, rfl, hinner, hblock⟩ := h
    have hopens := Lexes.opens (ih hblock)
    simpa using hopens.balanced hinner

theorem Culprit.faultAt (h : Culprit fault before rest) (hfault : fault ≠ .unclosedBlock) :
    FaultAt fault before rest := by
  cases h with
  | brace hreads => exact .brace hreads.nested.lexes
  | string hc hbody hreads => exact .string hc hbody hreads.nested.lexes
  | comment hbody hreads => exact .comment hbody hreads.nested.lexes
  | block => exact absurd rfl hfault

/-- In `before`, in front of `rest`, the check fails at a closing brace without a block. -/
def FailsIn (before rest : Text) : Prop :=
  ∃ before' rest', before ++ rest = before' ++ rest' ∧ before'.length < before.length ∧
    Culprit .unexpectedBrace before' rest'

theorem FailsIn.append (h : FailsIn before (u ++ rest)) : FailsIn (before ++ u) rest := by
  obtain ⟨before', rest', hsplit, hlt, hculprit⟩ := h
  refine ⟨before', rest', by rw [List.append_assoc, hsplit], ?_, hculprit⟩
  rw [List.length_append]
  omega

/-- The check comes to each place of a text, unless it fails at a brace in front of it. -/
theorem Lexes.reads_or_fails {n : Nat} (h : Lexes before rest n) :
    (∃ opened, opened.length = n ∧ Reads before rest opened) ∨ FailsIn before rest := by
  induction h with
  | start t => exact .inl ⟨[], rfl, .start t⟩
  | balanced _ hu ih =>
    refine ih.imp ?_ FailsIn.append
    rintro ⟨opened, hlength, hreads⟩
    exact ⟨opened, hlength, hu.reads hreads⟩
  | @opens before rest n _ ih =>
    refine ih.imp ?_ (@FailsIn.append before rest ['{'])
    rintro ⟨opened, hlength, hreads⟩
    exact ⟨_ :: opened, congrArg (· + 1) hlength, .opens hreads⟩
  | @closes before rest n _ ih =>
    rcases ih with ⟨opened, hlength, hreads⟩ | hfails
    · cases opened with
      | nil => exact .inr ⟨before, _, by simp, by simp, .brace hreads⟩
      | cons block opened =>
        refine .inl ⟨opened, ?_, .closes hreads⟩
        rw [← hlength, List.length_cons, Nat.add_sub_cancel]
    · exact .inr (@FailsIn.append before rest ['}'] hfails)

/-- The check fails at a fault, unless it fails in front of it. -/
theorem FaultAt.culprit_or_fails (h : FaultAt fault before rest) :
    Culprit fault before rest ∨ FailsIn before rest := by
  cases h with
  | brace hlexes =>
    refine hlexes.reads_or_fails.imp_left ?_
    rintro ⟨opened, hlength, hreads⟩
    obtain rfl := List.length_eq_zero_iff.1 hlength
    exact .brace hreads
  | string hc hbody hlexes =>
    refine hlexes.reads_or_fails.imp_left ?_
    rintro ⟨opened, -, hreads⟩
    exact .string hc hbody hreads
  | comment hbody hlexes =>
    refine hlexes.reads_or_fails.imp_left ?_
    rintro ⟨opened, -, hreads⟩
    exact .comment hbody hreads

theorem FaultAt.exists_first (h : FaultAt fault before rest) :
    ∃ fault' before' rest', FirstFault (before ++ rest) fault' before' rest' := by
  induction hlength : before.length using Nat.strong_induction_on generalizing fault before rest with
  | _ n ih =>
    by_cases hearlier : ∃ fault' before' rest', before ++ rest = before' ++ rest' ∧
        FaultAt fault' before' rest' ∧ before'.length < n
    · obtain ⟨fault', before', rest', hsplit, hfault, hlt⟩ := hearlier
      rw [hsplit]
      exact ih _ hlt hfault rfl
    · refine ⟨fault, before, rest, rfl, h, fun fault' before' rest' hsplit hfault => ?_⟩
      rw [hlength]
      exact Nat.le_of_not_lt fun hlt => hearlier ⟨fault', before', rest', hsplit, hfault, hlt⟩

theorem FirstFault.check_eq (h : FirstFault t fault before rest) :
    check t = .error ⟨lineBehind before, fault⟩ := by
  obtain ⟨rfl, hfault, hfirst⟩ := h
  rcases hfault.culprit_or_fails with hculprit | ⟨before', rest', hsplit, hlt, hculprit⟩
  · exact hculprit.check_eq
  · have hle := hfirst _ _ _ hsplit (hculprit.faultAt (by decide))
    exact absurd hlt (Nat.not_lt.2 hle)

/-- The check returns the balanced texts as they are, and no others. A text that is not balanced
is refused for the first fault in it from the left, on the line of that fault. If there is
none, then a block is never closed, and the innermost one is reported. The comments in a
balanced text end at the first end mark, and those that are a fault have none. -/
theorem passThrough_accepts_balanced (t : Text) :
    (∀ s, passThrough t = .ok s ↔ s = t ∧ Balanced [] t) ∧
    (¬ Balanced [] t →
      (∃ fault before rest, FirstFault t fault before rest ∧
        passThrough t = .error ⟨1 + before.newlines, fault⟩) ∨
      (∀ fault before rest, t = before ++ rest → ¬ FaultAt fault before rest) ∧
        ∃ before inner n, t = before ++ '{' :: inner ∧ Lexes before ('{' :: inner) n ∧
          Balanced [] inner ∧ passThrough t = .error ⟨1 + before.newlines, .unclosedBlock⟩) ∧
    (∀ body, commentTail body = some body ↔
      ∃ inner, body = inner ++ ['*', '/'] ∧ ¬ ['*', '/'] <:+: inner ++ ['*']) ∧
    (∀ body, commentTail body = none ↔ ¬ ['*', '/'] <:+: body) := by
  have hok (s : Text) : passThrough t = .ok s ↔ s = t ∧ Balanced [] t := by
    rw [← check_eq_ok_iff, passThrough]
    cases check t <;> simp [Except.map, eq_comm]
  refine ⟨hok, fun hbalanced => ?_, fun _ => commentTail_eq_self_iff, fun _ => commentTail_eq_none_iff⟩
  by_cases hfault : ∃ fault before rest, t = before ++ rest ∧ FaultAt fault before rest
  · obtain ⟨fault, before, rest, rfl, hfault⟩ := hfault
    obtain ⟨fault', before', rest', hfirst⟩ := hfault.exists_first
    refine .inl ⟨fault', before', rest', hfirst, ?_⟩
    rw [passThrough, hfirst.check_eq]
    rfl
  · -- the check fails at something that is no fault, and this is an open block
    cases hresult : passThrough t with
    | ok s => exact absurd ((hok s).1 hresult).2 hbalanced
    | error e =>
      obtain ⟨line, fault⟩ := e
      obtain ⟨before, rest, rfl, hculprit, hline⟩ := passThrough_eq_error_iff.1 hresult
      obtain rfl : line = 1 + before.newlines := hline
      obtain rfl : fault = .unclosedBlock := Decidable.not_not.1 fun hne =>
        hfault ⟨fault, before, rest, rfl, hculprit.faultAt hne⟩
      cases hculprit with
      | @block before inner opened hreads =>
        obtain ⟨inner', hsplit, hinner, hblock⟩ := hreads.nested
        obtain rfl : inner = inner' := (List.cons.inj (List.append_cancel_left hsplit)).2
        rw [List.append_nil] at hblock
        exact .inr ⟨fun fault' before' rest' hsplit' hfault' =>
          hfault ⟨fault', before', rest', hsplit', hfault'⟩, before, inner, _, rfl, hblock.lexes,
          hinner, rfl⟩

/-- The first of two faults is reported, here a brace in front of a string that is cut off. -/
example : passThrough "a\x7d\n\"b\n".toList = .error ⟨1, .unexpectedBrace⟩ := by
  decide +kernel

end Balance

end StylePrep
