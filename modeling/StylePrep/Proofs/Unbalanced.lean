import StylePrep.Proofs.Balanced
import StylePrep.Proofs.Permitted
import StylePrep.Proofs.Record

/-!
# Where an output is unbalanced

The check of blocks reports a line, and that line is looked up in the line map of the
compilation. The two count lines in different ways: the check adds up the line feeds of the
pieces it steps over, the map splits the pieces that were put together. So there is
something to say about the line that the check reports: it is a line of the output, and it
is the one on which the fault stands.

`Reads` describes how far the check gets in a text and which blocks are open there, with
places given by the text in front of them. The line that the check counts at such a place is
that of the place (`Reads.checkFrom_eq`), and it fails exactly at a `Culprit`
(`passThrough_eq_error_iff`). A culprit is at least one character long, so its line exists, and
the map of a compilation has an origin for it (`Request.run_unbalanced`).
-/

namespace StylePrep

open Text Delimited

namespace Balance

/-- `Reads before rest opened`: in the text `before ++ rest` the check comes to `rest`. The
blocks that are open there are those behind the texts `opened`, the innermost one first. -/
inductive Reads : Text → Text → List Text → Prop where
  | start (t : Text) : Reads [] t []
  | char {c : Char} {before rest : Text} {opened : List Text} (hquote : isQuote c = false)
      (hopen : c ≠ '{') (hclose : c ≠ '}') (hcomment : opensComment c rest = false) :
      Reads before (c :: rest) opened → Reads (before ++ [c]) rest opened
  | string {c : Char} {before body rest : Text} {opened : List Text} (hc : isQuote c = true)
      (hbody : ∀ d ∈ body, d ≠ c ∧ d ≠ '\n') :
      Reads before (c :: (body ++ c :: rest)) opened →
        Reads (before ++ c :: (body ++ [c])) rest opened
  | openString {c : Char} {before body : Text} {opened : List Text} (hc : isQuote c = true)
      (hbody : ∀ d ∈ body, d ≠ c ∧ d ≠ '\n') :
      Reads before (c :: body) opened → Reads (before ++ c :: body) [] opened
  | comment {before body rest : Text} {opened : List Text} (hbody : commentTail body = some body) :
      Reads before ('/' :: '*' :: (body ++ rest)) opened →
        Reads (before ++ '/' :: '*' :: body) rest opened
  | lineComment {before body rest : Text} {opened : List Text}
      (hbody : ∀ d ∈ body, (d != '\n') = true) (hrest : Stops (· != '\n') rest) :
      Reads before ('/' :: '/' :: (body ++ rest)) opened →
        Reads (before ++ '/' :: '/' :: body) rest opened
  | opens {before rest : Text} {opened : List Text} :
      Reads before ('{' :: rest) opened → Reads (before ++ ['{']) rest (before :: opened)
  | closes {before rest block : Text} {opened : List Text} :
      Reads before ('}' :: rest) (block :: opened) → Reads (before ++ ['}']) rest opened

/-- What makes a text unbalanced stands behind `before`, where `rest` starts: a closing brace
without a block, the quote of a string that a line feed cuts off, the start of a comment that
does not end, or, if the check comes to the end, the brace of the innermost open block. -/
inductive Culprit : BalanceFault → Text → Text → Prop where
  | brace {before rest : Text} :
      Reads before ('}' :: rest) [] → Culprit .unexpectedBrace before ('}' :: rest)
  | string {c : Char} {before body rest : Text} {opened : List Text} (hc : isQuote c = true)
      (hbody : ∀ d ∈ body, d ≠ c ∧ d ≠ '\n') :
      Reads before (c :: (body ++ '\n' :: rest)) opened →
        Culprit .unterminatedString before (c :: (body ++ '\n' :: rest))
  | comment {before body : Text} {opened : List Text} (hbody : commentTail body = none) :
      Reads before ('/' :: '*' :: body) opened →
        Culprit .unterminatedComment before ('/' :: '*' :: body)
  | block {before inner : Text} {opened : List Text} :
      Reads (before ++ '{' :: inner) [] (before :: opened) →
        Culprit .unclosedBlock before ('{' :: inner)

theorem Culprit.ne_nil {fault : BalanceFault} {before rest : Text} (h : Culprit fault before rest) :
    rest ≠ [] := by
  cases h <;> exact List.cons_ne_nil _ _

/-- The line that comes behind a text. -/
def lineBehind (before : Text) : Nat := 1 + before.newlines

@[simp] theorem lineBehind_append (before t : Text) :
    lineBehind (before ++ t) = lineBehind before + t.newlines := by
  simp [lineBehind, Nat.add_assoc]

/-- A string that does not run over a line feed ends in its quote or at the end of the text. -/
theorem lineString_eq_some {c : Char} {t tail : Text} (h : lineString c t = some tail) :
    (∃ body rest, tail = body ++ [c] ∧ t = body ++ c :: rest ∧ ∀ d ∈ body, d ≠ c ∧ d ≠ '\n') ∨
      tail = t ∧ ∀ d ∈ t, d ≠ c ∧ d ≠ '\n' := by
  induction t generalizing tail with
  | nil =>
    cases h
    exact .inr ⟨rfl, by simp⟩
  | cons d t ih =>
    rw [lineString] at h
    split at h
    · obtain rfl := Option.some.inj h
      subst d
      exact .inl ⟨[], t, rfl, rfl, by simp⟩
    split at h
    · cases h
    · rename_i hquote hline
      obtain ⟨tail, htail, rfl⟩ := Option.map_eq_some_iff.1 h
      rcases ih htail with ⟨body, rest, rfl, rfl, hbody⟩ | ⟨rfl, hbody⟩
      · exact .inl ⟨d :: body, rest, rfl, rfl, List.forall_mem_cons.2 ⟨⟨hquote, hline⟩, hbody⟩⟩
      · exact .inr ⟨rfl, List.forall_mem_cons.2 ⟨⟨hquote, hline⟩, hbody⟩⟩

theorem lineString_eq_none_iff {c : Char} (hc : c ≠ '\n') {t : Text} :
    lineString c t = none ↔
      ∃ body rest, t = body ++ '\n' :: rest ∧ ∀ d ∈ body, d ≠ c ∧ d ≠ '\n' := by
  constructor
  · intro h
    induction t with
    | nil => cases h
    | cons d t ih =>
      rw [lineString] at h
      split at h
      · cases h
      split at h
      · subst d
        exact ⟨[], t, rfl, by simp⟩
      · rename_i hquote hline
        obtain ⟨body, rest, rfl, hbody⟩ := ih (Option.map_eq_none_iff.1 h)
        exact ⟨d :: body, rest, rfl, List.forall_mem_cons.2 ⟨⟨hquote, hline⟩, hbody⟩⟩
  · rintro ⟨body, rest, rfl, hbody⟩
    induction body with
    | nil => simp [lineString, hc.symm]
    | cons d body ih =>
      obtain ⟨hd, hbody⟩ := List.forall_mem_cons.1 hbody
      simp [lineString, hd, ih hbody]

namespace Reads

variable {before rest : Text} {opened : List Text}

/-- Where the check comes to, it is on the line of the place, and its open blocks are on the
lines that they are opened on. -/
theorem checkFrom_eq (h : Reads before rest opened) :
    check (before ++ rest) = checkFrom (opened.map lineBehind) (lineBehind before) rest := by
  induction h with
  | start t => rfl
  | @char c before rest opened hquote hopen hclose hcomment _ ih =>
    rw [← List.append_cons, ih, checkFrom_char _ _ hquote hopen hclose hcomment, lineBehind_append]
  | @string c before body rest opened hc hbody _ ih =>
    have hlines := newlines_eq_zero fun d hd => (hbody d hd).2
    have hline : lineBehind (before ++ c :: (body ++ [c])) = lineBehind before := by
      simp [hlines, ne_newline_of_isQuote hc]
    rw [hline, ← checkFrom_string _ _ hc hbody, ← ih]
    simp
  | @openString c before body opened hc hbody _ ih =>
    have hlines := newlines_eq_zero fun d hd => (hbody d hd).2
    have hline : lineBehind (before ++ c :: body) = lineBehind before := by
      simp [hlines, ne_newline_of_isQuote hc]
    rw [hline, ← checkFrom_openString _ _ hc hbody, ← ih, List.append_nil]
  | @comment before body rest opened hbody _ ih =>
    have hline : lineBehind (before ++ '/' :: '*' :: body) = lineBehind before + body.newlines := by
      simp
    rw [hline, ← checkFrom_comment _ _ hbody, ← ih]
    simp
  | @lineComment before body rest opened hbody hrest _ ih =>
    have hlines : body.newlines = 0 := newlines_eq_zero fun d hd => by simpa using hbody d hd
    have hline : lineBehind (before ++ '/' :: '/' :: body) = lineBehind before := by
      simp [hlines]
    rw [hline, ← checkFrom_lineComment _ _ hbody hrest, ← ih]
    simp
  | @opens before rest opened _ ih =>
    have hline : lineBehind (before ++ ['{']) = lineBehind before := by simp
    rw [← List.append_cons, ih, checkFrom_open, hline, List.map_cons]
  | @closes before rest block opened _ ih =>
    have hline : lineBehind (before ++ ['}']) = lineBehind before := by simp
    rw [← List.append_cons, ih, List.map_cons, checkFrom_close, hline]

/-- Every open block starts with a brace. -/
theorem exists_block (h : Reads before rest opened) {block : Text} (hblock : block ∈ opened) :
    ∃ inner, before = block ++ '{' :: inner := by
  induction h generalizing block with
  | start => cases hblock
  | opens _ ih =>
    rcases List.mem_cons.1 hblock with rfl | hblock
    · exact ⟨[], rfl⟩
    · obtain ⟨inner, rfl⟩ := ih hblock
      exact ⟨_, List.append_assoc _ _ _⟩
  | closes _ ih =>
    obtain ⟨inner, rfl⟩ := ih (List.mem_cons_of_mem _ hblock)
    exact ⟨_, List.append_assoc _ _ _⟩
  | char _ _ _ _ _ ih
  | string _ _ _ ih
  | openString _ _ _ ih
  | comment _ _ ih
  | lineComment _ _ _ ih =>
    obtain ⟨inner, rfl⟩ := ih hblock
    exact ⟨_, List.append_assoc _ _ _⟩

/-- One step of the check: it is at the end, at a culprit, or it reads on. -/
theorem next (h : Reads before rest opened) :
    rest = [] ∨ (∃ fault, Culprit fault before rest) ∨
      ∃ piece rest' opened', rest = piece ++ rest' ∧ piece ≠ [] ∧
        Reads (before ++ piece) rest' opened' := by
  obtain _ | ⟨c, t⟩ := rest
  · exact .inl rfl
  refine .inr ?_
  cases hquote : isQuote c with
  | true =>
    cases htail : lineString c t with
    | none =>
      obtain ⟨body, rest, rfl, hbody⟩ :=
        (lineString_eq_none_iff (ne_newline_of_isQuote hquote)).1 htail
      exact .inl ⟨_, .string hquote hbody h⟩
    | some tail =>
      rcases lineString_eq_some htail with ⟨body, rest, rfl, rfl, hbody⟩ | ⟨rfl, hbody⟩
      · exact .inr ⟨c :: (body ++ [c]), rest, opened, by simp, by simp, .string hquote hbody h⟩
      · exact .inr ⟨c :: tail, [], opened, by simp, by simp, .openString hquote hbody h⟩
  | false =>
    by_cases hcomment : opensComment c t = true
    · obtain ⟨hslash, hnext⟩ : c = '/' ∧ (t.head? = some '/' ∨ t.head? = some '*') := by
        simpa [opensComment] using hcomment
      subst hslash
      rcases hnext with hline | hblock
      · obtain ⟨t, rfl⟩ := List.head?_eq_some_iff.1 hline
        refine .inr ⟨'/' :: '/' :: t.takeWhile (· != '\n'), t.dropWhile (· != '\n'), opened, ?_,
          by simp, ?_⟩
        · simp [List.takeWhile_append_dropWhile]
        · refine .lineComment (fun _ => @of_mem_takeWhile (· != '\n') t _) (stops_dropWhile _ t) ?_
          rwa [List.takeWhile_append_dropWhile]
      · obtain ⟨t, rfl⟩ := List.head?_eq_some_iff.1 hblock
        cases hbody : commentTail t with
        | none => exact .inl ⟨_, .comment hbody h⟩
        | some body =>
          obtain ⟨rest, rfl⟩ := commentTail_isPrefix hbody
          have hwhole := commentTail_congr hbody []
          rw [List.append_nil] at hwhole
          exact .inr ⟨'/' :: '*' :: body, rest, opened, by simp, by simp, .comment hwhole h⟩
    rw [Bool.not_eq_true] at hcomment
    by_cases hopen : c = '{'
    · subst hopen
      exact .inr ⟨['{'], t, before :: opened, rfl, by simp, .opens h⟩
    by_cases hclose : c = '}'
    · subst hclose
      obtain _ | ⟨block, opened⟩ := opened
      · exact .inl ⟨_, .brace h⟩
      · exact .inr ⟨['}'], t, opened, rfl, by simp, .closes h⟩
    · exact .inr ⟨[c], t, opened, rfl, by simp, .char hquote hopen hclose hcomment h⟩

/-- From where the check comes to, it gets to the end or to a culprit. -/
theorem exists_end (h : Reads before rest opened) :
    ∃ before' rest', before ++ rest = before' ++ rest' ∧
      ((∃ fault, Culprit fault before' rest') ∨ rest' = [] ∧ ∃ opened', Reads before' [] opened') := by
  -- each step takes a piece of the rest away
  induction hlength : rest.length using Nat.strong_induction_on generalizing before rest opened with
  | _ n ih =>
    rcases h.next with rfl | ⟨fault, hfault⟩ | ⟨piece, rest', opened', rfl, hpiece, hnext⟩
    · exact ⟨before, [], rfl, .inr ⟨rfl, opened, h⟩⟩
    · exact ⟨before, rest, rfl, .inl ⟨fault, hfault⟩⟩
    · have hshorter : rest'.length < n := by
        have := List.length_pos_of_ne_nil hpiece
        rw [← hlength, List.length_append]
        omega
      obtain ⟨before', rest'', hsplit, hend⟩ := ih _ hshorter hnext rfl
      exact ⟨before', rest'', by rw [← hsplit, List.append_assoc], hend⟩

end Reads

/-- The check fails at a culprit, with its line. -/
theorem Culprit.check_eq {fault : BalanceFault} {before rest : Text} (h : Culprit fault before rest) :
    check (before ++ rest) = .error ⟨lineBehind before, fault⟩ := by
  cases h with
  | brace hreads =>
    rw [hreads.checkFrom_eq, List.map_nil, checkFrom_cons]
    simp [isQuote]
  | @string c _ body rest _ hc hbody hreads =>
    have hnone := (lineString_eq_none_iff (ne_newline_of_isQuote hc)).2 ⟨body, rest, rfl, hbody⟩
    rw [hreads.checkFrom_eq, checkFrom_cons, if_neg (ne_newline_of_isQuote hc), if_pos hc, hnone]
  | comment hbody hreads =>
    rw [hreads.checkFrom_eq, checkFrom_cons]
    simp [isQuote, hbody]
  | block hreads =>
    have hcheck := hreads.checkFrom_eq
    rw [List.append_nil] at hcheck
    rw [hcheck, List.map_cons, checkFrom]

/-- The check fails exactly at a culprit, and reports its line. -/
theorem passThrough_eq_error_iff {t : Text} {e : BalanceError} :
    passThrough t = .error e ↔ ∃ before rest, t = before ++ rest ∧ Culprit e.fault before rest ∧
      e.line = lineBehind before := by
  have hcheck : passThrough t = .error e ↔ check t = .error e := by
    unfold passThrough
    cases check t <;> simp [Except.map]
  rw [hcheck]
  constructor
  · intro h
    obtain ⟨before, rest, hsplit, hend⟩ := (Reads.start t).exists_end
    rw [List.nil_append] at hsplit
    subst hsplit
    rcases hend with ⟨fault, hfault⟩ | ⟨rfl, opened, hreads⟩
    · obtain rfl := Except.error.inj (hfault.check_eq.symm.trans h)
      exact ⟨before, rest, rfl, hfault, rfl⟩
    · -- at the end only an open block is a fault
      obtain _ | ⟨block, opened⟩ := opened
      · rw [hreads.checkFrom_eq, List.map_nil, checkFrom] at h
        cases h
      · obtain ⟨inner, rfl⟩ := hreads.exists_block List.mem_cons_self
        have hfault := Culprit.block hreads
        rw [List.append_nil] at h
        obtain rfl := Except.error.inj (hfault.check_eq.symm.trans h)
        exact ⟨block, _, List.append_nil _, hfault, rfl⟩
  · rintro ⟨before, rest, rfl, hfault, hline⟩
    rw [hfault.check_eq, ← hline]

end Balance

namespace Preprocess.Request

open Step

/-- If the output of a compilation is unbalanced, then the line that is reported is one of the
output, the one on which the fault stands, and the error names the source line that this line
comes from. -/
theorem run_unbalanced (options : Options) (request : Request) {w w' : Workspace} {c : Compilation}
    (h : Returns (request.run options) w c w') {e : BalanceError}
    (he : Balance.passThrough c.output = .error e) :
    (∃ before rest, c.output = before ++ rest ∧ Balance.Culprit e.fault before rest ∧
      e.line = 1 + before.newlines) ∧
    1 ≤ e.line ∧ e.line ≤ c.map.lineCount ∧
    ∃ path line, c.lookupFile? e.line = some (path, line) ∧
      c.describeLine e.line = Compilation.place path line ∧
      Compilation.place path line ≠ "unknown".toList ∧
      ∃ error, c.compile = .error error ∧ error.location = none ∧
        error.cause = .compile (Compilation.place path line) e.fault ∧
        error.message = "Compile error: " ++ (Compilation.place path line).asString ++ ": " ++
          e.fault.message ∧
        error.help = some ("error at " ++ (Compilation.place path line).asString) := by
  obtain ⟨file, dir, -, hroot⟩ := returns_run.1 h
  obtain ⟨g, -, hexplained⟩ := Assembly.exists_record hroot
  obtain ⟨before, rest, hsplit, hculprit, hline⟩ := Balance.passThrough_eq_error_iff.1 he
  have hcount : c.map.lineCount = c.output.physicalLines := hexplained.lineCount
  have hle : e.line ≤ c.map.lineCount := by
    rw [hcount, hsplit, hline]
    exact Text.le_physicalLines before hculprit.ne_nil
  have hpos : 1 ≤ e.line := by
    rw [hline]
    exact Nat.le_add_right 1 _
  obtain ⟨⟨path, line⟩, hlookup⟩ :=
    Option.isSome_iff_exists.1 ((hexplained.lookup e.line).2 ⟨hpos, hle⟩)
  have hdescribe : c.describeLine e.line = Compilation.place path line := by
    rw [Compilation.describeLine, hlookup]
  refine ⟨⟨before, rest, hsplit, hculprit, hline⟩, hpos, hle, path, line, hlookup, hdescribe, ?_,
    .of (.compile (Compilation.place path line) e.fault), ?_, rfl, rfl, rfl, rfl⟩
  · rw [← hdescribe, Ne, hexplained.unknown]
    exact not_not_intro ⟨hpos, hle⟩
  · rw [Compilation.compile, he, ← hdescribe]

/-- A block of an imported file that is never closed, behind a text of two lines. -/
theorem run_unbalanced_import :
    ∃ c w' error, Returns (run Sample.options (.source "-".toList "a;\n@import \"b\";\n".toList))
        (Sample.workspace [("b.scss", "c\nd \x7b\n")]) c w' ∧
      Balance.passThrough c.output = .error ⟨3, .unclosedBlock⟩ ∧
      c.compile = .error error ∧ error.help = some "error at /b.scss:2" := by
  have heval : (exec (run Sample.options (.source "-".toList "a;\n@import \"b\";\n".toList))
      (Sample.workspace [("b.scss", "c\nd \x7b\n")])).1.toOption.map
        (fun c => (c.output, c.lookupFile? 3)) =
      some ("a;\nc\nd \x7b\n".toList, some (⟨"/b.scss".toList⟩, 2)) := by decide +kernel
  obtain ⟨c, w', hreturns, hc⟩ := exists_returns heval
  obtain ⟨houtput, hlookup⟩ := Prod.mk.inj hc
  have he : Balance.passThrough c.output = .error ⟨3, .unclosedBlock⟩ := by
    rw [houtput]
    decide +kernel
  obtain ⟨-, -, -, path, line, hplace, -, -, error, hcompile, -, -, -, hhelp⟩ :=
    run_unbalanced _ _ hreturns he
  obtain ⟨rfl, rfl⟩ := Prod.mk.inj (Option.some.inj (hplace.symm.trans hlookup))
  exact ⟨c, w', error, hreturns, he, hcompile, hhelp⟩

end Preprocess.Request

end StylePrep
