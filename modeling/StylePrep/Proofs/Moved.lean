import StylePrep.Proofs.Tokens

/-!
# Scans further down

A scan that starts further down in a text reports what it would report at the beginning, moved by
the bytes and the lines in front. Readers know of lines only what they put into errors, so moving
the line moves the error (`recognize_moved`, `skip_moved`). A scan looks back at one character only,
and at the column its run starts in. Behind a line end, both are as at the beginning
(`Shifted.of_newline`).
-/

namespace StylePrep

/-- The place so many bytes and lines further down, in the same column. -/
def Location.moved (bytes lines : Nat) (l : Location) : Location :=
  ⟨l.offset + bytes, l.line + lines, l.column⟩

def Span.moved (bytes lines : Nat) (s : Span) : Span :=
  ⟨s.start.moved bytes lines, s.stop.moved bytes lines⟩

def Directive.moved (bytes lines : Nat) (d : Directive) : Directive :=
  { d with span := d.span.moved bytes lines }

def ScanError.moved (lines : Nat) (e : ScanError) : ScanError := { e with line := e.line + lines }

namespace Location

variable {bytes lines : Nat}

theorem moved_next (l : Location) (c : Char) :
    (l.moved bytes lines).next c = (l.next c).moved bytes lines := by
  unfold next
  split <;> simp only [moved, Location.mk.injEq, and_true] <;> omega

theorem moved_advance (l : Location) (t : Text) :
    (l.moved bytes lines).advance t = (l.advance t).moved bytes lines := by
  induction t generalizing l with
  | nil => rfl
  | cons c t ih => exact (congrArg (advance · t) (moved_next l c)).trans (ih (l.next c))

/-- Behind a line end comes the first column. -/
theorem advance_of_newline (l : Location) {t : Text} (h : t.getLast? = some '\n') :
    l.advance t = ⟨l.offset + t.utf8Size, l.line + t.newlines, 1⟩ := by
  have hcolumn : (l.advance t).column = 1 := by
    obtain ⟨u, rfl⟩ := List.getLast?_eq_some_iff.1 h
    rw [advance_append]
    rfl
  rw [← advance_offset, ← advance_line, ← hcolumn]

end Location

namespace Scan

open Text Delimited

def Run.moved (bytes lines : Nat) (run : Run) : Run :=
  { run with start := run.start.moved bytes lines }

def Outcome.moved (bytes lines : Nat) (o : Outcome) : Outcome :=
  ⟨o.directives.map (Directive.moved bytes lines), o.error?.map (ScanError.moved lines)⟩

/-! ### Readers -/

section Readers

variable {functions : FunctionTable} {lines : Nat}

/-- Moving the errors of a sequence is moving those of its parts. -/
theorem mapError_bind {α β : Type} (x : Except ScanError α) (f : α → Except ScanError β) :
    (x >>= f).mapError (ScanError.moved lines) =
      x.mapError (ScanError.moved lines) >>= fun a => (f a).mapError (ScanError.moved lines) := by
  cases x <;> rfl

theorem readTarget_moved (first line : Nat) (t : Text) :
    readTarget (first + lines) (line + lines) t =
      (readTarget first line t).mapError (ScanError.moved lines) := by
  unfold readTarget
  split
  · rfl
  split
  · split <;> rfl
  split
  · rfl
  split <;> rfl

theorem readTargets_moved (first line : Nat) (t : Text) :
    readTargets (first + lines) (line + lines) t =
      (readTargets first line t).mapError (ScanError.moved lines) := by
  induction ht : t.length using Nat.strongRecOn generalizing line t with
  | _ n ih =>
    subst ht
    have hfirst : readTarget (first + lines) (line + lines + newlines (t.takeWhile isAsciiSpace))
        (t.dropWhile isAsciiSpace) =
        (readTarget first (line + newlines (t.takeWhile isAsciiSpace))
          (t.dropWhile isAsciiSpace)).mapError (ScanError.moved lines) := by
      rw [Nat.add_right_comm]
      exact readTarget_moved first _ _
    cases htarget : readTarget first (line + newlines (t.takeWhile isAsciiSpace))
        (t.dropWhile isAsciiSpace) with
    | error e =>
      rw [htarget] at hfirst
      rw [readTargets, readTargets]
      simp [htarget, hfirst, bind, Except.bind, Except.mapError]
    | ok target =>
      obtain ⟨space, blank, next, rfl, hspace, hitem, hblank, hnext, hround⟩ :=
        readTargets_of_readTarget htarget
      have hline : line + lines + newlines space + newlines target.spelling =
          line + newlines space + newlines target.spelling + lines := by omega
      rw [hround, readTargets_append _ _ hspace hitem hblank hnext, hline]
      unfold readFurther
      split
      · rename_i more
        have hlt : more.length < (space ++ target.spelling ++ blank ++ ',' :: more).length := by
          simp
          omega
        rw [ih _ hlt _ _ rfl, mapError_bind]
        rfl
      · rfl
      · rfl

theorem readImport_moved (line : Nat) (t : Text) :
    readImport (line + lines) t = (readImport line t).mapError (ScanError.moved lines) := by
  unfold readImport
  split
  · rfl
  split
  · rw [mapError_bind, readTargets_moved]
    congr 1
    funext targets
    split <;> rfl
  · rfl

theorem readStatement_moved (line depth : Nat) (t : Text) :
    readStatement (line + lines) depth t =
      (readStatement line depth t).mapError (ScanError.moved lines) := by
  fun_induction readStatement line depth t with
  | case1 => rw [readStatement]; rfl
  | case2 line depth c t hquote htail =>
    rw [readStatement, if_pos hquote, htail]
    rfl
  | case3 line depth c t hquote body hbody ih =>
    rw [readStatement, if_pos hquote, hbody]
    dsimp only
    rw [Nat.add_right_comm, ih, mapError_bind]
    rfl
  | case4 line depth c t hquote hc htail =>
    rw [readStatement, if_neg hquote, if_pos hc, htail]
    rfl
  | case5 line depth c t hquote hc body hbody ih =>
    rw [readStatement, if_neg hquote, if_pos hc, hbody]
    dsimp only
    rw [Nat.add_right_comm, ih, mapError_bind]
    rfl
  | case6 line depth c t hquote hcomment hc htail =>
    rw [readStatement, if_neg hquote, if_neg hcomment, if_pos hc, htail]
    rfl
  | case7 line depth c t hquote hcomment hc body hbody ih =>
    rw [readStatement, if_neg hquote, if_neg hcomment, if_pos hc, hbody]
    dsimp only
    rw [Nat.add_right_comm, ih, mapError_bind]
    rfl
  | case8 line depth c t hquote hcomment hbrace hend =>
    rw [readStatement, if_neg hquote, if_neg hcomment, if_neg hbrace, if_pos hend]
    rfl
  | case9 line depth c t hquote hcomment hbrace hsemicolon hend =>
    rw [readStatement, if_neg hquote, if_neg hcomment, if_neg hbrace, if_neg hsemicolon, if_pos hend]
    rfl
  | case10 line depth c t hquote hcomment hbrace hsemicolon hend depth' ih =>
    rw [readStatement, if_neg hquote, if_neg hcomment, if_neg hbrace, if_neg hsemicolon,
      if_neg hend]
    simp only [depth', dite_eq_ite] at ih ⊢
    rw [Nat.add_right_comm, ih, mapError_bind]
    rfl

theorem readAssignment_moved (line : Nat) (t : Text) :
    readAssignment (line + lines) t = (readAssignment line t).mapError (ScanError.moved lines) := by
  unfold readAssignment
  simp only
  split
  · rfl
  split
  case h_2 => rfl
  case h_1 rest _ =>
    rw [mapError_bind, Nat.add_right_comm, readStatement_moved]
    congr 1
    funext ⟨body, stop⟩
    simp only
    split <;> rfl

theorem readCall_moved (line : Nat) (c : Char) (t : Text) :
    readCall functions (line + lines) c t =
      (readCall functions line c t).mapError (ScanError.moved lines) := by
  unfold readCall
  simp only
  split
  case h_2 => rfl
  case h_1 =>
    split
    · rfl
    split
    · rfl
    split <;> rfl

end Readers

/-! ### Scans -/

/-- A cursor so many bytes and lines further down that looks back at the same. -/
structure Shifted (bytes lines : Nat) (cur cur' : Cursor) : Prop where
  place : cur'.place = cur.place.moved bytes lines
  word : cur'.followsWord = cur.followsWord
  context : cur'.context = cur.context

section Scans

variable {functions : FunctionTable} {bytes lines : Nat} {cur cur' : Cursor}

theorem Shifted.line (h : Shifted bytes lines cur cur') : cur'.line = cur.line + lines := by
  rw [Cursor.line, h.place]
  rfl

theorem Shifted.scope (h : Shifted bytes lines cur cur') : cur'.scope = cur.scope := by
  rw [Cursor.scope, h.context, Cursor.scope]

theorem Shifted.step (h : Shifted bytes lines cur cur') (c : Char) (tail : Text)
    (context : Context) :
    Shifted bytes lines (cur.step c tail context) (cur'.step c tail context) where
  place := by
    rw [Cursor.step, h.place, Location.moved_advance]
    rfl
  word := rfl
  context := rfl

theorem Shifted.fresh (h : Shifted bytes lines cur cur') :
    Run.fresh cur' = (Run.fresh cur).moved bytes lines := by
  rw [Run.fresh, h.place, h.scope]
  rfl

/-- Behind a line end and in the same surroundings, the cursor is at the start of a text again. -/
theorem Shifted.of_newline {mode : Mode} {line : Nat} {front : Text}
    (h : front.getLast? = some '\n') :
    Shifted front.utf8Size front.newlines (.start mode line)
      ⟨(Location.start line).advance front, some '\n', (Cursor.start mode line).context⟩ where
  place := by
    rw [Location.advance_of_newline _ h]
    rfl
  word := rfl
  context := rfl

theorem recognize_moved (h : Shifted bytes lines cur cur') (c : Char) (t : Text) :
    recognize functions cur' c t =
      (recognize functions cur c t).mapError (ScanError.moved lines) := by
  unfold recognize
  rw [h.context, h.word, h.line]
  split
  · exact readImport_moved _ _
  split
  · exact readAssignment_moved _ _
  split
  · exact readCall_moved _ _ _
  · rfl

theorem skip_moved (h : Shifted bytes lines cur cur') (c : Char) (t : Text) :
    skip cur' c t = (skip cur c t).mapError (ScanError.moved lines) := by
  rw [skip, skip, h.context, h.word, h.line]
  dsimp only
  by_cases hline : c = '/' ∧ t.head? = some '/'
  · rw [if_pos hline, if_pos hline]
    rfl
  rw [if_neg hline, if_neg hline]
  by_cases hblock : c = '/' ∧ t.head? = some '*'
  · rw [if_pos hblock, if_pos hblock]
    cases commentTail t.tail <;> rfl
  rw [if_neg hblock, if_neg hblock]
  by_cases hquote : isQuote c = true
  · rw [if_pos hquote, if_pos hquote]
    cases stringTail c t <;> rfl
  rw [if_neg hquote, if_neg hquote]
  by_cases hbrace : c = '#' ∧ t.head? = some '{'
  · rw [if_pos hbrace, if_pos hbrace]
    cases braceTail t.tail <;> rfl
  rw [if_neg hbrace, if_neg hbrace]
  by_cases hurl : (after? "url(".toList (c :: t)).isSome = true ∧ (!cur.followsWord) = true
  · rw [if_pos hurl, if_pos hurl]
    cases parenTail (t.drop 3) <;> rfl
  rw [if_neg hurl, if_neg hurl]
  by_cases hopen : c = '{'
  · rw [if_pos hopen, if_pos hopen]
    rfl
  rw [if_neg hopen, if_neg hopen]
  by_cases hclose : c = '}'
  · rw [if_pos hclose, if_pos hclose]
    cases cur.context.blocks <;> rfl
  rw [if_neg hclose, if_neg hclose]
  -- the other characters are tokens of their own and never fail
  split
  · rfl
  split <;> rfl

theorem flush_moved (run : Run) :
    (run.moved bytes lines).flush = run.flush.map (Directive.moved bytes lines) := by
  unfold Run.flush
  change (if run.text = [] then _ else _) = _
  split
  · rfl
  · rw [List.map_cons, List.map_nil, Run.moved, Location.moved_advance]
    rfl

theorem Run.indent_moved (run : Run) : (run.moved bytes lines).indent = run.indent := rfl

theorem Outcome.prepend_moved (ds : List Directive) (o : Outcome) :
    (o.moved bytes lines).prepend (ds.map (Directive.moved bytes lines)) =
      (o.prepend ds).moved bytes lines := by
  simp [Outcome.moved, Outcome.prepend]

theorem complete_moved (h : Shifted bytes lines cur cur') (run : Run) (c : Char) (found : Found) :
    complete cur' (run.moved bytes lines) c found =
      (complete cur run c found).map (Directive.moved bytes lines) := by
  unfold complete
  rw [h.scope, Run.indent_moved, List.map_append, ← flush_moved]
  simp only [Run.moved, Location.moved_advance]
  rfl

/-- A scan from a cursor further down reports the same, further down. -/
theorem scanFrom_moved (h : Shifted bytes lines cur cur') (run : Run) (t : Text) :
    scanFrom functions cur' (run.moved bytes lines) t =
      (scanFrom functions cur run t).moved bytes lines := by
  fun_induction scanFrom functions cur run t generalizing cur' with
  | case1 cur run =>
    rw [scanFrom, flush_moved]
    rfl
  | case2 cur run c t e he =>
    rw [scanFrom, recognize_moved h, he]
    rfl
  | case3 cur run c t found hfound next =>
    rename_i ih
    have hnext := h.step c found.tail { cur.context with atStatement := found.atStatement }
    rw [scanFrom, recognize_moved h, hfound, h.context]
    simp only [Except.mapError]
    rw [hnext.fresh, ih hnext, complete_moved h, Outcome.prepend_moved]
  | case4 cur run c t hnone e he =>
    rw [scanFrom, recognize_moved h, hnone, skip_moved h, he]
    rfl
  | case5 cur run c t hnone tail context hskip ih =>
    rw [scanFrom, recognize_moved h, hnone, skip_moved h, hskip]
    exact ih (h.step c tail context)

end Scans

end Scan

end StylePrep
