import StylePrep.Proofs.Grammar
import StylePrep.Proofs.Moved
import StylePrep.Proofs.Seams

/-!
# What stands before the first directive

White space and comments in front of a sheet change nothing but places. A scan takes them token by
token into its first run, and no token has an effect (`Preamble.scanFrom_eq`). Behind the last line
end the scan is where it would be at the beginning of the sheet, except that its run has text
already. That text comes out in front of the first directive (`Outcome.behind`), and nowhere else
(`scan_preamble`).
-/

namespace StylePrep.Scan

open Text Delimited

variable {functions : FunctionTable}

/-- White space and comments; a line comment has its line end. -/
inductive Preamble : Text → Prop where
  | nil : Preamble []
  | space {c : Char} {t : Text} (hc : isAsciiSpace c = true) (ht : Preamble t) : Preamble (c :: t)
  | block {s t : Text} (hs : BlockComment s) (ht : Preamble t) : Preamble (s ++ t)
  | line {body t : Text} (hbody : '\n' ∉ body) (ht : Preamble t) :
      Preamble ('/' :: '/' :: body ++ '\n' :: t)

/-- The run that text at the beginning of the sheet is on its own. -/
def opening (front : Text) : Directive :=
  ⟨.plain, ⟨.start 1, (Location.start 1).advance front⟩, front, []⟩

/-- The directives behind text at the beginning of the sheet, which joins a run that is the first of
them. -/
def behind (front : Text) : List Directive → List Directive
  | [] => [opening front]
  | d :: ds =>
    if d.kind = .plain then
      { d with span := ⟨.start 1, d.span.stop⟩, raw := front ++ d.raw } :: ds
    else opening front :: d :: ds

/-- The outcome behind text at the beginning of the sheet. In front of an error that text is not
reported. -/
def Outcome.behind (front : Text) (o : Outcome) : Outcome :=
  if o.directives = [] ∧ o.error? ≠ none then o
  else { o with directives := Scan.behind front o.directives }

/-! ### Tokens without effect -/

/-- The cursor behind a text that leaves the surroundings as they are. -/
def Cursor.behind (cur : Cursor) (t : Text) : Cursor :=
  ⟨cur.place.advance t, t.getLast?.or cur.before, cur.context⟩

theorem Cursor.behind_nil (cur : Cursor) : cur.behind [] = cur := rfl

theorem Cursor.behind_append (cur : Cursor) (s t : Text) :
    cur.behind (s ++ t) = (cur.behind s).behind t := by
  simp [behind, List.getLast?_append, Option.or_assoc]

theorem Cursor.step_eq_behind (cur : Cursor) (c : Char) (tail : Text) :
    cur.step c tail cur.context = cur.behind (c :: tail) := by
  simp [behind, step, List.getLast?_cons, List.getLastD_eq_getLast?]

theorem Run.extend_nil (run : Run) : run.extend [] = run := by
  simp [extend]

theorem Run.extend_append (run : Run) (s t : Text) :
    run.extend (s ++ t) = (run.extend s).extend t := by
  simp [extend]

theorem scanFrom_keeps {c : Char} (tail : Text) {rest : Text}
    (h : ∀ word statement, piece? functions word statement c (tail ++ rest) =
      some (.token c tail .keeps)) (cur : Cursor) (run : Run) :
    scanFrom functions cur run (c :: (tail ++ rest)) =
      scanFrom functions (cur.behind (c :: tail)) (run.extend (c :: tail)) rest := by
  obtain ⟨-, hnone, htoken⟩ := piece?_eq_token_iff.1 (h cur.followsWord cur.context.atStatement)
  rw [scanFrom_token ⟨rfl, rfl⟩ run hnone htoken rfl, Cursor.step_eq_behind]

theorem piece?_comment (word statement : Bool) {tail rest : Text}
    (h : Token word '/' tail .keeps rest) :
    piece? functions word statement '/' (tail ++ rest) = some (.token '/' tail .keeps) :=
  piece?_of_token (recognize_eq_none_of (by simp) (by simp) (by simp [isWordStart]) _) h

/-- A scan takes what stands before the first directive into its run. -/
theorem Preamble.scanFrom_eq {p : Text} (h : Preamble p) (cur : Cursor) (run : Run) (rest : Text) :
    scanFrom functions cur run (p ++ rest) =
      scanFrom functions (cur.behind p) (run.extend p) rest := by
  induction h generalizing cur run with
  | nil =>
    rw [List.nil_append, Cursor.behind_nil, Run.extend_nil]
  | @space c t hc _ ih =>
    rw [← List.singleton_append, Cursor.behind_append, Run.extend_append, ← ih, List.append_assoc]
    exact scanFrom_keeps [] (fun word statement => piece?_space word statement hc _) cur run
  | @block s t hs _ ih =>
    obtain ⟨inner, rfl, hinner⟩ := hs
    have hbody : commentTail (inner ++ ['*', '/']) = some (inner ++ ['*', '/']) :=
      commentTail_of_endless hinner []
    rw [Cursor.behind_append, Run.extend_append, ← ih, List.append_assoc]
    exact scanFrom_keeps ('*' :: (inner ++ ['*', '/']))
      (fun word statement => piece?_comment word statement (.blockComment _ hbody)) cur run
  | @line body t hbody _ ih =>
    have hplain : ∀ c ∈ body, (c != '\n') = true := by
      intro c hc
      simpa using fun heq : c = '\n' => hbody (heq ▸ hc)
    have hstop : Stops (· != '\n') ('\n' :: (t ++ rest)) := stops_cons rfl _
    calc scanFrom functions cur run ('/' :: '/' :: body ++ '\n' :: t ++ rest)
        = scanFrom functions (cur.behind ('/' :: '/' :: body)) (run.extend ('/' :: '/' :: body))
            ('\n' :: (t ++ rest)) := by
          rw [List.append_assoc]
          exact scanFrom_keeps ('/' :: body) (fun word statement =>
            piece?_comment word statement (.lineComment hplain hstop)) cur run
      _ = scanFrom functions ((cur.behind ('/' :: '/' :: body)).behind ['\n'])
            ((run.extend ('/' :: '/' :: body)).extend ['\n']) (t ++ rest) :=
          scanFrom_keeps [] (fun word statement => piece?_space word statement rfl _) _ _
      _ = scanFrom functions (cur.behind ('/' :: '/' :: body ++ '\n' :: t))
            (run.extend ('/' :: '/' :: body ++ '\n' :: t)) rest := by
          rw [ih, ← Cursor.behind_append, ← Cursor.behind_append, ← Run.extend_append,
            ← Run.extend_append, List.singleton_append]

/-! ### Text in front of a run -/

theorem takeWhile_append_cons {α : Type} {f : α → Bool} {a : α} (ha : f a = false) (s t : List α) :
    (s ++ a :: t).takeWhile f = s.takeWhile f := by
  induction s with
  | nil => rw [List.nil_append, List.takeWhile_cons_of_neg (by simp [ha]), List.takeWhile_nil]
  | cons b s ih =>
    rw [List.cons_append, List.takeWhile_cons, List.takeWhile_cons, ih]

/-- The end of the run that belongs to a directive of some kind. -/
def Run.owned (run : Run) (kind : DirectiveKind) : Text :=
  match kind with
  | .imports _ => run.indent
  | _ => []

theorem Run.owned_isSuffix (run : Run) (kind : DirectiveKind) : run.owned kind <:+ run.text := by
  unfold owned
  split
  · exact run.indent_isSuffix
  · exact List.nil_suffix

theorem complete_eq_of_text {cur : Cursor} {run : Run} {c : Char} {found : Found} {u : Text}
    (hu : run.text = u ++ run.owned found.kind) :
    complete cur run c found =
      ({ run with text := u } : Run).flush ++
        [⟨found.kind, ⟨run.start.advance u,
            (run.start.advance u).advance (run.owned found.kind ++ c :: found.tail)⟩,
          run.owned found.kind ++ c :: found.tail, cur.scope⟩] := by
  have htake : run.text.take (run.text.length - (run.owned found.kind).length) = u := by
    rw [hu, List.length_append, Nat.add_sub_cancel, List.take_left]
  have hcomplete : complete cur run c found =
      let before : Run :=
        { run with text := run.text.take (run.text.length - (run.owned found.kind).length) }
      let raw := run.owned found.kind ++ c :: found.tail
      let start := before.start.advance before.text
      before.flush ++ [⟨found.kind, ⟨start, start.advance raw⟩, raw, cur.scope⟩] := rfl
  rw [hcomplete, htake]

/-- The run with text in front of it, from the start of the sheet. -/
def Run.behind (front : Text) (run : Run) : Run := ⟨front ++ run.text, .start 1, []⟩

/-- A run that begins where the text in front of it ends, which is behind a line end. -/
structure Opening (front : Text) (run : Run) : Prop where
  newline : front.getLast? = some '\n'
  start : run.start = .start 1
  scope : run.scope = []

section Opening

variable {front : Text} {run : Run} (h : Opening front run)
include h

theorem Opening.advance : (Location.start 1).advance front =
    run.start.moved front.utf8Size front.newlines := by
  rw [Location.advance_of_newline _ h.newline, h.start]
  rfl

theorem Opening.ne_nil : front ≠ [] := by
  rintro rfl
  cases h.newline

theorem Opening.indent : (run.behind front).indent = run.indent := by
  obtain ⟨u, hu⟩ := List.getLast?_eq_some_iff.1 h.newline
  have hline : (run.behind front).text.reverse.takeWhile (· != '\n') =
      run.text.reverse.takeWhile (· != '\n') := by
    rw [Run.behind, hu, List.reverse_append, List.reverse_concat]
    exact takeWhile_append_cons (by decide) _ _
  have hshort : (run.text.reverse.takeWhile (· != '\n')).length <
      (run.behind front).text.length := by
    have hle := (List.takeWhile_prefix (· != '\n') (l := run.text.reverse)).length_le
    rw [Run.behind, hu]
    simp only [List.length_reverse, List.length_append, List.length_singleton] at hle ⊢
    omega
  have hcolumn : run.start.column = 1 := by
    rw [h.start]
    rfl
  unfold Run.indent
  simp only [hline, List.length_reverse, hshort, hcolumn, true_or, or_true]

theorem Opening.flush : (run.behind front).flush =
    [⟨.plain, ⟨.start 1, (run.start.advance run.text).moved front.utf8Size front.newlines⟩,
      front ++ run.text, []⟩] := by
  have hne : (run.behind front).text ≠ [] := by simp [Run.behind, h.ne_nil]
  rw [Run.flush, if_neg hne, Run.behind, Location.advance_append, h.advance, Location.moved_advance]

/-- What is reported of the run and the directives behind it. -/
theorem Opening.flush_append {ds : List Directive}
    (hplain : ∀ d, ds.head? = some d → d.kind ≠ .plain) :
    (run.behind front).flush ++ ds =
      behind front ((run.flush.map (Directive.moved front.utf8Size front.newlines)) ++ ds) := by
  by_cases htext : run.text = []
  · have hnil : run.flush = [] := if_pos htext
    have hopening : (run.behind front).flush = [opening front] := by
      rw [h.flush, htext, opening, h.advance, List.append_nil]
      rfl
    rw [hopening, hnil]
    cases ds with
    | nil => rfl
    | cons d ds =>
      rw [List.map_nil, List.nil_append, behind, if_neg (hplain d rfl)]
      rfl
  · rw [h.flush, Run.flush, if_neg htext, h.scope]
    rfl

/-- What a directive completes, and the directives behind it. -/
theorem Opening.complete {cur cur' : Cursor}
    (hcur : Shifted front.utf8Size front.newlines cur cur') (c : Char) {found : Found}
    (hplain : found.kind ≠ .plain) (ds : List Directive) :
    complete cur' (run.behind front) c found ++ ds =
      behind front ((complete cur run c found).map
        (Directive.moved front.utf8Size front.newlines) ++ ds) := by
  obtain ⟨u, hu⟩ : ∃ u, run.text = u ++ run.owned found.kind := by
    obtain ⟨u, hu⟩ := run.owned_isSuffix found.kind
    exact ⟨u, hu.symm⟩
  have hcut : Opening front { run with text := u } := ⟨h.newline, h.start, h.scope⟩
  have howned : (run.behind front).owned found.kind = run.owned found.kind := by
    unfold Run.owned
    rw [h.indent]
  have hbehind : (run.behind front).text = front ++ u ++ (run.behind front).owned found.kind := by
    rw [howned, List.append_assoc, ← hu]
    rfl
  have hstart : (run.behind front).start.advance (front ++ u) =
      (run.start.advance u).moved front.utf8Size front.newlines := by
    rw [Location.advance_append, ← Location.moved_advance, ← h.advance]
    rfl
  rw [complete_eq_of_text hbehind, complete_eq_of_text hu, hstart, howned, hcur.scope,
    Location.moved_advance, List.map_append, List.append_assoc, List.append_assoc]
  exact hcut.flush_append fun d hd => by
    obtain rfl := Option.some.inj hd
    exact hplain

end Opening

/-- Behind text at the beginning, a scan reports that text first and goes on as it would. -/
theorem scanFrom_behind {front : Text} {cur cur' : Cursor} {run : Run} (h : Opening front run)
    (hcur : Shifted front.utf8Size front.newlines cur cur') (t : Text) :
    scanFrom functions cur' (run.behind front) t =
      ((scanFrom functions cur run t).moved front.utf8Size front.newlines).behind front := by
  fun_induction scanFrom functions cur run t generalizing cur' with
  | case1 cur run =>
    have hflush : (run.behind front).flush ++ [] = behind front
        (run.flush.map (Directive.moved front.utf8Size front.newlines) ++ []) :=
      h.flush_append (by simp)
    rw [List.append_nil, List.append_nil] at hflush
    rw [scanFrom, hflush]
    exact (if_neg (by simp [Outcome.moved])).symm
  | case2 cur run c t e he =>
    rw [scanFrom, recognize_moved hcur, he]
    rfl
  | case3 cur run c t found hfound next =>
    -- behind the first directive that is no run, nothing but places depends on what is in front
    obtain ⟨-, rest, -, hform⟩ := recognize_eq_some_iff.1 hfound
    have hnext := hcur.step c found.tail { cur.context with atStatement := found.atStatement }
    have hne : complete cur run c found ≠ [] := by
      obtain ⟨u, indent, span, -, hcomplete, -⟩ := complete_eq cur run c found
      simp [hcomplete]
    rw [scanFrom, recognize_moved hcur, hfound, hcur.context]
    simp only [Except.mapError]
    rw [hnext.fresh, scanFrom_moved hnext, ← Outcome.prepend_moved, Outcome.prepend,
      h.complete hcur c hform.kind_ne_plain, Outcome.behind, if_neg (by simp [Outcome.prepend, hne])]
    rfl
  | case4 cur run c t hnone e he =>
    rw [scanFrom, recognize_moved hcur, hnone, skip_moved hcur, he]
    rfl
  | case5 cur run c t hnone tail context hskip ih =>
    have hextend : Opening front (run.extend (c :: tail)) := ⟨h.newline, h.start, h.scope⟩
    have hbehind : (run.behind front).extend (c :: tail) =
        (run.extend (c :: tail)).behind front := by
      simp [Run.behind, Run.extend]
    rw [scanFrom, recognize_moved hcur, hnone, skip_moved hcur, hskip]
    simp only [Except.mapError]
    rw [hbehind]
    exact ih hextend (hcur.step c tail context)

/-- White space and comments in front of a sheet, up to a line end, come out in front of its first
run, or as a run of their own in front of another directive; everything else is moved. -/
theorem scan_preamble {p : Text} (h : Preamble p) (hend : p.getLast? = some '\n') (rest : Text) :
    scan functions (p ++ rest) =
      ((scan functions rest).moved p.utf8Size p.newlines).behind p := by
  have hopening : Opening p (.fresh (.start .sheet 1)) := ⟨hend, rfl, rfl⟩
  have hcursor : (Cursor.start .sheet 1).behind p =
      ⟨(Location.start 1).advance p, some '\n', (Cursor.start .sheet 1).context⟩ := by
    rw [Cursor.behind, hend]
    rfl
  have hrun : (Run.fresh (.start .sheet 1)).extend p = (Run.fresh (.start .sheet 1)).behind p := by
    simp [Run.extend, Run.behind, Run.fresh, Cursor.start, Cursor.scope]
  rw [scan, scanText, h.scanFrom_eq, hcursor, hrun]
  exact scanFrom_behind hopening (.of_newline hend) rest

/-- An import behind two comments still owns its line. -/
theorem scan_preamble_import :
    let p : Text := "/* @import 'a'; */".toList ++ ' ' :: ('/' :: '/' :: " \"".toList ++ ['\n'])
    let t : Text := "  @import \"b\";\n".toList
    Preamble p ∧ p.getLast? = some '\n' ∧
      scan .empty (p ++ t) = ((scan .empty t).moved p.utf8Size p.newlines).behind p ∧
      (scan .empty (p ++ t)).directives.map Directive.raw = [p, t] := by
  intro p t
  have hcomment : BlockComment "/* @import 'a'; */".toList :=
    ⟨" @import 'a'; ".toList, by decide, by decide⟩
  have hp : Preamble p := .block hcomment (.space rfl (.line (by decide) .nil))
  have hend : p.getLast? = some '\n' := by decide
  exact ⟨hp, hend, scan_preamble hp hend t, by decide +kernel⟩

end StylePrep.Scan
