import StylePrep.Proofs.Tokens

/-!
# Directives cover the text

The directives of a scan lie one behind the other, from the first character on:
their texts in order are a front part of the text scanned, and the whole of it if
the scan ends without an error. Each directive starts where the one before it
ends, so its line is the number of line feeds in front of it, counted from 1.

Both facts come from one invariant of the scan. The run of plain text ends at the
cursor, and an import takes its indentation from the end of that run, so nothing
is lost when a directive is completed.
-/

namespace StylePrep

namespace Directive

def texts (ds : List Directive) : Text := (ds.map raw).flatten

@[simp] theorem texts_nil : texts [] = [] := rfl

@[simp] theorem texts_cons (d : Directive) (ds : List Directive) :
    texts (d :: ds) = d.raw ++ texts ds := rfl

@[simp] theorem texts_append (ds ds' : List Directive) :
    texts (ds ++ ds') = texts ds ++ texts ds' := by
  simp [texts]

/-- Directives that lie one behind the other from a place on. -/
def Placed : Location → List Directive → Prop
  | _, [] => True
  | place, d :: ds => d.span.start = place ∧ Placed (place.advance d.raw) ds

theorem placed_append {place : Location} {ds ds' : List Directive} :
    Placed place (ds ++ ds') ↔ Placed place ds ∧ Placed (place.advance (texts ds)) ds' := by
  induction ds generalizing place with
  | nil => simp [Placed]
  | cons d ds ih => simp [Placed, ih, and_assoc]

/-- The line of a directive follows from the text in front of it. -/
theorem Placed.line_eq {place : Location} {ds ds' : List Directive} {d : Directive}
    (h : Placed place (ds ++ d :: ds')) : d.line = place.line + (texts ds).newlines := by
  obtain ⟨-, hstart, -⟩ := placed_append.1 h
  rw [line, hstart, Location.advance_line]

end Directive

namespace Scan

open Text Delimited Directive

variable {functions : FunctionTable}

/-! ### What one step takes -/

theorem splitFlags_isPrefix (t : Text) : (splitFlags t).1 <+: t := by
  fun_induction splitFlags t with
  | case1 t rest hd _ value flags hrest ih =>
    rw [hrest] at ih
    have hrest : rest <+: trimEnd t := ⟨_, (before?_eq_some_iff.1 hd).symm⟩
    exact ih.trans (hrest.trans (trimEnd_isPrefix t))
  | case2 t _ rest hg _ value flags hrest ih =>
    rw [hrest] at ih
    have hrest : rest <+: trimEnd t := ⟨_, (before?_eq_some_iff.1 hg).symm⟩
    exact ih.trans (hrest.trans (trimEnd_isPrefix t))
  | case3 t => exact trimEnd_isPrefix t

/-- The value of an assignment and the text around it make up the whole. -/
theorem Form.assign_text {c : Char} {found : Found} {rest : Text} (h : Form functions c found rest)
    {name lead value tail : Text} {flags : AssignFlags}
    (hkind : found.kind = .assign name lead value tail flags) :
    c :: found.tail = lead ++ value ++ tail := by
  cases h with
  | imports => cases hkind
  | @assign name space gap body stop =>
    have hbody : (splitFlags body).1 ++ (body.drop (splitFlags body).1.length ++ stop) =
        body ++ stop := by
      rw [← List.append_assoc, List.prefix_iff_eq_append.1 (splitFlags_isPrefix body)]
    simp only [assignment] at hkind
    split at hkind
    · split at hkind
      · cases hkind
      · cases hkind
        simp [hbody]
    · cases hkind
      simp [hbody]
  | call _ _ _ _ hcall =>
    simp only at hkind
    subst hkind
    unfold callKind? at hcall
    split at hcall
    · cases hcall
    · cases hcall
    · split at hcall <;> cases hcall

/-! ### What a whole scan takes -/

theorem Run.indent_isSuffix (run : Run) : run.indent <:+ run.text := by
  unfold Run.indent
  simp only
  split
  · have h := (List.takeWhile_prefix (· != '\n') (l := run.text.reverse))
    simpa using List.reverse_suffix.2 h
  · exact List.nil_suffix

/-- The run that ends in front of the indentation, and the indentation. -/
theorem Run.take_append_indent (run : Run) :
    run.text.take (run.text.length - run.indent.length) ++ run.indent = run.text := by
  obtain ⟨u, hu⟩ := run.indent_isSuffix
  have hlen := congrArg List.length hu
  rw [List.length_append] at hlen
  have htake : run.text.take (run.text.length - run.indent.length) = u := by
    rw [← hu]
    exact List.take_left' (by simp)
  rw [htake, hu]

theorem Run.texts_flush (run : Run) : texts run.flush = run.text := by
  unfold Run.flush
  split
  case isTrue h => simp [h]
  case isFalse => simp

theorem Run.placed_flush {run : Run} {place : Location} (h : run.start = place) :
    Placed place run.flush := by
  unfold Run.flush
  split
  · trivial
  · exact ⟨h, trivial⟩

/-- What a directive completes: the run in front of the indentation that it owns, which
only an import does, and itself. -/
theorem complete_eq (cur : Cursor) (run : Run) (c : Char) (found : Found) :
    ∃ u indent span, run.text = u ++ indent ∧
      complete cur run c found = ({ run with text := u } : Run).flush ++
        [⟨found.kind, span, indent ++ c :: found.tail, cur.scope⟩] ∧
      (∀ targets, found.kind = .imports targets → indent = run.indent) ∧
      ((∀ targets, found.kind ≠ .imports targets) → indent = []) := by
  unfold complete
  cases hkind : found.kind with
  | imports targets =>
    exact ⟨_, _, _, run.take_append_indent.symm, rfl, fun _ _ => rfl, fun h => absurd rfl (h targets)⟩
  | _ => exact ⟨run.text, [], _, by simp, by simp; rfl, by simp, fun _ => rfl⟩

theorem texts_complete (cur : Cursor) (run : Run) (c : Char) (found : Found) :
    texts (complete cur run c found) = run.text ++ c :: found.tail := by
  unfold complete
  simp only [texts_append, Run.texts_flush, texts_cons, texts_nil, List.append_nil]
  split
  · rw [← List.append_assoc, Run.take_append_indent]
  · simp

theorem placed_complete (cur : Cursor) (run : Run) (c : Char) (found : Found) :
    Placed run.start (complete cur run c found) := by
  unfold complete
  refine placed_append.2 ⟨Run.placed_flush rfl, ?_, trivial⟩
  rw [Run.texts_flush]

/-- The parts of an assignment make up its text. -/
def Spelled (d : Directive) : Prop :=
  ∀ {name lead value tail : Text} {flags : AssignFlags},
    d.kind = .assign name lead value tail flags → d.raw = lead ++ value ++ tail

theorem Run.spelled_flush (run : Run) : ∀ d ∈ run.flush, Spelled d := by
  intro d hd
  unfold Run.flush at hd
  split at hd
  · cases hd
  · obtain rfl := List.mem_singleton.1 hd
    intro _ _ _ _ _ hkind
    cases hkind

theorem spelled_complete {cur : Cursor} {run : Run} {c : Char} {found : Found} {rest : Text}
    (h : Form functions c found rest) : ∀ d ∈ complete cur run c found, Spelled d := by
  intro d hd
  rcases List.mem_append.1 hd with hd | hd
  · exact Run.spelled_flush _ d hd
  · obtain rfl := List.mem_singleton.1 hd
    intro name lead value tail flags hkind
    simp only at hkind
    simp only [hkind, List.nil_append]
    exact h.assign_text hkind

/-- The directives of a scan cover the text from the start of the run on, one
behind the other; if no error ends the scan, they cover all of it. -/
theorem scanFrom_cover {cur : Cursor} {run : Run} {t : Text}
    (hplace : cur.place = run.start.advance run.text) :
    Placed run.start (scanFrom functions cur run t).directives ∧
      (∀ d ∈ (scanFrom functions cur run t).directives, Spelled d) ∧
      ∃ rest, run.text ++ t = texts (scanFrom functions cur run t).directives ++ rest ∧
        ((scanFrom functions cur run t).error? = none → rest = []) := by
  fun_induction scanFrom functions cur run t with
  | case1 cur run =>
    refine ⟨Run.placed_flush rfl, run.spelled_flush, [], ?_, fun _ => rfl⟩
    simp [Run.texts_flush]
  | case2 cur run c t e h =>
    refine ⟨trivial, fun d hd => absurd hd List.not_mem_nil, run.text ++ c :: t, rfl, ?_⟩
    intro herror
    cases herror
  | case3 cur run c t found h next ih =>
    obtain ⟨-, rest, rfl, hform⟩ := recognize_eq_some_iff.1 h
    rw [List.drop_left] at ih ⊢
    obtain ⟨hplaced, hspelled, rest', hrest, herror⟩ := ih rfl
    have hnext : next.place = run.start.advance (run.text ++ c :: found.tail) := by
      rw [Location.advance_append, ← hplace]
      rfl
    refine ⟨placed_append.2 ⟨placed_complete cur run c found, ?_⟩, ?_, rest', ?_, herror⟩
    · rw [texts_complete, ← hnext]
      exact hplaced
    · intro d hd
      rcases List.mem_append.1 hd with hd | hd
      · exact spelled_complete hform d hd
      · exact hspelled d hd
    · have hall : rest = texts (scanFrom functions next (.fresh next) rest).directives ++ rest' := by
        simpa [Run.fresh] using hrest
      simp only [Outcome.prepend, texts_append, texts_complete, List.append_assoc, List.cons_append]
      rw [← hall]
  | case4 cur run c t h e he =>
    refine ⟨trivial, fun d hd => absurd hd List.not_mem_nil, run.text ++ c :: t, rfl, ?_⟩
    intro herror
    cases herror
  | case5 cur run c t h tail context hskip ih =>
    obtain ⟨effect, htoken, -⟩ := skip_eq_ok_iff.1 hskip
    obtain ⟨rest, rfl, -⟩ := token?_eq_some_iff.1 htoken
    rw [List.drop_left] at ih ⊢
    have hnext : (cur.step c tail context).place =
        (run.extend (c :: tail)).start.advance (run.extend (c :: tail)).text := by
      simp only [Run.extend, Location.advance_append, ← hplace]
      rfl
    obtain ⟨hplaced, hspelled, rest', hrest, herror⟩ := ih hnext
    refine ⟨hplaced, hspelled, rest', ?_, herror⟩
    simpa [Run.extend] using hrest

/-- A directive of a scan is a plain run, or it is spelled as its form says, behind the
indentation that it owns. -/
theorem form_of_mem_scanFrom {cur : Cursor} {run : Run} {t : Text} {d : Directive}
    (hd : d ∈ (scanFrom functions cur run t).directives) :
    d.kind = .plain ∨ ∃ c found rest indent, Form functions c found rest ∧ d.kind = found.kind ∧
      d.raw = indent ++ c :: found.tail := by
  have hflush {run : Run} (hd : d ∈ run.flush) : d.kind = .plain := by
    unfold Run.flush at hd
    split at hd
    · cases hd
    · rw [List.mem_singleton.1 hd]
  fun_induction scanFrom functions cur run t with
  | case1 cur run => exact .inl (hflush hd)
  | case2 => cases hd
  | case3 cur run c t found h next ih =>
    obtain ⟨-, rest, -, hform⟩ := recognize_eq_some_iff.1 h
    obtain ⟨u, indent, span, -, hcomplete, -⟩ := complete_eq cur run c found
    rw [Outcome.prepend, hcomplete, List.append_assoc, List.mem_append, List.mem_append] at hd
    rcases hd with hd | hd | hd
    · exact .inl (hflush hd)
    · obtain rfl := List.mem_singleton.1 hd
      exact .inr ⟨c, found, rest, indent, hform, rfl, rfl⟩
    · exact ih hd
  | case4 => cases hd
  | case5 cur run c t h tail context hskip ih => exact ih hd

/-- What a style sheet is made of. -/
theorem scan_cover (functions : FunctionTable) (t : Text) :
    Placed (.start 1) (scan functions t).directives ∧
      (∀ d ∈ (scan functions t).directives, Spelled d) ∧
      texts (scan functions t).directives <+: t := by
  obtain ⟨hplaced, hspelled, rest, hrest, -⟩ :=
    @scanFrom_cover functions (Cursor.start .sheet 1) (.fresh (Cursor.start .sheet 1)) t rfl
  exact ⟨hplaced, hspelled, rest, hrest.symm⟩

/-- The line of a directive, from the directives in front of it. -/
theorem line_of_scan {t : Text} {ds ds' : List Directive} {d : Directive}
    (h : (scan functions t).directives = ds ++ d :: ds') : d.line = 1 + (texts ds).newlines :=
  (h ▸ (scan_cover functions t).1).line_eq

/-- All that stands behind a directive is below the lines that it ends. -/
theorem line_le_of_scan {t : Text} {ds ds' : List Directive} {d e : Directive}
    (h : (scan functions t).directives = ds ++ d :: ds') (he : e ∈ ds') :
    d.line + d.raw.newlines ≤ e.line := by
  obtain ⟨ds₁, ds₂, rfl⟩ := List.append_of_mem he
  have hbehind : e.line = 1 + (texts (ds ++ d :: ds₁)).newlines :=
    line_of_scan (by rw [h, List.append_assoc, List.cons_append])
  rw [hbehind, line_of_scan h, texts_append, texts_cons, newlines_append, newlines_append]
  omega

/-- A directive stands behind the directives in front of it, whatever line the text starts on. -/
theorem stands_of_scanText {mode : Mode} {first : Nat} {t : Text} {ds ds' : List Directive}
    {d : Directive} (h : (scanText functions mode first t).directives = ds ++ d :: ds') :
    texts ds ++ d.raw <+: t ∧ d.line = first + (texts ds).newlines := by
  obtain ⟨hplaced, -, rest, hrest, -⟩ :=
    @scanFrom_cover functions (Cursor.start mode first) (.fresh (Cursor.start mode first)) t rfl
  change t = texts (scanText functions mode first t).directives ++ rest at hrest
  change Placed (.start first) (scanText functions mode first t).directives at hplaced
  rw [h] at hplaced hrest
  exact ⟨⟨texts ds' ++ rest, by rw [hrest]; simp⟩, hplaced.line_eq⟩

/-- A scan without an error leaves no text out. -/
theorem texts_scan {t : Text} (h : (scan functions t).error? = none) :
    texts (scan functions t).directives = t := by
  obtain ⟨-, -, rest, hrest, herror⟩ :=
    @scanFrom_cover functions (Cursor.start .sheet 1) (.fresh (Cursor.start .sheet 1)) t rfl
  rw [herror h, List.append_nil] at hrest
  exact hrest.symm

end Scan

end StylePrep
