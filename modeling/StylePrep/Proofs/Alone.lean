import StylePrep.Proofs.ImportLine

/-!
# Imports that stand alone

An import stands alone if there is nothing but blanks around it on its lines. A scan then
gives it these lines as a whole: the indentation in front of it is its own, whatever
directive came before, and so is the line end behind it, unless the text ends there.

The argument is about the directive in front. If it leaves its last line open, there is
something else than blanks on that line, or a brace comes next and no import can
(`Form.inked`). So a line that holds only blanks up to an import starts within the run of
plain text in front of the import, which is where the import looks for its indentation.
-/

namespace StylePrep

namespace Text

/-- Whether there is something else than blanks on the line that a text ends in. -/
def Inked (t : Text) : Prop := ∃ c ∈ lineAfter [] t, isBlank c = false

theorem lineAfter_of_not_mem {t : Text} (h : '\n' ∉ t) (line : Text) : lineAfter line t = line ++ t := by
  induction t generalizing line with
  | nil => simp
  | cons c t ih =>
    simp only [List.mem_cons, not_or] at h
    rw [← List.singleton_append, lineAfter_append, ih h.2]
    simp [lineAfter, Ne.symm h.1]

/-- What stands behind the last line feed stands on the last line. -/
theorem mem_lineAfter {x y : Text} {c : Char} (hc : c ≠ '\n') (hy : '\n' ∉ y) (line : Text) :
    c ∈ lineAfter line (x ++ c :: y) := by
  rw [List.append_cons, lineAfter_append, lineAfter_of_not_mem hy, lineAfter_concat, if_neg hc]
  simp

theorem inked_of_eq {t x y : Text} {c : Char} (ht : t = x ++ c :: y) (hc : c ≠ '\n')
    (hblank : isBlank c = false) (hy : '\n' ∉ y) : Inked t :=
  ⟨c, ht ▸ mem_lineAfter hc hy [], hblank⟩

theorem inked_of_getLast? {t : Text} {c : Char} (ht : t.getLast? = some c) (hc : c ≠ '\n')
    (hblank : isBlank c = false) : Inked t := by
  obtain ⟨x, hx⟩ := List.getLast?_eq_some_iff.1 ht
  exact inked_of_eq hx hc hblank (by simp)

/-- Ink stays on its line. -/
theorem Inked.append {t u : Text} (h : Inked t) (hu : '\n' ∉ u) : Inked (t ++ u) := by
  obtain ⟨c, hc, hblank⟩ := h
  refine ⟨c, ?_, hblank⟩
  rw [lineAfter_append, lineAfter_of_not_mem hu]
  exact List.mem_append_left u hc

/-- Ink does not depend on the text in front. -/
theorem Inked.append_left {t : Text} (h : Inked t) (u : Text) : Inked (u ++ t) := by
  obtain ⟨c, hc, hblank⟩ := h
  refine ⟨c, ?_, hblank⟩
  rw [lineAfter_append]
  rcases Nat.lt_or_eq_of_le (length_lineAfter_le t) with hlt | heq
  · rwa [lineAfter_of_length_lt hlt]
  · rw [lineAfter_of_length_eq heq]
    rw [lineAfter_of_length_eq heq] at hc
    simpa using .inr hc

/-- A line of blanks is clear if it starts where the text does, or within it. -/
theorem clearAfter_of_blank_line {line t : Text} {clear : Bool} (hstart : '\n' ∈ t ∨ clear = true)
    (h : ∀ c ∈ lineAfter line t, isBlank c = true) : clearAfter clear t = true := by
  induction t using List.reverseRecOn with
  | nil => simpa using hstart
  | append_singleton t c ih =>
    rw [clearAfter_concat]
    by_cases hc : c = '\n'
    · simp [hc]
    · rw [lineAfter_concat, if_neg hc] at h
      have hstart' : '\n' ∈ t ∨ clear = true := by simpa [Ne.symm hc] using hstart
      have hline := ih hstart' fun e he => h e (List.mem_append_left _ he)
      simp [hline, h c (by simp)]

end Text

namespace Scan

open Text Delimited

variable {functions : FunctionTable}

theorem Item.inked {target : Target} (h : Item target) : Inked target.spelling := by
  cases h with
  | @quoted quote body hquote hbody =>
    have hq : quote = '"' ∨ quote = '\'' := by simpa [isQuote] using hquote
    have hbody : Inked body := by
      rcases hq with rfl | rfl
      · exact inked_of_getLast? (stringTail_getLast? hbody) (by decide) (by decide)
      · exact inked_of_getLast? (stringTail_getLast? hbody) (by decide) (by decide)
    exact hbody.append_left [quote]
  | url hbody =>
    exact (inked_of_getLast? (bracketTail_getLast? hbody) (by decide) (by decide)).append_left _

theorem not_mem_of_blank {t : Text} (h : ∀ c ∈ t, isBlank c = true) : '\n' ∉ t :=
  fun hmem => absurd (h '\n' hmem) (by decide)

theorem ItemList.inked {items : Targets} {rest : Text} (h : ItemList items rest) :
    Inked items.spelling := by
  induction h with
  | comma _ _ _ _ ih => exact (ih.append_left [',']).append_left _
  | semicolon =>
    have hmark : Inked [';'] := inked_of_getLast? rfl (by decide) (by decide)
    exact hmark.append_left _
  | bare _ hitem hblank => exact (hitem.inked.append_left _).append (not_mem_of_blank hblank)

theorem Statement.getLast?_stop {depth : Nat} {body stop rest : Text}
    (h : Statement depth body stop rest) :
    stop = [';'] ∨ (stop = [] ∧ ∀ c, rest.head? = some c → c = '{' ∨ c = '}') := by
  induction h with
  | atEnd => exact .inr ⟨rfl, by simp⟩
  | semicolon => exact .inl rfl
  | brace rest hc => exact .inr ⟨rfl, by simpa using hc⟩
  | string _ _ _ ih => exact ih
  | comment _ _ ih => exact ih
  | interpolation _ _ ih => exact ih
  | char _ _ _ _ _ _ ih => exact ih

/-- A directive ends its line, or leaves something on it, or a brace comes next. -/
theorem Form.inked {c : Char} {found : Found} {rest : Text} (h : Form functions c found rest) :
    (c :: found.tail).getLast? = some '\n' ∨ Inked (c :: found.tail) ∨
      ∀ e, rest.head? = some e → e = '{' ∨ e = '}' := by
  cases h with
  | @imports items blank lineEnd rest _ hitems _ hblank hend =>
    cases hend with
    | taken => exact .inl (by simp [List.getLast?_cons, List.getLast?_append])
    | absent hstops =>
      refine .inr (.inl ?_)
      have htrailing : '\n' ∉ blank := fun hmem => absurd (hblank '\n' hmem) (by decide)
      have hink := ((hitems.inked.append_left ('@' :: "import".toList)).append htrailing)
      simpa using hink
  | @assign name space gap body stop rest _ _ _ _ _ hstatement =>
    rcases hstatement.getLast?_stop with rfl | ⟨rfl, hrest⟩
    · have hmark : Inked [';'] := inked_of_getLast? rfl (by decide) (by decide)
      exact .inr (.inl (hmark.append_left ('$' :: (name ++ space ++ ':' :: gap ++ body))))
    · exact .inr (.inr hrest)
  | @call c word body kind rest _ _ hbody =>
    have hclose : Inked body := inked_of_getLast? (bracketTail_getLast? hbody) (by decide) (by decide)
    have hcall := hclose.append_left (c :: (word ++ ['(']))
    exact .inr (.inl (by simpa using hcall))

/-- An import takes the line end, or something else stands behind it on its line. -/
theorem Form.lineEnd {c : Char} {found : Found} {rest : Text} {targets : List Text}
    (h : Form functions c found rest) (hkind : found.kind = .imports targets) :
    (c :: found.tail).getLast? = some '\n' ∨ Stops (fun c => isTrailing c || c == '\n') rest := by
  obtain ⟨rfl, -⟩ := h.eq_of_imports hkind
  cases h with
  | imports _ _ _ _ hend =>
    cases hend with
    | taken => exact .inl (by simp [List.getLast?_cons, List.getLast?_append])
    | absent hstops => exact .inr hstops
  | call _ hc => exact absurd hc (by decide)

/-- A scan that has collected `run` behind the text `front`, and `s` comes next. If `front`
leaves a line open on which there are only blanks so far, a brace comes next. -/
structure Settled (front : Text) (cur : Cursor) (run : Run) (s : Text) : Prop where
  start : run.start.column = (lineAfter [] front).length + 1
  place : cur.place = run.start.advance run.text
  line : lineAfter [] front = [] ∨ '\n' ∈ run.text ∨ Inked (front ++ run.text) ∨
    ∀ c, s.head? = some c → c = '{' ∨ c = '}'

namespace Settled

variable {front s : Text} {cur : Cursor} {run : Run}

theorem initial (s : Text) : Settled [] (.start .sheet 1) (.fresh (.start .sheet 1)) s :=
  ⟨rfl, rfl, .inl rfl⟩

theorem token {c : Char} {tail : Text} (h : Settled front cur run (c :: (tail ++ s)))
    (context : Context) : Settled front (cur.step c tail context) (run.extend (c :: tail)) s where
  start := h.start
  place := by
    simp only [Run.extend, Location.advance_append, ← h.place]
    rfl
  line := by
    by_cases hmem : '\n' ∈ c :: tail
    · exact .inr (.inl (List.mem_append_right _ hmem))
    · rcases h.line with hfront | hrun | hink | hbrace
      · exact .inl hfront
      · exact .inr (.inl (List.mem_append_left _ hrun))
      · refine .inr (.inr (.inl ?_))
        simpa [Run.extend] using hink.append hmem
      · refine .inr (.inr (.inl ?_))
        have hc : c ≠ '\n' ∧ isBlank c = false := by
          rcases hbrace c rfl with rfl | rfl <;> decide
        have htail : '\n' ∉ tail := fun h => hmem (List.mem_cons_of_mem c h)
        exact inked_of_eq (List.append_assoc front run.text (c :: tail)).symm hc.1 hc.2 htail

theorem act {c : Char} {found : Found} (h : Settled front cur run (c :: (found.tail ++ s)))
    (hform : Form functions c found s) (context : Context) :
    Settled (front ++ run.text ++ c :: found.tail) (cur.step c found.tail context)
      (.fresh (cur.step c found.tail context)) s where
  start := by
    have hcolumn := Location.column_advance _ h.start (run.text ++ c :: found.tail)
    rw [← lineAfter_append, Location.advance_append, ← h.place, ← List.append_assoc] at hcolumn
    exact hcolumn
  place := rfl
  line := by
    rcases hform.inked with hend | hink | hbrace
    · exact .inl (lineAfter_eq_nil (by simp [List.getLast?_append, hend]) [])
    · refine .inr (.inr (.inl ?_))
      simpa [Run.fresh] using hink.append_left (front ++ run.text)
    · exact .inr (.inr (.inr hbrace))

theorem walk {u : Text} {word statement word' statement' : Bool} {ps : List Piece}
    (hwalk : Walk functions s word statement u ps word' statement') {ds : List Directive}
    {cur' : Cursor} {run' : Run} (htrail : trail cur run ps = some (ds, cur', run'))
    (h : Settled front cur run (u ++ s)) : Settled (front ++ Directive.texts ds) cur' run' s := by
  induction hwalk generalizing front cur run ds with
  | done =>
    cases htrail
    simpa using h
  | @step _ _ _ _ c tail u p ps hp htext _ ih =>
    rw [List.cons_append, List.append_assoc] at h
    cases p with
    | act e found =>
      obtain ⟨rfl, rfl⟩ := List.cons.inj htext
      obtain ⟨⟨ds', cur'', run''⟩, htrail, heq⟩ := Option.map_eq_some_iff.1 htrail
      cases heq
      obtain ⟨-, rest, hrest, hform⟩ := recognize_eq_some_iff.1 (piece?_eq_act_iff.1 hp).2
      obtain rfl := List.append_cancel_left hrest
      have hnext := ih htrail (h.act hform _)
      rwa [Directive.texts_append, texts_complete, ← List.append_assoc, ← List.append_assoc]
    | token e tail' effect =>
      obtain ⟨rfl, rfl⟩ := List.cons.inj htext
      obtain ⟨context, hcontext, htrail⟩ := Option.bind_eq_some_iff.1 htrail
      exact ih htrail (h.token context)

/-- An import owns the blanks in front of it if there is nothing else on its line. -/
theorem lineAfter_eq_nil {v t : Text} (h : Settled front cur run ('@' :: t))
    (hrun : run.text = v ++ run.indent) (hblank : ∀ c ∈ lineAfter [] (front ++ v), isBlank c = true) :
    lineAfter [] (front ++ v) = [] := by
  have hindent : ∀ c ∈ run.indent, isBlank c = true := fun c => Run.isBlank_of_mem_indent
  have hline : lineAfter (lineAfter [] front) run.text = lineAfter [] (front ++ v) ++ run.indent := by
    rw [← lineAfter_append, hrun, ← List.append_assoc, lineAfter_append,
      lineAfter_of_not_mem (not_mem_of_blank hindent)]
  have hall : ∀ c ∈ lineAfter (lineAfter [] front) run.text, isBlank c = true := by
    intro c hc
    rw [hline] at hc
    rcases List.mem_append.1 hc with hc | hc
    · exact hblank c hc
    · exact hindent c hc
  have hclear : clearAfter (decide (run.start.column = 1)) run.text = true := by
    refine clearAfter_of_blank_line ?_ hall
    rcases h.line with hfront | hnewline | ⟨c, hc, hink⟩ | hbrace
    · exact .inr (by simp [h.start, hfront])
    · exact .inl hnewline
    · rw [lineAfter_append] at hc
      simp [hall c hc] at hink
    · rcases hbrace '@' rfl with hat | hat <;> cases hat
  have hown := Run.indent_eq h.start
  rw [if_pos hclear, hline] at hown
  exact List.append_left_eq_self.1 hown.symm

end Settled

variable {t : Text} {ds ds' : List Directive} {d : Directive} {targets : List Text}

/-- Where a scan stands at an import: `v` is plain text in front of the indentation. -/
structure Imported (functions : FunctionTable) (t : Text) (ds : List Directive) (d : Directive)
    (front v : Text) (cur : Cursor) (run : Run) (found : Found) (rest : Text) : Prop where
  settled : Settled front cur run ('@' :: (found.tail ++ rest))
  collected : run.text = v ++ run.indent
  before : Directive.texts ds = front ++ v
  raw : d.raw = run.indent ++ '@' :: found.tail
  text : t = Directive.texts ds ++ d.raw ++ rest
  form : Form functions '@' found rest
  kind : found.kind = d.kind

theorem exists_imported (h : (scan functions t).directives = ds ++ d :: ds')
    (hkind : d.kind = .imports targets) :
    ∃ front v cur run found rest, Imported functions t ds d front v cur run found rest := by
  have hplain : d.kind ≠ .plain := by simp [hkind]
  obtain ⟨u, ps, cur, run, c, found, rest, hr⟩ := exists_reached h hplain
  obtain ⟨ds₀, v, indent, hreports⟩ := hr.reports
  obtain rfl := hreports.imports targets hkind
  obtain ⟨rfl, -⟩ := hreports.form.eq_of_imports (hreports.kind ▸ hkind)
  have hbefore : Directive.texts ds ++ run.indent = u := hreports.before
  have hfront : Directive.texts ds = Directive.texts ds₀ ++ v := by
    rw [hreports.front, Directive.texts_append, Run.texts_flush]
  refine ⟨_, v, cur, run, found, rest, Settled.walk hr.walk hreports.trail (.initial _),
    hreports.collected, hfront, hreports.raw, ?_, hreports.form, hreports.kind.symm⟩
  rw [hr.text, hreports.raw, ← hbefore]
  simp

/-- An import in front of which there are only blanks on the line starts with the line. -/
theorem lineStart_of_blank (h : (scan functions t).directives = ds ++ d :: ds')
    (hkind : d.kind = .imports targets)
    (hblank : ∀ c ∈ lineAfter [] (Directive.texts ds), isBlank c = true) :
    lineAfter [] (Directive.texts ds) = [] := by
  obtain ⟨front, v, cur, run, found, rest, himported⟩ := exists_imported h hkind
  rw [himported.before] at hblank ⊢
  exact himported.settled.lineAfter_eq_nil himported.collected hblank

/-- An import behind which there are only blanks on the line ends the line, or the text. -/
theorem lineEnd_of_blank (h : (scan functions t).directives = ds ++ d :: ds')
    (herror : (scan functions t).error? = none) (hkind : d.kind = .imports targets)
    (hblank : ∀ c ∈ (Directive.texts ds').takeWhile (· != '\n'), isBlank c = true) :
    d.raw.getLast? = some '\n' ∨ Directive.texts ds' = [] := by
  obtain ⟨front, v, cur, run, found, rest, himported⟩ := exists_imported h hkind
  have hrest : Directive.texts ds' = rest := by
    have hwhole := texts_scan herror
    rw [h, himported.text, Directive.texts_append, Directive.texts_cons, List.append_assoc] at hwhole
    exact List.append_cancel_left (List.append_cancel_left hwhole)
  rw [hrest] at hblank ⊢
  rcases himported.form.lineEnd (himported.kind.trans hkind) with hend | hstops
  · exact .inl (by rw [himported.raw, List.getLast?_append, hend, Option.some_or])
  · cases rest with
    | nil => exact .inr rfl
    | cons c rest =>
      have hc : (isTrailing c || c == '\n') = false := hstops c rfl
      simp only [isTrailing, Bool.or_eq_false_iff, beq_eq_false_iff_ne] at hc
      have hmem : c ∈ (c :: rest).takeWhile (· != '\n') := by simp [hc.2]
      exact absurd (hblank c hmem) (by simp [hc.1.1])

end Scan

end StylePrep
