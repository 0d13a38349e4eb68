import StylePrep.Proofs.Faults
import StylePrep.Proofs.Partition
import StylePrep.Proofs.Rows
import StylePrep.Proofs.Sample
import StylePrep.Proofs.Search

/-!
# Line ends

The lines of a file end in `\r\n` or in `\n`, and what is read of it has `\n` in both cases. Only
the carriage return right in front of a line feed goes: one that stands alone stays, and so does
the first one of `\r\r\n`.

Reading works along the text, two characters at a time, and so it goes line by line
(`lines_normalizeNewlines`): no line feed is dropped, so none of the lines is joined to another
one. Wherever what is read is cut in two, the file can be cut so that the parts are read as these
two (`exists_of_normalizeNewlines_eq_append`). The line feeds in front of a place are as many in
the file as in what is read of it, so a line number that is counted in one is a line number of the
other, that of a directive and that of an error included (`Text.KeepsLines`).
-/

namespace StylePrep

namespace Text

variable {t line : Text}

/-! ### Lines one character at a time -/

/-- The first line starts with what the text starts with. -/
theorem head?_headD_lines (t : Text) : ((lines t).headD []).head? = t.head? := by
  cases t with
  | nil => rfl
  | cons c t =>
    by_cases hc : c = '\n'
    · rw [lines, if_pos hc, hc]
      rfl
    · rw [lines_cons hc]
      rfl

/-- A line feed is the last character of its line. -/
theorem feed_last_of_mem_lines {front back : Text} (h : front ++ '\n' :: back ∈ lines t) :
    '\n' ∉ front ∧ back = [] := by
  induction t generalizing front with
  | nil => exact absurd h List.not_mem_nil
  | cons c t ih =>
    by_cases hc : c = '\n'
    · rw [lines, if_pos hc] at h
      rcases List.mem_cons.1 h with hline | h
      · cases front with
        | nil => exact ⟨List.not_mem_nil, (List.cons.inj hline).2⟩
        | cons d front => exact absurd (List.cons.inj hline).2 (by simp)
      · exact ih h
    · rw [lines_cons hc] at h
      rcases List.mem_cons.1 h with hline | h
      · cases front with
        | nil => exact absurd (List.cons.inj hline).1.symm hc
        | cons d front =>
          obtain ⟨rfl, hrest⟩ := List.cons.inj hline
          have hfirst : front ++ '\n' :: back = (lines t).headD [] := hrest
          have hmem : front ++ '\n' :: back ∈ lines t := by
            rw [hfirst]
            cases hlines : lines t with
            | nil => simp [hlines] at hfirst
            | cons first others => exact List.mem_cons_self
          obtain ⟨hfront, hback⟩ := ih hmem
          exact ⟨List.not_mem_cons_of_ne_of_not_mem (Ne.symm hc) hfront, hback⟩
      · exact ih (List.mem_of_mem_tail h)

/-! ### Reading -/

/-- A character stays unless it is the carriage return in front of a line feed. -/
theorem normalizeNewlines_cons {c : Char} (h : c = '\r' → t.head? ≠ some '\n') :
    normalizeNewlines (c :: t) = c :: normalizeNewlines t := by
  rw [normalizeNewlines]
  rintro rest rfl rfl
  exact h rfl rfl

theorem head?_ne_of_no_pair {c : Char} (h : ∀ rest, c = '\r' → t = '\n' :: rest → False)
    (hc : c = '\r') : t.head? ≠ some '\n' := by
  intro hhead
  obtain ⟨rest, rfl⟩ := List.head?_eq_some_iff.1 hhead
  exact h rest hc rfl

/-- A text that starts with no line feed is read behind another one as it is read alone. -/
theorem normalizeNewlines_append {s : Text} (h : t.head? ≠ some '\n') :
    normalizeNewlines (s ++ t) = normalizeNewlines s ++ normalizeNewlines t := by
  fun_induction normalizeNewlines s with
  | case1 => rfl
  | case2 s ih => exact congrArg ('\n' :: ·) ih
  | case3 c s hpair ih =>
    rw [List.cons_append, List.cons_append, ← ih]
    refine normalizeNewlines_cons fun hc => ?_
    cases s with
    | nil => exact h
    | cons d s => exact show (d :: s).head? ≠ some '\n' from head?_ne_of_no_pair hpair hc

/-- No line feed is dropped. -/
theorem newlines_normalizeNewlines (t : Text) : newlines (normalizeNewlines t) = newlines t := by
  fun_induction normalizeNewlines t with
  | case1 => rfl
  | case2 t ih => simp [ih]
  | case3 c t _ ih => simp [ih]

/-- A text without a carriage return in front of a line feed is read as it is. -/
theorem normalizeNewlines_eq_self (h : ¬ "\r\n".toList <:+: t) : normalizeNewlines t = t := by
  fun_induction normalizeNewlines t with
  | case1 => rfl
  | case2 t => exact absurd (List.prefix_append "\r\n".toList t).isInfix h
  | case3 c t _ ih => exact congrArg (c :: ·) (ih fun hrest => h (hrest.trans (List.suffix_cons c t).isInfix))

/-- Reading goes line by line. -/
theorem lines_normalizeNewlines (t : Text) :
    lines (normalizeNewlines t) = (lines t).map normalizeNewlines := by
  fun_induction normalizeNewlines t with
  | case1 => rfl
  | case2 t ih =>
    have hpair : lines ('\r' :: '\n' :: t) = "\r\n".toList :: lines t := lines_cons (by decide) _
    have hfeed (t : Text) : lines ('\n' :: t) = ['\n'] :: lines t := rfl
    rw [hpair, hfeed, ih]
    rfl
  | case3 c t hpair ih =>
    by_cases hc : c = '\n'
    · rw [lines, lines, if_pos hc, if_pos hc, ih]
      rfl
    · have hfirst : normalizeNewlines (c :: (lines t).headD []) =
          c :: normalizeNewlines ((lines t).headD []) := by
        refine normalizeNewlines_cons fun hreturn => ?_
        rw [head?_headD_lines]
        exact head?_ne_of_no_pair hpair hreturn
      rw [lines_cons hc, lines_cons hc, ih, List.map_cons, hfirst, List.map_tail]
      cases lines t <;> rfl

/-- A line with a carriage return in front of its line feed. -/
theorem normalizeNewlines_returned (h : line ++ "\r\n".toList ∈ lines t) :
    normalizeNewlines (line ++ "\r\n".toList) = line ++ ['\n'] := by
  have hmem : line ++ ['\r'] ++ '\n' :: [] ∈ lines t := by simpa using h
  obtain ⟨hfront, -⟩ := feed_last_of_mem_lines hmem
  have hline : normalizeNewlines line = line := by
    refine normalizeNewlines_eq_self fun hpair => hfront ?_
    exact List.mem_append_left _ (hpair.subset (by decide))
  rw [normalizeNewlines_append (by decide), hline]
  rfl

/-- A line without. -/
theorem normalizeNewlines_other (h : line ∈ lines t) (hline : ¬ "\r\n".toList <:+ line) :
    normalizeNewlines line = line := by
  refine normalizeNewlines_eq_self fun ⟨front, back, heq⟩ => hline ⟨front, ?_⟩
  have hcut : front ++ ['\r'] ++ '\n' :: back = line := by simpa using heq
  obtain ⟨-, rfl⟩ := feed_last_of_mem_lines (hcut ▸ h)
  simpa using heq

theorem getElem?_lines_normalizeNewlines (t : Text) (k : Nat) :
    (lines (normalizeNewlines t))[k]? = (lines t)[k]?.map normalizeNewlines := by
  rw [lines_normalizeNewlines, List.getElem?_map]

/-- What is read of a text can only be cut where the text can be cut. -/
theorem exists_of_normalizeNewlines_eq_append {before after : Text}
    (h : normalizeNewlines t = before ++ after) :
    ∃ s u, t = s ++ u ∧ normalizeNewlines s = before ∧ normalizeNewlines u = after := by
  induction before generalizing t with
  | nil => exact ⟨[], t, rfl, rfl, h⟩
  | cons d before ih =>
    fun_cases normalizeNewlines t with
    | case1 => cases h
    | case2 t =>
      obtain ⟨rfl, hrest⟩ := List.cons.inj h
      obtain ⟨s, u, rfl, rfl, hu⟩ := ih hrest
      exact ⟨'\r' :: '\n' :: s, u, rfl, rfl, hu⟩
    | case3 c t hpair =>
      have hhead := head?_ne_of_no_pair hpair
      rw [normalizeNewlines_cons hhead] at h
      obtain ⟨rfl, hrest⟩ := List.cons.inj h
      obtain ⟨s, u, rfl, rfl, hu⟩ := ih hrest
      refine ⟨c :: s, u, rfl, normalizeNewlines_cons fun hc => ?_, hu⟩
      cases s with
      | nil => exact nofun
      | cons d s => exact hhead hc

/-! ### Scanning what is read -/

/-- A directive is read of a part of the text, and has its lines. -/
theorem exists_of_directive {functions : FunctionTable} {d : Directive}
    (hd : d ∈ (scan functions t.normalizeNewlines).directives) : ∃ before raw after : Text,
      t = before ++ raw ++ after ∧ raw.normalizeNewlines = d.raw ∧ d.line = 1 + before.newlines ∧
        d.span.stop.line = 1 + newlines (before ++ raw) := by
  obtain ⟨ds, ds', hds⟩ := List.append_of_mem hd
  obtain ⟨⟨rest, hrest⟩, hline⟩ := Scan.stands_of_scanText hds
  obtain ⟨s, after, rfl, hs, -⟩ := exists_of_normalizeNewlines_eq_append hrest.symm
  obtain ⟨before, raw, rfl, hbefore, hraw⟩ := exists_of_normalizeNewlines_eq_append hs
  have hstart : d.line = 1 + before.newlines := by
    rw [hline, ← hbefore, newlines_normalizeNewlines]
  refine ⟨before, raw, after, rfl, hraw, hstart, ?_⟩
  calc d.span.stop.line
    _ = d.line + d.raw.newlines := by
      rw [((Scan.scanFrom_measured _ _ _).1 d hd).stop, Location.advance_line, Directive.line]
    _ = 1 + newlines (before ++ raw) := by
      rw [hstart, ← hraw, newlines_normalizeNewlines, newlines_append, Nat.add_assoc]

/-- The error that ends a scan is on the line of the text where the scan comes to a halt. -/
theorem exists_of_error {functions : FunctionTable} {e : ScanError}
    (he : (scan functions t.normalizeNewlines).error? = some e) : ∃ before rest : Text,
      t = before ++ rest ∧
        Scan.Halts functions (.start .sheet 1) before.normalizeNewlines rest.normalizeNewlines
          e.complaint ∧ e.line = 1 + before.newlines := by
  obtain ⟨front, back, hcut, hhalts, hline⟩ := Scan.halts_of_scanFrom he
  obtain ⟨before, rest, rfl, rfl, rfl⟩ := exists_of_normalizeNewlines_eq_append hcut
  refine ⟨before, rest, rfl, hhalts, ?_⟩
  rw [hline, newlines_normalizeNewlines]
  rfl

/-! ### The lines that are read -/

/-- What is read of a text has the lines of the text, each in its place. A line number that is
counted in it is a line number of the text. -/
structure KeepsLines (t read : Text) : Prop where
  /-- No line feed is lost. -/
  newlines : read.newlines = t.newlines
  length : read.lines.length = t.lines.length
  /-- One carriage return goes in front of a line feed. -/
  returned : ∀ (k : Nat) (line : Text), t.lines[k]? = some (line ++ "\r\n".toList) →
    read.lines[k]? = some (line ++ ['\n'])
  /-- All other lines stay as they are. -/
  other : ∀ (k : Nat) (line : Text), t.lines[k]? = some line → ¬ "\r\n".toList <:+ line →
    read.lines[k]? = some line
  unchanged : ¬ "\r\n".toList <:+: t → read = t
  /-- A place in what is read is a place in the text on the line with the same number. -/
  cut : ∀ before after : Text, read = before ++ after → ∃ before' after' : Text,
    t = before' ++ after' ∧ before'.normalizeNewlines = before ∧ after'.normalizeNewlines = after ∧
      before'.newlines = before.newlines
  /-- A directive is read of a part of the text, and has its lines. -/
  directive : ∀ (functions : FunctionTable) (d : Directive),
    d ∈ (scan functions read).directives → ∃ before raw after : Text,
      t = before ++ raw ++ after ∧ raw.normalizeNewlines = d.raw ∧ d.line = 1 + before.newlines ∧
        d.span.stop.line = 1 + Text.newlines (before ++ raw)
  /-- An error names the line of the text where the scan comes to a halt. -/
  error : ∀ (functions : FunctionTable) (e : ScanError),
    (scan functions read).error? = some e → ∃ before rest : Text, t = before ++ rest ∧
      Scan.Halts functions (.start .sheet 1) before.normalizeNewlines rest.normalizeNewlines
        e.complaint ∧ e.line = 1 + before.newlines

/-- Whatever is in a text, what is read of it has its lines. -/
theorem keepsLines_normalizeNewlines (t : Text) : t.KeepsLines t.normalizeNewlines where
  newlines := newlines_normalizeNewlines t
  length := by rw [lines_normalizeNewlines, List.length_map]
  returned k line h := by
    rw [getElem?_lines_normalizeNewlines, h, Option.map_some,
      normalizeNewlines_returned (List.mem_of_getElem? h)]
  other k line h hline := by
    rw [getElem?_lines_normalizeNewlines, h, Option.map_some,
      normalizeNewlines_other (List.mem_of_getElem? h) hline]
  unchanged := normalizeNewlines_eq_self
  cut before after h := by
    obtain ⟨s, u, hcut, rfl, hu⟩ := exists_of_normalizeNewlines_eq_append h
    exact ⟨s, u, hcut, rfl, hu, (newlines_normalizeNewlines s).symm⟩
  directive _ _ := exists_of_directive
  error _ _ := exists_of_error

end Text

namespace Loader

/-- A text that is read has the lines of the file that it is read of, whatever mixture of carriage
returns and line feeds the file holds, so a line number of the one is a line number of the other. -/
theorem load_keeps_lines :
    -- any text
    (∀ t : Text, t.KeepsLines t.normalizeNewlines) ∧
    -- the text of a file
    ∀ (loader : Loader) (tree : Tree) (p q : Path) (read : Text), loader.load tree p = .ok (q, read) →
      ∃ t : Text, tree.readText q = .ok t ∧ t.KeepsLines read := by
  refine ⟨Text.keepsLines_normalizeNewlines, fun loader tree p q read h => ?_⟩
  obtain ⟨-, t, -, -, -, ht, rfl⟩ := load_eq_ok_iff.1 h
  exact ⟨t, ht, t.keepsLines_normalizeNewlines⟩

/-- A file in which the first line returns twice, the second one in its middle, and the last one
at an end without a line feed. -/
def returning : Tree := Sample.tree [("a.scss", "$a:\r\r\n b\r c;\n$d: e;\r\n$f: g\r")]

/-- Only the first and the third line of the file lose a carriage return. -/
theorem load_keeps_lines_returning :
    (ofDirs returning [⟨"/".toList⟩]).load returning ⟨"a.scss".toList⟩ =
        .ok (⟨"/a.scss".toList⟩, "$a:\r\n b\r c;\n$d: e;\n$f: g\r".toList) ∧
      ∃ t : Text, returning.readText ⟨"/a.scss".toList⟩ = .ok t ∧
        t.KeepsLines "$a:\r\n b\r c;\n$d: e;\n$f: g\r".toList := by
  have hload : (ofDirs returning [⟨"/".toList⟩]).load returning ⟨"a.scss".toList⟩ =
      .ok (⟨"/a.scss".toList⟩, "$a:\r\n b\r c;\n$d: e;\n$f: g\r".toList) := by decide +kernel
  exact ⟨hload, load_keeps_lines.2 _ _ _ _ _ hload⟩

end Loader

end StylePrep
