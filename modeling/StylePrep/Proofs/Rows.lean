import StylePrep.Proofs.Mirror

/-!
# Rows of the output

The lines of an output with their origins are its rows, and the lines of a text with their
numbers are the rows it has to give. Behind a finished line, text that is appended adds its
own rows (`rows_append`), and so does a map that is spliced in (`rows_splice`): finishing its
last line does not change what is on it.

An import covers the lines of its text. If it takes whole lines, what it leaves of a text
are the rows in front of it and what is left of the rows behind it (`kept_import`).
-/

namespace StylePrep

namespace Text

def content (line : Text) : Text := line.takeWhile (· != '\n')

theorem content_cons {c : Char} (hc : c ≠ '\n') (line : Text) :
    content (c :: line) = c :: content line := by
  simp [content, hc]

/-- The lines of a text without their line feeds, numbered from `n`. -/
def numbered (n : Nat) (t : Text) : List (Text × Nat) := (t.lines.map content).zipIdx n

theorem lines_eq_nil_iff {t : Text} : t.lines = [] ↔ t = [] := by
  refine ⟨fun h => ?_, fun h => by rw [h]; rfl⟩
  cases t with
  | nil => rfl
  | cons c t =>
    rw [lines] at h
    split at h
    · cases h
    · split at h <;> cases h

theorem isOpen_cons (c : Char) {t : Text} (h : t ≠ []) : isOpen (c :: t) = isOpen t :=
  isOpen_append [c] h

theorem isOpen_append_eq_false {s t : Text} (hs : isOpen s = false) (ht : isOpen t = false) :
    isOpen (s ++ t) = false := by
  rcases eq_or_ne t [] with rfl | hne
  · rwa [List.append_nil]
  · rwa [isOpen_append s hne]

theorem isOpen_right {s t : Text} (h : isOpen (s ++ t) = false) : isOpen t = false := by
  rcases eq_or_ne t [] with rfl | hne
  · rfl
  · rwa [isOpen_append s hne] at h

/-- Text behind a finished line starts a line. -/
theorem lines_append {s : Text} (h : isOpen s = false) (t : Text) : lines (s ++ t) = lines s ++ lines t := by
  induction s with
  | nil => rfl
  | cons c s ih =>
    rcases eq_or_ne s [] with rfl | hs
    · obtain rfl : c = '\n' := by simpa [isOpen] using h
      rfl
    · rw [isOpen_cons c hs] at h
      rw [List.cons_append, lines, lines, ih h]
      split
      · rfl
      · cases hlines : lines s with
        | nil => exact absurd (lines_eq_nil_iff.1 hlines) hs
        | cons first others => rfl

theorem length_lines {t : Text} (h : isOpen t = false) : t.lines.length = t.newlines := by
  induction t with
  | nil => rfl
  | cons c t ih =>
    rcases eq_or_ne t [] with rfl | ht
    · obtain rfl : c = '\n' := by simpa [isOpen] using h
      rfl
    · rw [isOpen_cons c ht] at h
      rw [lines, newlines_cons, ← ih h]
      split
      · simp [*, Nat.add_comm]
      · cases hlines : lines t with
        | nil => exact absurd (lines_eq_nil_iff.1 hlines) ht
        | cons first others => simp [*]

/-- Finishing the last line does not change what is on it. -/
theorem content_lines_close {t : Text} (h : isOpen t = true) :
    (lines (t ++ ['\n'])).map content = (lines t).map content := by
  induction t with
  | nil => cases h
  | cons c t ih =>
    rcases eq_or_ne t [] with rfl | ht
    · have hc : c ≠ '\n' := by simpa [isOpen] using h
      simp [lines, content, hc]
    · rw [isOpen_cons c ht] at h
      have hrest := ih h
      rw [List.cons_append, lines, lines]
      split
      case isTrue => simp [hrest]
      case isFalse hc =>
        cases hlines : lines t with
        | nil => exact absurd (lines_eq_nil_iff.1 hlines) ht
        | cons first others =>
          cases hlines' : lines (t ++ ['\n']) with
          | nil => exact absurd (lines_eq_nil_iff.1 hlines') (by simp)
          | cons first' others' =>
            rw [hlines, hlines'] at hrest
            obtain ⟨hfirst, hothers⟩ := List.cons.inj hrest
            simp [content_cons hc, hfirst, hothers]

theorem numbered_append {s : Text} (h : isOpen s = false) (n : Nat) (t : Text) :
    numbered n (s ++ t) = numbered n s ++ numbered (n + s.newlines) t := by
  rw [numbered, lines_append h, List.map_append, List.zipIdx_append, List.length_map, length_lines h]
  rfl

theorem mem_numbered {n : Nat} {t : Text} {row : Text × Nat} (h : row ∈ numbered n t) :
    n ≤ row.2 ∧ row.2 < n + t.lines.length := by
  obtain ⟨line, k⟩ := row
  obtain ⟨hle, hlt, -⟩ := List.mem_zipIdx h
  rw [List.length_map] at hlt
  exact ⟨hle, hlt⟩

end Text

namespace LineMap

open Text

/-- The lines of the output with their origins. -/
def rows (m : LineMap) : List (Text × Origin) := (m.buffer.lines.map content).zip m.entries

/-- The lines of the output that come from a file, with their numbers there. -/
def rowsOf (m : LineMap) (file : FileId) : List (Text × Nat) :=
  (m.rows.filter fun row => row.2.file = file).map fun row => (row.1, row.2.line)

/-- A map with as many origins as lines, that knows whether its last line is finished. -/
structure Whole (m : LineMap) : Prop where
  has : m.Has m.buffer
  count : m.entries.length = m.buffer.lines.length

theorem Whole.empty : Whole .empty := ⟨.empty, rfl⟩

/-- Text starts a line for each of its own, but for the first where a line is open. -/
theorem entries_append (m : LineMap) (t : Text) (file : FileId) (n : Nat) :
    (m.append t file n).entries = m.entries ++
      ((List.range' n t.lines.length).map (Origin.mk file)).drop (if m.isOpen then 1 else 0) := by
  induction t generalizing m n with
  | nil => simp [lines]
  | cons c t ih =>
    rw [append_cons, ih, newlines_cons, newlines_nil, Nat.zero_add]
    by_cases hc : c = '\n'
    · subst hc
      cases hopen : m.isOpen <;> simp [push, lines, hopen, List.range'_succ]
    · cases hlines : lines t with
      | nil => cases hopen : m.isOpen <;> simp [push, lines, hopen, hc, hlines]
      | cons first others =>
        cases hopen : m.isOpen <;> simp [push, lines, hopen, hc, hlines, List.range'_succ]

theorem buffer_append {m : LineMap} (h : m.Whole) (t : Text) (file : FileId) (n : Nat) :
    (m.append t file n).buffer = m.buffer ++ t := (h.has.append t file n).buffer

/-- A file's text as rows of the output. -/
def rowsFrom (file : FileId) (rows : List (Text × Nat)) : List (Text × Origin) :=
  rows.map fun row => (row.1, ⟨file, row.2⟩)

theorem Whole.append {m : LineMap} (h : m.Whole) (hclosed : m.buffer.isOpen = false) (t : Text)
    (file : FileId) (n : Nat) : (m.append t file n).Whole := by
  have hbuffer := buffer_append h t file n
  refine ⟨hbuffer ▸ h.has.append t file n, ?_⟩
  rw [entries_append, hbuffer, lines_append hclosed]
  have hopen : m.isOpen = false := h.has.isOpen.trans hclosed
  simp [hopen, h.count]

theorem rows_append {m : LineMap} (h : m.Whole) (hclosed : m.buffer.isOpen = false) (t : Text)
    (file : FileId) (n : Nat) :
    (m.append t file n).rows = m.rows ++ rowsFrom file (numbered n t) := by
  have hopen : m.isOpen = false := h.has.isOpen.trans hclosed
  rw [rows, rows, entries_append, buffer_append h, lines_append hclosed, List.map_append,
    List.zip_append (by simp [h.count]), rowsFrom, numbered, List.zipIdx_eq_zip_range', hopen]
  simp [List.zip_map_right]

theorem rows_closeLine {m : LineMap} (h : m.Whole) : m.closeLine.rows = m.rows := by
  unfold closeLine
  split
  case isTrue hopen => rw [rows, rows, content_lines_close (h.has.isOpen.symm.trans hopen)]
  case isFalse => rfl

theorem Whole.closeLine {m : LineMap} (h : m.Whole) : m.closeLine.Whole := by
  have hhas := h.has.close
  refine ⟨hhas.buffer ▸ hhas, ?_⟩
  unfold LineMap.closeLine
  split
  case isTrue hopen =>
    have hlength := congrArg List.length (content_lines_close (h.has.isOpen.symm.trans hopen))
    simpa [h.count] using hlength.symm
  case isFalse => exact h.count

theorem closeLine_of_closed {m : LineMap} (h : m.Whole) (hclosed : m.buffer.isOpen = false) :
    m.closeLine = m := by
  rw [LineMap.closeLine, h.has.isOpen, hclosed]
  rfl

/-- Two maps one behind the other, the first one ending with a line. -/
theorem Whole.join {m child : LineMap} (h : m.Whole) (hclosed : m.buffer.isOpen = false)
    (hchild : child.Whole) (hne : child.buffer ≠ []) :
    Whole ⟨m.buffer ++ child.buffer, m.entries ++ child.entries, child.isOpen⟩ where
  has := ⟨rfl, by rw [isOpen_append _ hne]; exact hchild.has.isOpen⟩
  count := by simp [lines_append hclosed, h.count, hchild.count]

/-- A map spliced in behind a finished line adds its lines. -/
theorem rows_splice {m child : LineMap} (h : m.Whole) (hclosed : m.buffer.isOpen = false)
    (hchild : child.Whole) : (m.splice child).rows = m.rows ++ child.rows := by
  unfold splice
  split
  case isTrue hempty => simp [rows, hempty, lines]
  case isFalse hne =>
    rw [closeLine_of_closed h hclosed, rows_closeLine (h.join hclosed hchild hne), rows]
    simp only [lines_append hclosed, List.map_append]
    rw [List.zip_append (by simp [h.count])]
    rfl

theorem Whole.splice {m child : LineMap} (h : m.Whole) (hclosed : m.buffer.isOpen = false)
    (hchild : child.Whole) : (m.splice child).Whole ∧ (m.splice child).buffer.isOpen = false := by
  unfold LineMap.splice
  split
  case isTrue => exact ⟨h, hclosed⟩
  case isFalse hne =>
    have hjoin := (h.join hclosed hchild hne).closeLine
    rw [closeLine_of_closed h hclosed]
    exact ⟨hjoin, hjoin.has.isOpen.symm.trans (closeLine_isOpen _)⟩

/-! ### The lines of one file -/

theorem rowsOf_append {m : LineMap} (h : m.Whole) (hclosed : m.buffer.isOpen = false) (t : Text)
    (file : FileId) (n : Nat) (x : FileId) :
    (m.append t file n).rowsOf x = m.rowsOf x ++ if x = file then numbered n t else [] := by
  rw [rowsOf, rows_append h hclosed, List.filter_append, List.map_append]
  congr 1
  by_cases hx : x = file
  · simp [rowsFrom, hx, List.filter_map, Function.comp_def]
  · simp [rowsFrom, hx, Ne.symm hx, List.filter_map, Function.comp_def]

theorem rowsOf_splice {m child : LineMap} (h : m.Whole) (hclosed : m.buffer.isOpen = false)
    (hchild : child.Whole) (x : FileId) : (m.splice child).rowsOf x = m.rowsOf x ++ child.rowsOf x := by
  rw [rowsOf, rows_splice h hclosed hchild, List.filter_append, List.map_append]
  rfl

end LineMap

/-! ### What an import covers -/

namespace Directive

def isImport (d : Directive) : Bool :=
  match d.kind with
  | .imports _ => true
  | _ => false

/-- Whether a directive is a call of a sprite function or of a registered function. -/
def isCall (d : Directive) : Bool :=
  match d.kind with
  | .sprite .. => true
  | .custom .. => true
  | _ => false

def covers (d : Directive) (line : Nat) : Bool :=
  d.isImport && d.line ≤ line && line < d.line + d.raw.lines.length

/-- The rows that no import covers. -/
def kept (ds : List Directive) (rows : List (Text × Nat)) : List (Text × Nat) :=
  rows.filter fun row => ds.all fun d => !d.covers row.2

/-- An import is what covers lines. -/
theorem kept_cons {d : Directive} (h : d.isImport = false) (ds : List Directive)
    (rows : List (Text × Nat)) : kept (d :: ds) rows = kept ds rows := by
  simp [kept, covers, h]

theorem kept_append (ds : List Directive) (rows rows' : List (Text × Nat)) :
    kept ds (rows ++ rows') = kept ds rows ++ kept ds rows' := List.filter_append _ _

/-- An import takes its lines away and leaves those before and behind it. -/
theorem kept_import {d : Directive} {ds : List Directive} {n : Nat} {block : Text}
    (himport : d.isImport = true) (hblock : block.isOpen = false) (hline : d.line = n + block.newlines)
    (hend : d.raw.isOpen = false ∨ texts ds = [])
    (hrest : ∀ e ∈ ds, d.line + d.raw.newlines ≤ e.line) :
    kept (d :: ds) (Text.numbered n (block ++ (d.raw ++ texts ds))) =
      Text.numbered n block ++ kept ds (Text.numbered (d.line + d.raw.newlines) (texts ds)) := by
  have hcovered : kept (d :: ds) (Text.numbered d.line d.raw) = [] := by
    rw [kept, List.filter_eq_nil_iff]
    intro row hrow
    have hrange := Text.mem_numbered hrow
    simp [covers, himport, hrange]
  have hfront : kept (d :: ds) (Text.numbered n block) = Text.numbered n block := by
    rw [kept, List.filter_eq_self]
    intro row hrow
    have hrange := Text.mem_numbered hrow
    rw [Text.length_lines hblock, ← hline] at hrange
    have hbelow : ∀ e ∈ d :: ds, d.line ≤ e.line := by
      intro e he
      rcases List.mem_cons.1 he with rfl | he
      · exact Nat.le_refl _
      · exact Nat.le_trans (Nat.le_add_right _ _) (hrest e he)
    simp only [List.all_eq_true, covers]
    intro e he
    have hlt := Nat.lt_of_lt_of_le hrange.2 (hbelow e he)
    simp [Nat.not_le.2 hlt]
  rw [Text.numbered_append hblock, ← hline, kept_append, hfront]
  congr 1
  rcases hend with hraw | hnil
  · rw [Text.numbered_append hraw, kept_append, hcovered, List.nil_append]
    refine List.filter_congr fun row hrow => ?_
    have hrange := Text.mem_numbered hrow
    rw [List.all_cons]
    have hnot : d.covers row.2 = false := by
      simp only [covers, Text.length_lines hraw]
      simp [Nat.not_lt.2 hrange.1]
    simp [hnot]
  · rw [hnil, List.append_nil, hcovered]
    rfl

end Directive

end StylePrep
