import Mathlib.Data.List.Basic
import Mathlib.Data.List.Induction
import StylePrep.LineMap

/-!
# Provenance of single characters

A line map keeps one origin for each line of its output. Here every character of
an output carries a mark of its own, which tells what put it there, and a map is
compared with such a marked text: the origin kept for a line has to be the one
that the mark of the line's first character stands for. Marks are of any type, so
the same comparison serves for plain origins and for finer histories.

The three operations on maps are followed one character at a time. Adding a text
is adding its characters in turn (`append_cons`, `generate_cons`), and adding one
character keeps the comparison whatever the state of the last line
(`Refines.push`). A splice closes lines on both sides, and the line feed it adds
is never the first character of a line.
-/

namespace StylePrep

namespace Text

/-- Whether the last line of a text lacks its line feed. -/
def isOpen (t : Text) : Bool := t ≠ [] ∧ t.getLast? ≠ some '\n'

/-- The number of physical lines: one for each line feed, and one more for a last
line without. -/
def physicalLines (t : Text) : Nat := t.newlines + if t.isOpen then 1 else 0

/-- The character at `i` is the first one of line `k`, lines counted from 1. -/
structure StartsLine (t : Text) (k i : Nat) : Prop where
  lt_length : i < t.length
  newlines_take : newlines (t.take i) + 1 = k
  isOpen_take : isOpen (t.take i) = false

@[simp] theorem isOpen_nil : isOpen [] = false := rfl

@[simp] theorem isOpen_concat (t : Text) (c : Char) : isOpen (t ++ [c]) = (c != '\n') := by
  by_cases h : c = '\n' <;> simp [isOpen, h]

theorem isOpen_append (s : Text) {t : Text} (h : t ≠ []) : isOpen (s ++ t) = isOpen t := by
  obtain ⟨u, c, rfl⟩ := (List.eq_nil_or_concat t).resolve_left h
  rw [List.concat_eq_append, ← List.append_assoc, isOpen_concat, isOpen_concat]

@[simp] theorem newlines_cons (c : Char) (t : Text) :
    newlines (c :: t) = newlines t + if c = '\n' then 1 else 0 := by
  simp [newlines, List.count_cons]

/-- A character that is no line feed is put in front of the first line. -/
theorem lines_cons {c : Char} (hc : c ≠ '\n') (t : Text) :
    lines (c :: t) = (c :: (lines t).headD []) :: (lines t).tail := by
  rw [lines, if_neg hc]
  cases lines t <;> rfl

/-- A character starts a new line exactly if the line before it is finished. -/
theorem physicalLines_concat (t : Text) (c : Char) :
    physicalLines (t ++ [c]) = t.newlines + 1 := by
  by_cases h : c = '\n' <;> simp [physicalLines, h]

/-- Growing a text moves none of its lines. -/
theorem StartsLine.append {t : Text} {k i : Nat} (h : t.StartsLine k i) (u : Text) :
    (t ++ u).StartsLine k i := by
  have htake : (t ++ u).take i = t.take i := List.take_append_of_le_length (Nat.le_of_lt h.lt_length)
  refine ⟨?_, ?_, ?_⟩
  · simpa using Nat.lt_add_right _ h.lt_length
  · rw [htake]; exact h.newlines_take
  · rw [htake]; exact h.isOpen_take

/-- The lines that have a first character are those from 1 to the number of
lines. -/
theorem exists_startsLine_iff (t : Text) (k : Nat) :
    (∃ i, t.StartsLine k i) ↔ 1 ≤ k ∧ k ≤ t.physicalLines := by
  induction t using List.reverseRecOn with
  | nil =>
    constructor
    · rintro ⟨i, h⟩
      exact absurd h.lt_length (Nat.not_lt_zero i)
    · rintro ⟨h₁, h₂⟩
      exact absurd (Nat.le_trans h₁ h₂) (by decide)
  | append_singleton t c ih =>
    rw [physicalLines_concat]
    constructor
    · rintro ⟨i, h⟩
      have hle : i ≤ t.length := by simpa [Nat.lt_succ_iff] using h.lt_length
      have hk := h.newlines_take
      rw [List.take_append_of_le_length hle] at hk
      have hsub : newlines (t.take i) ≤ newlines t := (List.take_sublist i t).count_le '\n'
      omega
    · rintro ⟨h₁, h₂⟩
      by_cases hk : k ≤ physicalLines t
      · obtain ⟨i, hi⟩ := ih.2 ⟨h₁, hk⟩
        exact ⟨i, hi.append [c]⟩
      · -- The text so far is finished, so `c` itself starts the line.
        have hclosed : isOpen t = false := by
          cases hopen : isOpen t with
          | false => rfl
          | true =>
            simp only [physicalLines, hopen, if_true] at hk
            exact absurd h₂ hk
        have hlast : newlines t + 1 = k := by
          simp only [physicalLines, hclosed, Bool.false_eq_true, if_false] at hk
          omega
        exact ⟨t.length, by simp, by simpa using hlast, by simpa using hclosed⟩

/-- A line on which a character stands is a physical line. -/
theorem le_physicalLines (before : Text) {rest : Text} (h : rest ≠ []) :
    1 + before.newlines ≤ physicalLines (before ++ rest) := by
  obtain ⟨c, rest, rfl⟩ := List.exists_cons_of_ne_nil h
  have hline : 1 + before.newlines = physicalLines (before ++ [c]) := by
    rw [physicalLines_concat, Nat.add_comm]
  obtain ⟨i, hi⟩ := (exists_startsLine_iff (before ++ [c]) (1 + before.newlines)).2
    ⟨Nat.le_add_right 1 _, Nat.le_of_eq hline⟩
  have hgrown := hi.append rest
  rw [← List.append_cons] at hgrown
  exact ((exists_startsLine_iff _ _).1 ⟨i, hgrown⟩).2

end Text

open Text

/-- A text in which every character carries a mark. -/
abbrev Marked (μ : Type) := List (Char × μ)

namespace Marked

variable {μ : Type}

/-- The characters without their marks. -/
def text (g : Marked μ) : Text := g.map Prod.fst

/-- The characters that lines start with; `fresh` tells whether the first one
does. -/
def heads (fresh : Bool) : Marked μ → Marked μ
  | [] => []
  | (c, mark) :: g =>
    if fresh then (c, mark) :: heads (c == '\n') g else heads (c == '\n') g

/-- Finish the last line. The line feed gets the mark of the line it finishes. -/
def close (g : Marked μ) : Marked μ :=
  match (text g).isOpen, (heads true g).getLast? with
  | true, some (_, mark) => g ++ [('\n', mark)]
  | _, _ => g

/-- Add a marked text between line ends; the empty one adds nothing. -/
def splice (g child : Marked μ) : Marked μ :=
  if child = [] then g else close (close g ++ child)

@[simp] theorem text_nil : text ([] : Marked μ) = [] := rfl

@[simp] theorem text_cons (c : Char) (mark : μ) (g : Marked μ) :
    text ((c, mark) :: g) = c :: text g := rfl

@[simp] theorem text_append (g h : Marked μ) : text (g ++ h) = text g ++ text h :=
  List.map_append

@[simp] theorem text_eq_nil_iff (g : Marked μ) : text g = [] ↔ g = [] := List.map_eq_nil_iff

@[simp] theorem length_text (g : Marked μ) : (text g).length = g.length := List.length_map _

theorem text_take (g : Marked μ) (i : Nat) : text (g.take i) = (text g).take i := List.map_take

theorem heads_append (fresh : Bool) (g h : Marked μ) :
    heads fresh (g ++ h) =
      heads fresh g ++ heads (if g = [] then fresh else !(text g).isOpen) h := by
  induction g generalizing fresh with
  | nil => simp [heads]
  | cons x g ih =>
    obtain ⟨c, mark⟩ := x
    have hstate : (if g = [] then c == '\n' else !(text g).isOpen) =
        !(text ((c, mark) :: g)).isOpen := by
      by_cases hg : g = []
      · subst hg
        by_cases hc : c = '\n' <;> simp [hc, isOpen]
      · have := isOpen_append [c] (t := text g) (by simpa using hg)
        simpa [hg] using this.symm
    cases fresh <;> simp [heads, ih, hstate]

/-- The line starts of a text that grows. -/
theorem heads_true_append (g h : Marked μ) :
    heads true (g ++ h) = heads true g ++ heads (!(text g).isOpen) h := by
  rw [heads_append]
  by_cases hg : g = []
  · subst hg; simp
  · simp [hg]

@[simp] theorem heads_singleton (fresh : Bool) (c : Char) (mark : μ) :
    heads fresh [(c, mark)] = if fresh then [(c, mark)] else [] := by
  cases fresh <;> rfl

theorem mem_of_mem_heads {fresh : Bool} {g : Marked μ} {x : Char × μ} (h : x ∈ heads fresh g) :
    x ∈ g := by
  induction g generalizing fresh with
  | nil => exact h
  | cons y g ih =>
    rw [heads] at h
    split at h
    · rcases List.mem_cons.1 h with rfl | h
      · exact List.mem_cons_self
      · exact List.mem_cons_of_mem _ (ih h)
    · exact List.mem_cons_of_mem _ (ih h)

theorem heads_subset_true (fresh : Bool) (g : Marked μ) : heads fresh g ⊆ heads true g := by
  cases fresh with
  | true => exact List.Subset.refl _
  | false =>
    cases g with
    | nil => exact List.Subset.refl _
    | cons x g => exact List.subset_cons_self _ _

theorem mem_heads_append {g h : Marked μ} {x : Char × μ} (hx : x ∈ heads true (g ++ h)) :
    x ∈ heads true g ∨ x ∈ heads true h := by
  rw [heads_true_append, List.mem_append] at hx
  exact hx.imp_right fun hx => heads_subset_true _ _ hx

/-- The line feed that finishes a line does not start one. -/
theorem heads_close (g : Marked μ) : heads true g.close = heads true g := by
  unfold close
  split
  case h_1 hopen _ => simp [heads_true_append, hopen]
  case h_2 => rfl

theorem mem_heads_splice {g h : Marked μ} {x : Char × μ} (hx : x ∈ heads true (g.splice h)) :
    x ∈ heads true g ∨ x ∈ heads true h := by
  unfold splice at hx
  split at hx
  · exact .inl hx
  · rw [heads_close] at hx
    exact (mem_heads_append hx).imp_left fun hx => heads_close g ▸ hx

/-- Every physical line has a first character. -/
theorem length_heads (g : Marked μ) : (heads true g).length = (text g).physicalLines := by
  induction g using List.reverseRecOn with
  | nil => rfl
  | append_singleton g x ih =>
    obtain ⟨c, mark⟩ := x
    rw [heads_true_append, List.length_append, ih, text_append, text_cons, text_nil,
      physicalLines_concat, physicalLines]
    cases (text g).isOpen <;> simp

/-- The character found for a line is the one the line starts with. -/
theorem heads_getElem? {g : Marked μ} {k i : Nat} (h : (text g).StartsLine k i) :
    (heads true g)[k - 1]? = g[i]? := by
  have hi : i < g.length := by simpa using h.lt_length
  have hclosed := h.isOpen_take
  have hcount := h.newlines_take
  rw [← text_take] at hclosed hcount
  have hlen : (heads true (g.take i)).length = k - 1 := by
    rw [length_heads, physicalLines, hclosed]
    simp only [Bool.false_eq_true, if_false]
    omega
  conv_lhs => rw [← List.take_append_drop i g]
  rw [heads_true_append, hclosed, List.getElem?_append_right (by omega), hlen, Nat.sub_self,
    List.drop_eq_getElem_cons hi, List.getElem?_eq_getElem hi]
  rfl

end Marked

namespace LineMap

/-! ### Adding text one character at a time -/

theorem push_cons (m : LineMap) {c : Char} (hc : c ≠ '\n') {piece : Text} (hpiece : piece ≠ [])
    (origin origin' : Origin) :
    m.push (c :: piece) origin = (m.push [c] origin).push piece origin' := by
  have hlast : (c :: piece).getLast? = piece.getLast? := by
    rw [List.getLast?_cons]
    cases h : piece.getLast? with
    | none => exact absurd (List.getLast?_eq_none_iff.1 h) hpiece
    | some d => rfl
  simp [push, hlast, hc]

/-- Every line of a text has a character. -/
theorem ne_nil_of_mem_lines {t piece : Text} (h : piece ∈ lines t) : piece ≠ [] := by
  induction t generalizing piece with
  | nil => exact absurd h List.not_mem_nil
  | cons c t ih =>
    by_cases hc : c = '\n'
    · rw [lines, if_pos hc] at h
      rcases List.mem_cons.1 h with rfl | h
      · exact List.cons_ne_nil _ _
      · exact ih h
    · rw [lines_cons hc] at h
      rcases List.mem_cons.1 h with rfl | h
      · exact List.cons_ne_nil _ _
      · exact ih (List.mem_of_mem_tail h)

theorem append_cons (m : LineMap) (c : Char) (t : Text) (file : FileId) (line : Nat) :
    m.append (c :: t) file line =
      (m.push [c] ⟨file, line⟩).append t file (line + newlines [c]) := by
  by_cases hc : c = '\n'
  · subst hc
    simp [append, lines, List.zipIdx_cons]
  · cases ht : lines t with
    | nil => simp [append, lines, hc, ht]
    | cons first others =>
      have hfirst : first ≠ [] := ne_nil_of_mem_lines (t := t) (by simp [ht])
      simp only [append, lines, hc, ht, if_false, List.zipIdx_cons, List.foldl_cons, newlines_cons,
        newlines_nil, Nat.add_zero]
      rw [push_cons m hc hfirst ⟨file, line⟩ ⟨file, line⟩]

theorem generate_cons (m : LineMap) (c : Char) (t : Text) (file : FileId) (line : Nat) :
    m.generate (c :: t) file line = (m.push [c] ⟨file, line⟩).generate t file line := by
  by_cases hc : c = '\n'
  · subst hc
    simp [generate, lines]
  · cases ht : lines t with
    | nil => simp [generate, lines, hc, ht]
    | cons first others =>
      have hfirst : first ≠ [] := ne_nil_of_mem_lines (t := t) (by simp [ht])
      simp only [generate, lines, hc, ht, if_false, List.foldl_cons]
      rw [push_cons m hc hfirst ⟨file, line⟩ ⟨file, line⟩]

/-! ### Maps and marked texts -/

variable {μ : Type} {origin : μ → Origin}

/-- A map agrees with a marked text: the same output, the same state of its last
line, and for each line the origin that the mark of its first character stands
for. -/
structure Refines (origin : μ → Origin) (m : LineMap) (g : Marked μ) : Prop where
  buffer : m.buffer = g.text
  entries : m.entries = (g.heads true).map fun x => origin x.2
  isOpen : m.isOpen = g.text.isOpen

/-- The marks of `g` stand for the lines that its characters are on when the
first one is on `line` of `file`. -/
def Numbered (origin : μ → Origin) (file : FileId) : Nat → Marked μ → Prop
  | _, [] => True
  | line, (c, mark) :: g => origin mark = ⟨file, line⟩ ∧ Numbered origin file (line + newlines [c]) g

theorem Refines.empty : Refines origin .empty [] := ⟨rfl, rfl, rfl⟩

/-- The step that all additions of text are made of. -/
theorem Refines.push {m : LineMap} {g : Marked μ} (h : Refines origin m g) (c : Char) (mark : μ) :
    Refines origin (m.push [c] (origin mark)) (g ++ [(c, mark)]) where
  buffer := by simp [h.buffer]
  entries := by
    rw [Marked.heads_true_append, Marked.heads_singleton, List.map_append, ← h.entries, ← h.isOpen]
    cases hopen : m.isOpen <;> simp [LineMap.push, hopen]
  isOpen := by
    by_cases hc : c = '\n' <;> simp [LineMap.push, hc]

theorem Refines.append {m : LineMap} {g : Marked μ} (h : Refines origin m g) {file : FileId}
    {line : Nat} {piece : Marked μ} (hpiece : Numbered origin file line piece) :
    Refines origin (m.append piece.text file line) (g ++ piece) := by
  induction piece generalizing m g line with
  | nil => simpa using h
  | cons x piece ih =>
    obtain ⟨c, mark⟩ := x
    obtain ⟨hmark, hrest⟩ := hpiece
    have hpush := h.push c mark
    rw [hmark] at hpush
    rw [Marked.text_cons, append_cons, List.append_cons]
    exact ih hpush hrest

theorem Refines.generate {m : LineMap} {g : Marked μ} (h : Refines origin m g) {file : FileId}
    {line : Nat} {piece : Marked μ} (hpiece : ∀ x ∈ piece, origin x.2 = ⟨file, line⟩) :
    Refines origin (m.generate piece.text file line) (g ++ piece) := by
  induction piece generalizing m g with
  | nil => simpa using h
  | cons x piece ih =>
    obtain ⟨c, mark⟩ := x
    have hpush := h.push c mark
    rw [hpiece (c, mark) List.mem_cons_self] at hpush
    rw [Marked.text_cons, generate_cons, List.append_cons]
    exact ih hpush fun y hy => hpiece y (List.mem_cons_of_mem _ hy)

theorem Refines.close {m : LineMap} {g : Marked μ} (h : Refines origin m g) :
    Refines origin m.closeLine g.close := by
  cases hopen : g.text.isOpen with
  | false =>
    have hm : m.isOpen = false := h.isOpen.trans hopen
    simpa [closeLine, Marked.close, hm, hopen] using h
  | true =>
    have hm : m.isOpen = true := h.isOpen.trans hopen
    -- An open line has a first character, whose mark the line feed takes over.
    obtain ⟨⟨c, mark⟩, hmark⟩ : ∃ x, (g.heads true).getLast? = some x := by
      have hlen := Marked.length_heads g
      rw [physicalLines, hopen, if_pos rfl] at hlen
      have hne : g.heads true ≠ [] := List.ne_nil_of_length_pos (by omega)
      exact ⟨_, List.getLast?_eq_some_getLast hne⟩
    have hclose : g.close = g ++ [('\n', mark)] := by simp [Marked.close, hopen, hmark]
    rw [hclose]
    refine ⟨by simp [closeLine, hm, h.buffer], ?_, by simp [closeLine, hm]⟩
    rw [Marked.heads_true_append, hopen]
    simpa [closeLine, hm] using h.entries

theorem closeLine_isOpen (m : LineMap) : m.closeLine.isOpen = false := by
  cases h : m.isOpen <;> simp [closeLine, h]

theorem Refines.splice {m child : LineMap} {g h : Marked μ} (hm : Refines origin m g)
    (hchild : Refines origin child h) : Refines origin (m.splice child) (g.splice h) := by
  by_cases hh : h = []
  · subst hh
    simpa [LineMap.splice, Marked.splice, hchild.buffer] using hm
  · have hbuffer : child.buffer ≠ [] := by simpa [hchild.buffer] using hh
    simp only [LineMap.splice, Marked.splice, hbuffer, hh, if_false]
    have hclosed := hm.close
    have hfresh : g.close.text.isOpen = false := by
      rw [← hclosed.isOpen, closeLine_isOpen]
    refine Refines.close ⟨?_, ?_, ?_⟩
    · simp [hclosed.buffer, hchild.buffer]
    · -- Behind a finished line, the child's line starts stay line starts.
      rw [Marked.heads_true_append, hfresh, hclosed.entries, hchild.entries, List.map_append]
      rfl
    · rw [hchild.isOpen, Marked.text_append, isOpen_append _ (by simpa using hh)]

/-- What a map answers about a line, read off the marked text. -/
theorem Refines.lookup {m : LineMap} {g : Marked μ} (h : Refines origin m g) {k i : Nat}
    (hk : m.buffer.StartsLine k i) :
    ∃ c mark, g[i]? = some (c, mark) ∧ m.lookup k = .ok (origin mark) := by
  rw [h.buffer] at hk
  have hi : i < g.length := by simpa using hk.lt_length
  have hentry : m.entries[k - 1]? = some (origin (g[i]).2) := by
    rw [h.entries, List.getElem?_map, Marked.heads_getElem? hk, List.getElem?_eq_getElem hi]
    rfl
  have hpos : k - 1 + 1 = k := by
    have := hk.newlines_take
    omega
  refine ⟨(g[i]).1, (g[i]).2, List.getElem?_eq_getElem hi, ?_⟩
  rw [← hpos]
  simp only [LineMap.lookup, hentry]

theorem Refines.lineCount {m : LineMap} {g : Marked μ} (h : Refines origin m g) :
    m.lineCount = m.buffer.physicalLines := by
  rw [LineMap.lineCount, h.entries, List.length_map, Marked.length_heads, h.buffer]

theorem lookup_eq_error {m : LineMap} {k : Nat} (h : ¬ (1 ≤ k ∧ k ≤ m.lineCount)) :
    m.lookup k = .error ⟨k, m.lineCount⟩ := by
  cases k with
  | zero => rfl
  | succ i =>
    have hnone : m.entries[i]? = none := List.getElem?_eq_none (by simp [lineCount] at h; omega)
    simp only [lookup, hnone]

end LineMap

/-! ### Sequences of operations -/

/-- An operation on a map. What is spliced in is itself the result of a sequence
of operations. -/
inductive Edit where
  | append (text : Text) (file : FileId) (line : Nat)
  | generate (text : Text) (file : FileId) (line : Nat)
  | splice (child : List Edit)

namespace Edit

mutual

def apply : LineMap → Edit → LineMap
  | m, .append t file line => m.append t file line
  | m, .generate t file line => m.generate t file line
  | m, .splice child => m.splice (applyAll .empty child)

def applyAll : LineMap → List Edit → LineMap
  | m, [] => m
  | m, edit :: edits => applyAll (apply m edit) edits

end

/-- Source text, each character with the line it is on when the text starts on
`line`. -/
def copied (t : Text) (file : FileId) (line : Nat) : Marked Origin :=
  t.mapIdx fun i c => (c, ⟨file, line + newlines (t.take i)⟩)

/-- Generated text, all of it with one origin. -/
def generated (t : Text) (file : FileId) (line : Nat) : Marked Origin :=
  t.map fun c => (c, ⟨file, line⟩)

mutual

def mark : Marked Origin → Edit → Marked Origin
  | g, .append t file line => g ++ copied t file line
  | g, .generate t file line => g ++ generated t file line
  | g, .splice child => g.splice (markAll [] child)

def markAll : Marked Origin → List Edit → Marked Origin
  | g, [] => g
  | g, edit :: edits => markAll (mark g edit) edits

end

/-- The map that a sequence of operations makes of the empty one. -/
def build (edits : List Edit) : LineMap := applyAll .empty edits

/-- The output of a sequence of operations, each character with the origin it was
added with. -/
def trace (edits : List Edit) : Marked Origin := markAll [] edits

@[simp] theorem text_copied (t : Text) (file : FileId) (line : Nat) :
    (copied t file line).text = t := by
  apply List.ext_getElem?
  intro i
  cases h : t[i]? <;> simp [copied, Marked.text, h]

@[simp] theorem text_generated (t : Text) (file : FileId) (line : Nat) :
    (generated t file line).text = t := by
  rw [generated, Marked.text, List.map_map]
  exact List.map_id' t

theorem numbered_copied (t : Text) (file : FileId) (line : Nat) :
    LineMap.Numbered id file line (copied t file line) := by
  induction t generalizing line with
  | nil => trivial
  | cons c t ih =>
    have htail : copied (c :: t) file line =
        (c, ⟨file, line⟩) :: copied t file (line + newlines [c]) := by
      simp [copied, List.mapIdx_cons, Nat.add_assoc, Nat.add_comm]
    rw [htail]
    exact ⟨rfl, ih _⟩

mutual

theorem apply_refines {m : LineMap} {g : Marked Origin} (h : LineMap.Refines id m g) :
    (edit : Edit) → LineMap.Refines id (apply m edit) (mark g edit)
  | .append t file line => by
    simpa [apply, mark] using h.append (numbered_copied t file line)
  | .generate t file line => by
    have hpiece : ∀ x ∈ generated t file line, id x.2 = ⟨file, line⟩ := by
      simp [generated]
    simpa [apply, mark] using h.generate hpiece
  | .splice child => by
    simpa [apply, mark] using h.splice (applyAll_refines .empty child)

theorem applyAll_refines {m : LineMap} {g : Marked Origin} (h : LineMap.Refines id m g) :
    (edits : List Edit) → LineMap.Refines id (applyAll m edits) (markAll g edits)
  | [] => h
  | edit :: edits => by
    rw [applyAll, markAll]
    exact applyAll_refines (apply_refines h edit) edits

end

/-- Whatever was added to a map in whatever order, it has one entry for each line
of its output, knows whether the last line is finished, and answers for a line with
the origin of the line's first character. -/
theorem build_lookup (edits : List Edit) :
    (build edits).buffer = (trace edits).text ∧
      (build edits).entries.length = (build edits).buffer.physicalLines ∧
      ((build edits).isOpen = true ↔
        (build edits).buffer ≠ [] ∧ (build edits).buffer.getLast? ≠ some '\n') ∧
      (∀ k, (∃ i, (build edits).buffer.StartsLine k i) ↔ 1 ≤ k ∧ k ≤ (build edits).lineCount) ∧
      (∀ k i, (build edits).buffer.StartsLine k i →
        ∃ c origin, (trace edits)[i]? = some (c, origin) ∧
          (build edits).lookup k = .ok origin) ∧
      ∀ k, ¬ (1 ≤ k ∧ k ≤ (build edits).lineCount) →
        (build edits).lookup k = .error ⟨k, (build edits).lineCount⟩ := by
  have h : LineMap.Refines id (build edits) (trace edits) := applyAll_refines .empty edits
  refine ⟨h.buffer, h.lineCount, ?_, ?_, ?_, ?_⟩
  · rw [h.isOpen, ← h.buffer]
    simp [isOpen]
  · intro k
    rw [h.lineCount]
    exact exists_startsLine_iff _ k
  · intro k i hk
    exact h.lookup hk
  · intro k hk
    exact LineMap.lookup_eq_error hk

/-- A child without a final line feed, spliced into the middle of a line: both
lines are closed, and the text behind the child starts a line of its own. -/
example : (build [.append "a".toList 0 1, .splice [.append "x\ny".toList 1 4],
      .generate "b\nc".toList 0 7]).entries = [⟨0, 1⟩, ⟨1, 4⟩, ⟨1, 5⟩, ⟨0, 7⟩, ⟨0, 7⟩] := by
  decide

end Edit

end StylePrep
