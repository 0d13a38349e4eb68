import StylePrep.Proofs.Readers

/-!
# Trimmed texts

Trimming takes the white space off both ends of a text and nothing else, and once is enough
(`trim_trim`). A part of a text that neither starts nor ends in white space bounds what is
trimmed: in front of it and behind it, both ends are trimmed apart (`trim_around`).
-/

namespace StylePrep.Text

variable {s t : Text}

theorem isWordChar_of_isSpace {c : Char} (h : isSpace c = true) : isWordChar c = false := by
  rw [Bool.eq_false_iff]
  intro hword
  have hcode : c.toNat = c.val.toNat := rfl
  simp only [isSpace, Bool.or_eq_true, Bool.and_eq_true, decide_eq_true_eq, beq_iff_eq] at h
  delta isWordChar Char.isAlphanum Char.isAlpha Char.isUpper Char.isLower Char.isDigit at hword
  simp only [Bool.or_eq_true, Bool.and_eq_true, decide_eq_true_eq, UInt32.le_iff_toNat_le, beq_iff_eq,
    ge_iff_le] at hword
  rcases hword with (((⟨hleast, hmost⟩ | ⟨hleast, hmost⟩) | ⟨hleast, hmost⟩) | rfl) | rfl
  · simp at hleast hmost
    omega
  · simp at hleast hmost
    omega
  · simp at hleast hmost
    omega
  · exact absurd h (by decide)
  · exact absurd h (by decide)

/-- A trimmed text and the white space in front of it. -/
theorem exists_leading_spaces (t : Text) : ∃ u, t = u ++ trimStart t ∧ ∀ c ∈ u, isSpace c = true :=
  ⟨t.takeWhile isSpace, List.takeWhile_append_dropWhile.symm, fun _ => of_mem_takeWhile⟩

/-- A trimmed text and the white space behind it. -/
theorem exists_spaces (t : Text) : ∃ u, t = trimEnd t ++ u ∧ ∀ c ∈ u, isSpace c = true := by
  refine ⟨(t.reverse.takeWhile isSpace).reverse, ?_, fun c hc => ?_⟩
  · rw [trimEnd, ← List.reverse_append, List.takeWhile_append_dropWhile, List.reverse_reverse]
  · exact of_mem_takeWhile (List.mem_reverse.1 hc)

theorem trimEnd_concat (t : Text) {c : Char} (hc : isSpace c = false) : trimEnd (t ++ [c]) = t ++ [c] := by
  simp [trimEnd, hc]

theorem trimStart_of_stops (h : Stops isSpace t) : trimStart t = t :=
  dropWhile_append_of_stops (s := []) (by simp) h

theorem stops_trimStart (t : Text) : Stops isSpace (trimStart t) := stops_dropWhile isSpace t

theorem trimEnd_trimEnd (t : Text) : trimEnd (trimEnd t) = trimEnd t := by
  have h : (t.reverse.dropWhile isSpace).dropWhile isSpace = t.reverse.dropWhile isSpace :=
    trimStart_of_stops (stops_trimStart t.reverse)
  rw [trimEnd, trimEnd, List.reverse_reverse, h]

theorem stops_trim (t : Text) : Stops isSpace (trim t) := by
  intro c hc
  obtain ⟨u, hu⟩ := trimEnd_isPrefix (trimStart t)
  apply stops_trimStart t c
  rw [← hu, List.head?_append, trim] at *
  rw [hc, Option.some_or]

@[simp] theorem trim_trim (t : Text) : trim (trim t) = trim t := by
  rw [trim, trimStart_of_stops (stops_trim t), trim, trimEnd_trimEnd]

@[simp] theorem trim_cons_space (t : Text) : trim (' ' :: t) = trim t := by
  rw [trim, trimStart, List.dropWhile_cons_of_pos (by decide)]
  rfl

/-- A trimmed text and the white space around it. -/
theorem exists_spaces_around (t : Text) :
    ∃ u v, t = u ++ (trim t ++ v) ∧ (∀ c ∈ u, isSpace c = true) ∧ ∀ c ∈ v, isSpace c = true := by
  obtain ⟨u, hstart, hu⟩ := exists_leading_spaces t
  obtain ⟨v, hend, hv⟩ := exists_spaces (trimStart t)
  refine ⟨u, v, ?_, hu, hv⟩
  rwa [trim, ← hend]

theorem spaces_of_trim_eq_nil (h : trim t = []) : ∀ c ∈ t, isSpace c = true := by
  obtain ⟨u, v, ht, hu, hv⟩ := exists_spaces_around t
  rw [h, List.nil_append] at ht
  rw [ht]
  exact List.forall_mem_append.2 ⟨hu, hv⟩

/-- Where a text does not start with white space, what is in front of it is trimmed apart. -/
theorem trimStart_append (ht : Stops isSpace t) (s : Text) : trimStart (s ++ t) = trimStart s ++ t := by
  rw [trimStart, List.dropWhile_append]
  split
  case isTrue h =>
    have hnil : trimStart s = [] := List.isEmpty_iff.1 h
    rw [hnil, List.nil_append]
    exact trimStart_of_stops ht
  case isFalse => rfl

/-- Where a text does not end in white space, what is behind it is trimmed apart. -/
theorem trimEnd_append (hs : Stops isSpace s.reverse) (t : Text) : trimEnd (s ++ t) = s ++ trimEnd t := by
  have hreverse := trimStart_append hs t.reverse
  rw [trimEnd, List.reverse_append, ← trimStart, hreverse, List.reverse_append, List.reverse_reverse]
  rfl

theorem stops_append {p : Char → Bool} (hne : s ≠ []) (hs : Stops p s) (t : Text) : Stops p (s ++ t) := by
  obtain ⟨c, s, rfl⟩ := List.exists_cons_of_ne_nil hne
  exact hs

/-- A text is trimmed on either side of a part without white space at its ends. -/
theorem trim_around {u : Text} (hne : u ≠ []) (hstart : Stops isSpace u) (hend : Stops isSpace u.reverse)
    (s t : Text) : trim (s ++ u ++ t) = trimStart s ++ u ++ trimEnd t := by
  have hend' : Stops isSpace (trimStart s ++ u).reverse := by
    rw [List.reverse_append]
    exact stops_append (by simpa using hne) hend _
  rw [List.append_assoc, trim, trimStart_append (stops_append hne hstart t), ← List.append_assoc,
    trimEnd_append hend']

end StylePrep.Text
