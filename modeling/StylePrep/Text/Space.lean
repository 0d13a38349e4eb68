import StylePrep.Text.Basic

/-!
# White space around a text

Arguments, values and names are trimmed of every character with the Unicode
property `White_Space`, a larger class than the one the style-sheet grammar
skips between tokens.
-/

namespace StylePrep.Text

/-- The Unicode property `White_Space`. -/
def isSpace (c : Char) : Bool :=
  let n := c.toNat
  (9 ≤ n && n ≤ 13) || n == 0x20 || n == 0x85 || n == 0xa0 || n == 0x1680 ||
    (0x2000 ≤ n && n ≤ 0x200a) || n == 0x2028 || n == 0x2029 || n == 0x202f ||
    n == 0x205f || n == 0x3000

/-- The grammar's white space has the Unicode property. -/
theorem isSpace_of_isAsciiSpace {c : Char} (h : isAsciiSpace c = true) : isSpace c = true := by
  simp only [isAsciiSpace, Bool.or_eq_true, beq_iff_eq] at h
  rcases h with (((rfl | rfl) | rfl) | rfl) | rfl <;> decide

def trimStart (t : Text) : Text := t.dropWhile isSpace

def trimEnd (t : Text) : Text := (t.reverse.dropWhile isSpace).reverse

def trim (t : Text) : Text := trimEnd (trimStart t)

theorem length_trimEnd_le (t : Text) : (trimEnd t).length ≤ t.length := by
  simpa [trimEnd] using (List.dropWhile_suffix isSpace (l := t.reverse)).length_le

/-- Trimming the end keeps a front part of the text. -/
theorem trimEnd_isPrefix (t : Text) : trimEnd t <+: t := by
  have h : t.reverse.dropWhile isSpace <:+ t.reverse := List.dropWhile_suffix isSpace
  simpa [trimEnd] using List.reverse_prefix.mpr h

/-- Taking a piece off a trimmed end leaves a shorter text. -/
theorem length_lt_of_before?_trimEnd {tail t rest : Text} (htail : tail ≠ [])
    (h : before? tail (trimEnd t) = some rest) : rest.length < t.length := by
  have hle := length_trimEnd_le t
  have hpos := List.length_pos_iff.2 htail
  rw [before?_eq_some_iff.1 h, List.length_append] at hle
  omega

end StylePrep.Text
