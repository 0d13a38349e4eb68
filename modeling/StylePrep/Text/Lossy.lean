import StylePrep.Text.Basic

/-!
# Bytes shown as text

The name of a file is a sequence of bytes, which need not be UTF-8. Where a text is made of one
all the same, each piece that is not UTF-8 is shown as a replacement character. A piece is as
long as the start of a character that it is, or a single byte if no character starts with it.

Text is shown as it is (`lossy_utf8`), but names that differ in such pieces alone are shown alike.
-/

namespace StylePrep.Text

/-- The number of bytes of a character by its first one, or zero if there is none. -/
def widthOf (first : UInt8) : Nat :=
  let n := first.toNat
  if n < 0x80 then 1
  else if n < 0xc2 then 0
  else if n < 0xe0 then 2
  else if n < 0xf0 then 3
  else if n < 0xf5 then 4
  else 0

/-- Whether a byte goes on with a character, behind the second byte. -/
def isTail (b : UInt8) : Bool := 0x80 ≤ b.toNat && b.toNat < 0xc0

theorem isTail_digit (n : Nat) : isTail (UInt8.ofNat (n % 64 + 128)) = true := by
  simp [isTail]
  omega

/-- Whether a character that starts with `first` can go on with `second`. Spellings that are
longer than they need to be, surrogates and numbers above the last character are left out. -/
def isSecond (first second : UInt8) : Bool :=
  let n := first.toNat
  let m := second.toNat
  if n = 0xe0 then 0xa0 ≤ m && m < 0xc0
  else if n = 0xed then 0x80 ≤ m && m < 0xa0
  else if n = 0xf0 then 0x90 ≤ m && m < 0xc0
  else if n = 0xf4 then 0x80 ≤ m && m < 0x90
  else isTail second

theorem isSecond_of_isTail {first second : UInt8} (h : isTail second = true)
    (he0 : first.toNat = 0xe0 → 0xa0 ≤ second.toNat) (hed : first.toNat = 0xed → second.toNat < 0xa0)
    (hf0 : first.toNat = 0xf0 → 0x90 ≤ second.toNat) (hf4 : first.toNat = 0xf4 → second.toNat < 0x90) :
    isSecond first second = true := by
  have htail := h
  simp only [isTail, Bool.and_eq_true, decide_eq_true_eq] at htail
  simp only [isSecond]
  split
  case isTrue h₁ => simp [he0 h₁, htail.2]
  split
  case isTrue h₁ => simp [hed h₁, htail.1]
  split
  case isTrue h₁ => simp [hf0 h₁, htail.2]
  split
  case isTrue h₁ => simp [hf4 h₁, htail.1]
  case isFalse => exact h

/-- How many bytes go on with the character that `first` starts. -/
def continued (first : UInt8) (bytes : Bytes) : Nat :=
  match bytes.take (widthOf first - 1) with
  | [] => 0
  | second :: others =>
    if isSecond first second then (others.takeWhile isTail).length + 1 else 0

/-- The encoding of the replacement character. -/
def replacement : Bytes := [0xef, 0xbf, 0xbd]

/-- The encoding of the text that bytes are shown as. -/
def lossy : Bytes → Bytes
  | [] => []
  | first :: bytes =>
    let more := continued first bytes
    (if more + 1 = widthOf first then first :: bytes.take more else replacement) ++
      lossy (bytes.drop more)
termination_by bytes => bytes.length
decreasing_by simp only [List.length_drop, List.length_cons]; omega

theorem continued_append {first : UInt8} {more : Bytes} (hwidth : widthOf first = more.length + 1)
    (hsecond : ∀ second ∈ more.head?, isSecond first second = true)
    (htail : ∀ b ∈ more.tail, isTail b = true) (bytes : Bytes) :
    continued first (more ++ bytes) = more.length := by
  have htake : (more ++ bytes).take (widthOf first - 1) = more := by
    rw [hwidth, Nat.add_sub_cancel, List.take_left]
  unfold continued
  rw [htake]
  cases more with
  | nil => rfl
  | cons second others =>
    have hothers : (others ++ []).takeWhile isTail = others ++ [].takeWhile isTail :=
      List.takeWhile_append_of_pos htail
    rw [List.append_nil, List.takeWhile_nil, List.append_nil] at hothers
    simp [hsecond second rfl, hothers]

/-- A character is shown as it is. -/
theorem lossy_char_append (c : Char) (bytes : Bytes) :
    lossy (String.utf8EncodeChar c ++ bytes) = String.utf8EncodeChar c ++ lossy bytes := by
  have hwhole {first : UInt8} {more : Bytes} (hwidth : widthOf first = more.length + 1)
      (hsecond : ∀ second ∈ more.head?, isSecond first second = true)
      (htail : ∀ b ∈ more.tail, isTail b = true) :
      lossy (first :: more ++ bytes) = first :: more ++ lossy bytes := by
    rw [List.cons_append, lossy, continued_append hwidth hsecond htail, if_pos hwidth.symm,
      List.take_left, List.drop_left]
  have hvalid : c.val.toNat < 55296 ∨ 57343 < c.val.toNat ∧ c.val.toNat < 1114112 := c.valid
  unfold String.utf8EncodeChar
  generalize c.val.toNat = v at hvalid
  dsimp only
  -- one case for each length
  split
  case isTrue => exact hwhole (by simp [widthOf]; grind) nofun nofun
  split
  case isTrue =>
    refine hwhole (by simp [widthOf]; grind) (fun second hsecond => ?_) nofun
    obtain rfl := Option.some.inj hsecond
    refine isSecond_of_isTail (isTail_digit _) ?_ ?_ ?_ ?_ <;> simp <;> omega
  split
  case isTrue =>
    refine hwhole (by simp [widthOf]; grind) (fun second hsecond => ?_) (fun b hb => ?_)
    · obtain rfl := Option.some.inj hsecond
      refine isSecond_of_isTail (isTail_digit _) ?_ ?_ ?_ ?_ <;> simp <;> omega
    · obtain rfl := List.mem_singleton.1 hb
      exact isTail_digit _
  case isFalse =>
    refine hwhole (by simp [widthOf]; grind) (fun second hsecond => ?_) (fun b hb => ?_)
    · obtain rfl := Option.some.inj hsecond
      refine isSecond_of_isTail (isTail_digit _) ?_ ?_ ?_ ?_ <;> simp <;> omega
    · rcases List.mem_cons.1 hb with rfl | hb
      · exact isTail_digit _
      · obtain rfl := List.mem_singleton.1 hb
        exact isTail_digit _

/-- Text is shown as it is. -/
theorem lossy_utf8 (t : Text) : lossy t.utf8 = t.utf8 := by
  induction t with
  | nil => rw [utf8_nil, lossy]
  | cons c t ih => rw [utf8, List.flatMap_cons, lossy_char_append, ← utf8, ih]

/-- A zero byte is one of the name. -/
theorem zero_mem_of_lossy {bytes : Bytes} (h : 0 ∈ lossy bytes) : 0 ∈ bytes := by
  induction bytes using lossy.induct with
  | case1 => rwa [lossy] at h
  | case2 first bytes more ih =>
    rw [lossy] at h
    rcases List.mem_append.1 h with h | h
    · split at h
      · exact List.cons_subset_cons _ (List.take_subset _ _) h
      · exact absurd h (by decide)
    · exact List.mem_cons_of_mem _ (List.mem_of_mem_drop (ih h))

end StylePrep.Text
