import Mathlib.Algebra.Group.Nat.Defs
import StylePrep.Encoding.Bits

/-!
# Numbers, bytes and bits are read back

A number below the bound of its width is determined by its bytes, and is read back
from them and from its bits. Bytes are read back from their bits, and bits from the
bytes that hold them, with the zeros that fill up the last one behind them.
-/

namespace StylePrep.Encoding

/-! ### Numbers as bytes -/

/-- Two numbers below the bound of a width have different bytes. -/
theorem littleEndian_inj {width m n : Nat} (hm : m < 256 ^ width) (hn : n < 256 ^ width)
    (h : littleEndian width m = littleEndian width n) : m = n := by
  induction width generalizing m n with
  | zero => simp at hm hn; omega
  | succ width ih =>
    simp only [littleEndian, List.cons.injEq] at h
    have hlow : m % 256 = n % 256 := by simpa using congrArg UInt8.toNat h.1
    have hhigh := ih (Nat.div_lt_of_lt_mul (by rwa [Nat.pow_succ, Nat.mul_comm] at hm))
      (Nat.div_lt_of_lt_mul (by rwa [Nat.pow_succ, Nat.mul_comm] at hn)) h.2
    omega

@[simp] theorem length_bigEndian (width n : Nat) : (bigEndian width n).length = width := by
  simp [bigEndian]

theorem ofBigEndian_bigEndian {width n : Nat} (h : n < 256 ^ width) :
    ofBigEndian (bigEndian width n) = n := by
  rw [ofBigEndian, bigEndian, List.foldl_reverse]
  induction width generalizing n with
  | zero => simp at h; simp [littleEndian, h]
  | succ width ih =>
    have hlow : (UInt8.ofNat n).toNat = n % 256 := UInt8.toNat_ofNat
    rw [littleEndian, List.foldr_cons, ih (Nat.div_lt_of_lt_mul (by rwa [Nat.pow_succ, Nat.mul_comm] at h)),
      hlow]
    omega

/-! ### Pieces of a list -/

variable {α : Type}

theorem flatten_pieces (n : Nat) (l : List α) : (pieces n l).flatten = l := by
  induction l using pieces.induct n with
  | case1 => rw [pieces, List.flatten_nil]
  | case2 a l ih => rw [pieces, List.flatten_cons, ih, List.cons_append, List.take_append_drop]

theorem length_le_of_mem_pieces {n : Nat} {l piece : List α} (h : piece ∈ pieces n l) :
    piece.length ≤ n + 1 := by
  induction l using pieces.induct n with
  | case1 =>
    rw [pieces] at h
    cases h
  | case2 a l ih =>
    rw [pieces] at h
    rcases List.mem_cons.1 h with rfl | h
    · rw [List.length_cons, List.length_take]
      exact Nat.succ_le_succ (Nat.min_le_left n l.length)
    · exact ih h

/-- A full piece in front of a list is cut off as it is. -/
theorem pieces_append {n : Nat} {piece : List α} (h : piece.length = n + 1) (l : List α) :
    pieces n (piece ++ l) = piece :: pieces n l := by
  cases piece with
  | nil => cases h
  | cons a piece =>
    have hlength : piece.length = n := by simpa using h
    rw [List.cons_append, pieces, List.take_left' hlength, List.drop_left' hlength]

/-- Full pieces are found again. -/
theorem pieces_flatten {n : Nat} {ps : List (List α)} (h : ∀ piece ∈ ps, piece.length = n + 1) :
    pieces n ps.flatten = ps := by
  induction ps with
  | nil => rw [List.flatten_nil, pieces]
  | cons piece ps ih =>
    obtain ⟨hpiece, hps⟩ := List.forall_mem_cons.1 h
    rw [List.flatten_cons, pieces_append hpiece, ih hps]

/-! ### Bits -/

namespace Bits

/-- A number that fits the width is read back from its bits. -/
theorem toNat_ofNat {width n : Nat} (h : n < 2 ^ width) : toNat (ofNat width n) = n := by
  induction width generalizing n with
  | zero => simp at h; simp [ofNat, toNat, h]
  | succ width ih =>
    have ih := ih (n := n / 2) (by rw [Nat.pow_succ] at h; omega)
    simp only [ofNat, toNat, List.foldr_cons] at ih ⊢
    rw [ih]
    by_cases odd : n % 2 = 1 <;> simp [odd] <;> omega

/-- Bits are read back from their number, with zeros up to the width behind them. -/
theorem ofNat_toNat {width : Nat} {bits : Bits} (h : bits.length ≤ width) :
    ofNat width (toNat bits) = bits ++ List.replicate (width - bits.length) false := by
  induction width generalizing bits with
  | zero =>
    obtain rfl := List.length_eq_zero_iff.1 (Nat.le_zero.1 h)
    rfl
  | succ width ih =>
    cases bits with
    | nil =>
      have hzeros : ofNat width (toNat []) = List.replicate width false := ih (Nat.zero_le width)
      simpa [ofNat, toNat, List.replicate_succ] using hzeros
    | cons bit bits =>
      have ih := ih (Nat.le_of_succ_le_succ h)
      have hle : bit.toNat ≤ 1 := Bool.toNat_le bit
      have hbit : (2 * toNat bits + bit.toNat) % 2 = bit.toNat := by omega
      have hrest : (2 * toNat bits + bit.toNat) / 2 = toNat bits := by omega
      have hnumber : toNat (bit :: bits) = 2 * toNat bits + bit.toNat := rfl
      rw [hnumber, ofNat, hbit, hrest, ih]
      cases bit <;> simp

theorem toNat_lt (bits : Bits) : toNat bits < 2 ^ bits.length := by
  induction bits with
  | nil => exact Nat.one_pos
  | cons bit bits ih =>
    have hnumber : toNat (bit :: bits) = 2 * toNat bits + bit.toNat := rfl
    have hbit : bit.toNat ≤ 1 := Bool.toNat_le bit
    rw [hnumber, List.length_cons, Nat.pow_succ]
    omega

/-- A number is read back from its bits in front of others. -/
theorem read_ofNat_append {width n : Nat} (h : n < 2 ^ width) (rest : Bits) :
    read width (ofNat width n ++ rest) = some (n, rest) := by
  rw [read, if_neg (by simp), List.take_left' (length_ofNat width n),
    List.drop_left' (length_ofNat width n), toNat_ofNat h]

theorem ofNat_mod (width n : Nat) : ofNat width (n % 2 ^ width) = ofNat width n := by
  induction width generalizing n with
  | zero => rfl
  | succ width ih =>
    have hlow : n % 2 ^ (width + 1) % 2 = n % 2 := Nat.mod_mod_of_dvd n ⟨2 ^ width, Nat.pow_succ'⟩
    have hhigh : n % 2 ^ (width + 1) / 2 = n / 2 % 2 ^ width := by
      rw [Nat.pow_succ', Nat.mod_mul_right_div_self]
    rw [ofNat, ofNat, hlow, hhigh, ih]

theorem ofNat_add (m k n : Nat) : ofNat (m + k) n = ofNat m n ++ ofNat k (n / 2 ^ m) := by
  induction m generalizing n with
  | zero => simp [ofNat]
  | succ m ih => rw [Nat.succ_add, ofNat, ofNat, ih, Nat.div_div_eq_div_mul, Nat.pow_succ', List.cons_append]

@[simp] theorem length_ofBytes (bytes : Bytes) : (ofBytes bytes).length = 8 * bytes.length := by
  induction bytes with
  | nil => rfl
  | cons b bytes ih =>
    rw [ofBytes, List.flatMap_cons, ← ofBytes, List.length_append, length_ofNat, ih, List.length_cons]
    omega

@[simp] theorem ofBytes_append (a b : Bytes) : ofBytes (a ++ b) = ofBytes a ++ ofBytes b :=
  List.flatMap_append

theorem ofBytes_littleEndian (width n : Nat) :
    ofBytes (littleEndian width n) = ofNat (8 * width) n := by
  induction width generalizing n with
  | zero => rfl
  | succ width ih =>
    have hlow : (UInt8.ofNat n).toNat = n % 2 ^ 8 := UInt8.toNat_ofNat
    rw [littleEndian, ofBytes, List.flatMap_cons, ← ofBytes, ih, hlow, ofNat_mod, Nat.mul_succ,
      Nat.add_comm, ofNat_add]
    rfl

theorem toBytes_ofBytes (bytes : Bytes) : toBytes (ofBytes bytes) = bytes := by
  have hpieces : pieces 7 (ofBytes bytes) = bytes.map fun b => ofNat 8 b.toNat := by
    rw [ofBytes, List.flatMap_def]
    refine pieces_flatten fun piece hpiece => ?_
    obtain ⟨b, -, rfl⟩ := List.mem_map.1 hpiece
    exact length_ofNat 8 _
  rw [toBytes, hpieces, List.map_map]
  refine (List.map_congr_left fun b _ => ?_).trans (List.map_id _)
  rw [Function.comp_apply, toNat_ofNat b.toNat_lt, UInt8.ofNat_toNat, id]

/-- The bytes that hold bits have them in front of what fills up the last one. -/
theorem ofBytes_toBytes (bits : Bits) : ∃ filling, ofBytes (toBytes bits) = bits ++ filling := by
  have hpiece {piece : Bits} (h : piece.length ≤ 8) : ofNat 8 (UInt8.ofNat (toNat piece)).toNat =
      piece ++ List.replicate (8 - piece.length) false := by
    have hbyte : (UInt8.ofNat (toNat piece)).toNat = toNat piece % 2 ^ 8 := UInt8.toNat_ofNat
    rw [hbyte, ofNat_mod, ofNat_toNat h]
  induction bits using pieces.induct 7 with
  | case1 => exact ⟨[], by rw [toBytes, pieces]; rfl⟩
  | case2 bit bits ih =>
    obtain ⟨filling, hfilling⟩ := ih
    have hhead : ofNat 8 (UInt8.ofNat (toNat (bit :: bits.take 7))).toNat = _ :=
      hpiece (Nat.succ_le_succ (List.length_take_le 7 bits))
    rw [toBytes, pieces, List.map_cons, ofBytes, List.flatMap_cons, ← ofBytes, ← toBytes, hhead, hfilling]
    by_cases hfull : 7 ≤ bits.length
    · refine ⟨filling, ?_⟩
      simp [Nat.min_eq_left hfull]
      rw [← List.append_assoc, List.take_append_drop]
    · have hshort := Nat.le_of_not_le hfull
      rw [List.take_of_length_le hshort, List.drop_of_length_le hshort, List.nil_append]
      exact ⟨_, List.append_assoc _ _ _⟩

end Bits

end StylePrep.Encoding
