import Mathlib.Data.List.Basic
import StylePrep.Encoding.Lemmas
import StylePrep.Sprite.Fingerprint

/-!
# What a fingerprint tells apart

The fingerprint of a sheet is a hash, and what is hashed is put together from texts that are closed
by a zero byte and from numbers of a fixed width, with no count of the images. It can be taken
apart again all the same (`Subject.bytes_eq_iff`). Numbers have zero bytes too, but behind the images
there is just one number of four bytes, so a zero byte further on means that one more image comes
(`zero_mem_drop_sourceBytes`, `zero_not_mem_drop_tail`). This is where the bound on times is
needed: the last byte of a time below `2 ^ 120` is zero.

Paths are bytes, and each is hashed as the text that it is shown as (`Subject.shown`). So sheets
with the same fingerprint are made from what is shown alike, or else the hash has a collision; and
what is shown alike is the same if all paths are text.
-/

namespace StylePrep

/-- Only the encoding of a NUL has a zero byte. -/
theorem Text.zero_not_mem_utf8EncodeChar {c : Char} (h : c ≠ '\x00') :
    0 ∉ String.utf8EncodeChar c := by
  have hval : c.toNat = c.val.toNat := rfl
  have hpos : c.toNat ≠ 0 := fun hzero => h (Char.ext (UInt32.toNat_inj.1 hzero))
  intro hzero
  simp only [String.utf8EncodeChar] at hzero
  -- one case for each length; the bytes of the longer ones are at least 128
  split_ifs at hzero <;> simp [← UInt8.toNat_inj] at hzero <;> omega

theorem Text.zero_not_mem_utf8 {t : Text} (h : '\x00' ∉ t) : 0 ∉ t.utf8 := by
  intro hzero
  obtain ⟨c, hc, hbyte⟩ := List.mem_flatMap.1 hzero
  have hne : c ≠ '\x00' := fun hnul => h (hnul ▸ hc)
  exact zero_not_mem_utf8EncodeChar hne hbyte

namespace Encoding

/-- A number that has room to spare ends in a zero byte. -/
theorem littleEndian_succ_of_lt {width n : Nat} (h : n < 256 ^ width) :
    littleEndian (width + 1) n = littleEndian width n ++ [0] := by
  induction width generalizing n with
  | zero =>
    have hzero : n = 0 := by simpa using h
    subst hzero
    rfl
  | succ width ih =>
    have hdiv : n / 256 < 256 ^ width := Nat.div_lt_of_lt_mul (by rwa [Nat.pow_succ'] at h)
    rw [littleEndian, ih hdiv]
    rfl

/-- Digits below 16 are told apart by their characters. -/
theorem hexDigit_inj {m n : Nat} (hm : m < 16) (hn : n < 16) (h : hexDigit m = hexDigit n) :
    m = n := by
  have hdigits : ∀ i j : Fin 16, hexDigit i = hexDigit j → i = j := by decide
  exact congrArg Fin.val (hdigits ⟨m, hm⟩ ⟨n, hn⟩ h)

/-- Bytes are determined by their hexadecimal spelling. -/
theorem hex_injective {a b : Bytes} (h : hex a = hex b) : a = b := by
  induction a generalizing b with
  | nil =>
    cases b with
    | nil => rfl
    | cons y b => cases h
  | cons x a ih =>
    cases b with
    | nil => cases h
    | cons y b =>
      obtain ⟨hhigh, hlow, hrest⟩ : hexDigit (x.toNat / 16) = hexDigit (y.toNat / 16) ∧
          hexDigit (x.toNat % 16) = hexDigit (y.toNat % 16) ∧ hex a = hex b := by
        simpa [hex] using h
      have hx := x.toNat_lt
      have hy := y.toNat_lt
      have hdiv := hexDigit_inj (by omega) (by omega) hhigh
      have hmod := hexDigit_inj (Nat.mod_lt _ (by omega)) (Nat.mod_lt _ (by omega)) hlow
      rw [ih hrest, UInt8.toNat_inj.1 (by omega : x.toNat = y.toNat)]

end Encoding

namespace Fingerprint

open Encoding Text

/-- What a sheet is made from, as far as it is hashed: the pattern, each image with its size and
its time, the spacing and the directory. -/
structure Subject where
  pattern : Text
  sources : List (Bytes × Nat × Nat)
  spacing : Nat
  outDir : Bytes
  deriving DecidableEq, Repr

namespace Subject

def ofTree (tree : Tree) (pattern : Text) (sources : List SpriteSource) (spacing : Nat)
    (outDir : Path) : Subject :=
  ⟨pattern, sources.map fun source => (source.path.text.utf8, fileStamp tree source.path),
    spacing, outDir.text.utf8⟩

def bytes (s : Subject) : Bytes := message s.pattern s.sources s.spacing s.outDir

def key (s : Subject) : Text := hex (Sha256.digest s.bytes)

/-- What the hash sees of it: in the place of each path, the text that the path is shown as. -/
def shown (s : Subject) : Subject :=
  { s with
    sources := s.sources.map fun source => (lossy source.1, source.2)
    outDir := lossy s.outDir }

/-- All paths are text. -/
structure IsText (s : Subject) : Prop where
  sources : ∀ source ∈ s.sources, ∃ t : Text, source.1 = t.utf8
  outDir : ∃ t : Text, s.outDir = t.utf8

theorem shown_eq {s : Subject} (h : s.IsText) : s.shown = s := by
  obtain ⟨t, ht⟩ := h.outDir
  have hsources : (s.sources.map fun source => (lossy source.1, source.2)) = s.sources := by
    refine (List.map_congr_left fun source hsource => ?_).trans (List.map_id _)
    obtain ⟨t, ht⟩ := h.sources source hsource
    exact Prod.ext (by rw [ht, lossy_utf8]; exact ht.symm) rfl
  rw [shown, hsources, ht, lossy_utf8, ← ht]

theorem isText_ofTree (tree : Tree) (pattern : Text) (sources : List SpriteSource) (spacing : Nat)
    (outDir : Path) : (ofTree tree pattern sources spacing outDir).IsText where
  sources := by
    intro source hsource
    obtain ⟨s, -, rfl⟩ := List.mem_map.1 hsource
    exact ⟨_, rfl⟩
  outDir := ⟨_, rfl⟩

end Subject

/-- The path has no NUL, the size has 64 bits and the time has 120. -/
structure Stamped (source : Bytes × Nat × Nat) : Prop where
  path : 0 ∉ source.1
  size : source.2.1 < 2 ^ 64
  time : source.2.2 < 2 ^ 120

/-- No text has a NUL, and every number keeps to its bound. -/
structure Subject.Fits (s : Subject) : Prop where
  pattern : '\x00' ∉ s.pattern
  sources : ∀ source ∈ s.sources, Stamped source
  spacing : s.spacing < 2 ^ 32
  outDir : 0 ∉ s.outDir

/-- Two messages with one hash. -/
def Collision (a b : Bytes) : Prop := a ≠ b ∧ Sha256.digest a = Sha256.digest b

/-! ## Taking a message apart -/

/-- What is closed by a zero byte is found again. -/
theorem append_zero_inj {a b rest rest' : Bytes} (ha : 0 ∉ a) (hb : 0 ∉ b)
    (h : a ++ 0 :: rest = b ++ 0 :: rest') : a = b ∧ rest = rest' := by
  obtain ⟨more, hleft, hright⟩ | ⟨more, hleft, hright⟩ := List.append_eq_append_iff.1 h
  case inl =>
    cases more with
    | nil => exact ⟨by simpa using hleft.symm, by simpa using hright⟩
    | cons c more =>
      obtain ⟨rfl, -⟩ : c = 0 ∧ _ := by simpa [eq_comm] using hright
      exact absurd (hleft ▸ by simp) hb
  case inr =>
    cases more with
    | nil => exact ⟨by simpa using hleft, by simpa [eq_comm] using hright⟩
    | cons c more =>
      obtain ⟨rfl, -⟩ : c = 0 ∧ _ := by simpa [eq_comm] using hright
      exact absurd (hleft ▸ by simp) ha

theorem zero_not_mem_lossy {path : Bytes} (h : 0 ∉ path) : 0 ∉ lossy path := fun hzero =>
  h (zero_mem_of_lossy hzero)

/-- What is hashed for an image is found again, its path as it is shown. -/
theorem sourceBytes_inj {path path' : Bytes} {stamp stamp' : Nat × Nat} {rest rest' : Bytes}
    (hs : Stamped (path, stamp)) (hs' : Stamped (path', stamp'))
    (h : sourceBytes path stamp ++ rest = sourceBytes path' stamp' ++ rest') :
    (lossy path, stamp) = (lossy path', stamp') ∧ rest = rest' := by
  simp only [sourceBytes, List.append_assoc, List.cons_append] at h
  obtain ⟨hpath, hnumbers⟩ :=
    append_zero_inj (zero_not_mem_lossy hs.path) (zero_not_mem_lossy hs'.path) h
  obtain ⟨hsizes, hrest⟩ := List.append_inj hnumbers (by simp)
  obtain ⟨htimes, hrest⟩ := List.append_inj hrest (by simp)
  have hwide : 2 ^ 120 ≤ 256 ^ 16 := by omega
  have hsize : stamp.1 = stamp'.1 := littleEndian_inj hs.size hs'.size hsizes
  have htime : stamp.2 = stamp'.2 :=
    littleEndian_inj (Nat.lt_of_lt_of_le hs.time hwide)
      (Nat.lt_of_lt_of_le hs'.time hwide) htimes
  exact ⟨Prod.ext hpath (Prod.ext hsize htime), hrest⟩

/-- Behind the spacing no zero byte comes. -/
theorem zero_not_mem_drop_tail {outDir : Bytes} (h : 0 ∉ outDir) (spacing : Nat) :
    0 ∉ (littleEndian 4 spacing ++ lossy outDir).drop 4 := by
  rw [List.drop_left' (length_littleEndian 4 spacing)]
  exact zero_not_mem_lossy h

/-- Where one more image comes, a zero byte does: the last one of its time. -/
theorem zero_mem_drop_sourceBytes {path : Bytes} {stamp : Nat × Nat} (h : Stamped (path, stamp))
    (rest : Bytes) : 0 ∈ (sourceBytes path stamp ++ rest).drop 4 := by
  have htime : littleEndian 16 stamp.2 = littleEndian 15 stamp.2 ++ [0] :=
    littleEndian_succ_of_lt h.time
  have hbytes : sourceBytes path stamp ++ rest =
      (lossy path ++ 0 :: littleEndian 8 stamp.1 ++ littleEndian 15 stamp.2) ++ 0 :: rest := by
    simp [sourceBytes, htime]
  rw [hbytes, List.drop_append_of_le_length (by simp)]
  simp

/-- The images, as they are shown, and what stands behind them are found again. -/
theorem sources_inj {sources sources' : List (Bytes × Nat × Nat)} {spacing spacing' : Nat}
    {outDir outDir' : Bytes} (hs : ∀ source ∈ sources, Stamped source)
    (hs' : ∀ source ∈ sources', Stamped source) (hdir : 0 ∉ outDir) (hdir' : 0 ∉ outDir')
    (h : sources.flatMap (fun (path, stamp) => sourceBytes path stamp) ++
        (littleEndian 4 spacing ++ lossy outDir) =
      sources'.flatMap (fun (path, stamp) => sourceBytes path stamp) ++
        (littleEndian 4 spacing' ++ lossy outDir')) :
    (sources.map fun source => (lossy source.1, source.2)) =
        (sources'.map fun source => (lossy source.1, source.2)) ∧
      littleEndian 4 spacing ++ lossy outDir = littleEndian 4 spacing' ++ lossy outDir' := by
  induction sources generalizing sources' with
  | nil =>
    cases sources' with
    | nil => exact ⟨rfl, h⟩
    | cons source' sources' =>
      simp only [List.flatMap_nil, List.nil_append, List.flatMap_cons, List.append_assoc] at h
      refine absurd ?_ (zero_not_mem_drop_tail hdir spacing)
      rw [h]
      exact zero_mem_drop_sourceBytes (hs' source' List.mem_cons_self) _
  | cons source sources ih =>
    cases sources' with
    | nil =>
      simp only [List.flatMap_nil, List.nil_append, List.flatMap_cons, List.append_assoc] at h
      refine absurd ?_ (zero_not_mem_drop_tail hdir' spacing')
      rw [← h]
      exact zero_mem_drop_sourceBytes (hs source List.mem_cons_self) _
    | cons source' sources' =>
      simp only [List.flatMap_cons, List.append_assoc] at h
      obtain ⟨hsource, h⟩ := sourceBytes_inj (hs source List.mem_cons_self)
        (hs' source' List.mem_cons_self) h
      obtain ⟨hsources, htail⟩ := ih (fun s hs₀ => hs s (List.mem_cons_of_mem _ hs₀))
        (fun s hs₀ => hs' s (List.mem_cons_of_mem _ hs₀)) h
      exact ⟨by rw [List.map_cons, List.map_cons, hsources]; exact congrArg (· :: _) hsource, htail⟩

/-- What is hashed is put together from what is shown. -/
theorem Subject.bytes_eq (s : Subject) :
    s.bytes = s.pattern.utf8 ++ 0 :: s.shown.sources.flatMap
      (fun (text, stamp) => text ++ 0 :: littleEndian 8 stamp.1 ++ littleEndian 16 stamp.2) ++
        littleEndian 4 s.spacing ++ s.shown.outDir := by
  rw [shown, List.flatMap_map]
  rfl

/-- What is hashed determines what is shown of all that the sheet is made from. -/
theorem Subject.bytes_eq_iff {s s' : Subject} (hs : s.Fits) (hs' : s'.Fits) :
    s.bytes = s'.bytes ↔ s.shown = s'.shown := by
  constructor
  · intro h
    simp only [bytes, message, List.append_assoc, List.cons_append] at h
    obtain ⟨hpattern, hrest⟩ := append_zero_inj (Text.zero_not_mem_utf8 hs.pattern)
      (Text.zero_not_mem_utf8 hs'.pattern) h
    obtain ⟨hsources, htail⟩ := sources_inj hs.sources hs'.sources hs.outDir hs'.outDir hrest
    obtain ⟨hspacings, hdir⟩ := List.append_inj htail (by simp)
    have hspacing : s.spacing = s'.spacing := littleEndian_inj hs.spacing hs'.spacing hspacings
    rw [shown, shown, utf8_injective hpattern, hsources, hspacing, hdir]
  · intro h
    have hpattern : s.pattern = s'.pattern :=
      show s.shown.pattern = s'.shown.pattern from congrArg pattern h
    have hspacing : s.spacing = s'.spacing :=
      show s.shown.spacing = s'.shown.spacing from congrArg spacing h
    rw [bytes_eq, bytes_eq, h, hpattern, hspacing]

/-- Sheets have one key exactly if what is shown of them is the same or their messages collide. -/
theorem Subject.key_eq_iff {s s' : Subject} (hs : s.Fits) (hs' : s'.Fits) :
    s.key = s'.key ↔ s.shown = s'.shown ∨ Collision s.bytes s'.bytes := by
  rw [← bytes_eq_iff hs hs']
  constructor
  · intro h
    by_cases hbytes : s.bytes = s'.bytes
    · exact .inl hbytes
    · exact .inr ⟨hbytes, hex_injective h⟩
  · rintro (hbytes | ⟨-, hdigest⟩)
    · exact congrArg (fun bytes => hex (Sha256.digest bytes)) hbytes
    · exact congrArg hex hdigest

/-- What is hashed for a sheet determines the pattern, the number and the order of the images,
their sizes and times, the spacing, and the texts that the paths of the images and of the
directory are shown as; up to collisions of the hash its fingerprint does, too. Paths that are
text are shown as they are. -/
theorem message_determines_subject {s s' : Subject} (hs : s.Fits) (hs' : s'.Fits) :
    (s.bytes = s'.bytes ↔ s.shown = s'.shown) ∧
      (s.key = s'.key ↔ s.shown = s'.shown ∨ Collision s.bytes s'.bytes) ∧
      (s.IsText → s'.IsText → (s.shown = s'.shown ↔ s = s')) ∧
      ∀ tree pattern sources spacing outDir,
        Subject.ofTree tree pattern sources spacing outDir = s →
          s.IsText ∧ fingerprint tree pattern sources spacing outDir = s.key := by
  refine ⟨Subject.bytes_eq_iff hs hs', Subject.key_eq_iff hs hs', fun h h' => ?_, ?_⟩
  · rw [Subject.shown_eq h, Subject.shown_eq h']
  · rintro tree pattern sources spacing outDir rfl
    exact ⟨Subject.isText_ofTree _ _ _ _ _, rfl⟩

/-- An image with an empty path is not mistaken for a spacing and a directory. -/
theorem message_of_nameless_source :
    let s : Subject := ⟨['*'], [([], 0x6100000000000000, 1)], 0, []⟩
    let s' : Subject := ⟨['*'], [], 0, [0x61]⟩
    s.Fits ∧ s'.Fits ∧ s.bytes ≠ s'.bytes ∧ (s.key = s'.key → Collision s.bytes s'.bytes) := by
  intro s s'
  have hne : s.shown ≠ s'.shown := fun h =>
    absurd (congrArg Subject.sources h) (by simp [Subject.shown, s, s'])
  have hs : s.Fits := by
    refine ⟨by decide, ?_, by decide, by decide⟩
    rintro source hsource
    obtain rfl : source = ([], 0x6100000000000000, 1) := List.mem_singleton.1 hsource
    exact ⟨by decide, by decide, by decide⟩
  have hs' : s'.Fits := ⟨by decide, fun _ => nofun, by decide, by decide⟩
  obtain ⟨hbytes, hkey, -⟩ := message_determines_subject hs hs'
  exact ⟨hs, hs', fun h => hne (hbytes.1 h), fun h => (hkey.1 h).resolve_left hne⟩

/-- A path that is no text and the text that it is shown as have one key. -/
theorem key_of_replaced_path :
    let s (path : Bytes) : Subject := ⟨"*.png".toList, [(path, 0, 0)], 0, utf8 ['g']⟩
    (s [0xff]).Fits ∧ (s (utf8 ['\ufffd'])).Fits ∧ s [0xff] ≠ s (utf8 ['\ufffd']) ∧
      (s [0xff]).bytes = (s (utf8 ['\ufffd'])).bytes ∧ (s [0xff]).key = (s (utf8 ['\ufffd'])).key := by
  intro s
  have hfits {path : Bytes} (h : 0 ∉ path) : (s path).Fits := by
    refine ⟨show '\x00' ∉ "*.png".toList by decide, ?_, Nat.two_pow_pos 32,
      show 0 ∉ utf8 ['g'] by decide⟩
    rintro source hsource
    obtain rfl : source = (path, 0, 0) := List.mem_singleton.1 hsource
    exact ⟨h, Nat.two_pow_pos 64, Nat.two_pow_pos 120⟩
  have hshown : lossy [0xff] = lossy (utf8 ['\ufffd']) := by decide +kernel
  have hbytes : (s [0xff]).bytes = (s (utf8 ['\ufffd'])).bytes := by
    rw [Subject.bytes_eq, Subject.bytes_eq]
    simp only [Subject.shown, s, List.map_cons, hshown]
  refine ⟨hfits (by decide), hfits (by decide), by decide, hbytes, ?_⟩
  exact congrArg (fun bytes => hex (Sha256.digest bytes)) hbytes

end Fingerprint

end StylePrep
