import Mathlib.Data.List.TakeWhile
import StylePrep.Encoding.Deflate
import StylePrep.Encoding.Lemmas

/-!
# Compressed data is read back

What is compressed can be read again: `Inflate.inflate` undoes both `Deflate.deflate` and
`Deflate.store`.

A reader takes as many bits as it needs, and what comes behind them makes no difference to it
(the lemmas named `_append`). So the start of the block, which is always the same, is read once
and for all (`readCodeLengths_blockStart`), and so are the words of its code (`read_word`). What
tokens mean is said by `Spells`, without bits. The bits of tokens are read as what they spell
(`readSymbols_of_spells`), and those of a row spell the row (`Spells.rowTokens`).
-/

namespace StylePrep.Encoding

/-! ### What comes behind makes no difference -/

theorem Bits.read_append {width n : Nat} {bits left : Bits} (h : read width bits = some (n, left))
    (rest : Bits) : read width (bits ++ rest) = some (n, left ++ rest) := by
  unfold read at h ⊢
  split at h
  · cases h
  · rename_i hlong
    obtain ⟨rfl, rfl⟩ : toNat (bits.take width) = n ∧ bits.drop width = left := by simpa using h
    rw [if_neg (by rw [List.length_append]; omega), List.take_append_of_le_length (by omega),
      List.drop_append_of_le_length (by omega)]

theorem Huffman.Tree.read_append {tree : Tree} {bits left : Bits} {symbol : Nat}
    (h : tree.read bits = some (symbol, left)) (rest : Bits) :
    tree.read (bits ++ rest) = some (symbol, left ++ rest) := by
  induction tree generalizing bits with
  | dead => simp [read] at h
  | leaf s =>
    obtain ⟨rfl, rfl⟩ : s = symbol ∧ bits = left := by simpa [read] using h
    rfl
  | fork zero one ihzero ihone =>
    cases bits with
    | nil => simp [read] at h
    | cons bit bits =>
      rw [List.cons_append, read]
      rw [read] at h
      split at h
      case isTrue hbit => rw [if_pos hbit, ihone h]
      case isFalse hbit => rw [if_neg hbit, ihzero h]

namespace Inflate

theorem readTriples_append {count : Nat} {bits left : Bits} {ns : List Nat}
    (h : readTriples count bits = some (ns, left)) (rest : Bits) :
    readTriples count (bits ++ rest) = some (ns, left ++ rest) := by
  induction count generalizing bits ns with
  | zero =>
    obtain ⟨rfl, rfl⟩ : [] = ns ∧ bits = left := by simpa [readTriples] using h
    rfl
  | succ count ih =>
    obtain ⟨⟨n, bits₁⟩, hread, h⟩ := Option.bind_eq_some_iff.1 h
    obtain ⟨⟨others, bits₂⟩, hothers, h⟩ := Option.bind_eq_some_iff.1 h
    cases h
    rw [readTriples, Bits.read_append hread rest]
    simp [ih hothers]

theorem readLengths_append {code : Huffman.Tree} {count fuel : Nat} {bits left : Bits}
    {found lengths : List Nat} (h : readLengths code count fuel bits found = some (lengths, left))
    (rest : Bits) :
    readLengths code count fuel (bits ++ rest) found = some (lengths, left ++ rest) := by
  induction fuel generalizing bits found with
  | zero => simp [readLengths] at h
  | succ fuel ih =>
    rw [readLengths] at h ⊢
    split at h
    · rename_i hfull
      rw [if_pos hfull]
      split at h
      · rename_i hexact
        obtain ⟨rfl, rfl⟩ : found.reverse = lengths ∧ bits = left := by simpa using h
        rw [if_pos hexact]
      · cases h
    · rename_i hmore
      rw [if_neg hmore]
      obtain ⟨⟨symbol, bits₁⟩, hread, h⟩ := Option.bind_eq_some_iff.1 h
      rw [Huffman.Tree.read_append hread rest]
      dsimp only [Option.bind_eq_bind, Option.bind_some] at h ⊢
      split at h
      · rename_i hlow
        rw [if_pos hlow]
        exact ih h
      · rename_i hhigh
        rw [if_neg hhigh]
        -- the last length or zeros are repeated
        have hrepeated {repeated least width : Nat}
            (h : (Bits.read width bits₁).bind (fun more => readLengths code count fuel more.2
              (List.replicate (least + more.1) repeated ++ found)) = some (lengths, left)) :
            (Bits.read width (bits₁ ++ rest)).bind (fun more => readLengths code count fuel more.2
              (List.replicate (least + more.1) repeated ++ found)) = some (lengths, left ++ rest) := by
          obtain ⟨⟨more, bits₂⟩, hmore, h⟩ := Option.bind_eq_some_iff.1 h
          rw [Bits.read_append hmore rest]
          exact ih h
        split at h
        · rename_i hlast
          rw [if_pos hlast]
          obtain ⟨_, hhead, h⟩ := Option.bind_eq_some_iff.1 h
          rw [hhead]
          exact hrepeated h
        · rename_i hother
          rw [if_neg hother]
          split at h
          · rename_i hshort
            rw [if_pos hshort]
            exact hrepeated h
          · rename_i hlong
            rw [if_neg hlong]
            exact hrepeated h

theorem readCodeLengths_append {bits left : Bits} {lengths : List Nat × List Nat}
    (h : readCodeLengths bits = some (lengths, left)) (rest : Bits) :
    readCodeLengths (bits ++ rest) = some (lengths, left ++ rest) := by
  obtain ⟨⟨symbols, bits₁⟩, hsymbols, h⟩ := Option.bind_eq_some_iff.1 h
  obtain ⟨⟨distances, bits₂⟩, hdistances, h⟩ := Option.bind_eq_some_iff.1 h
  obtain ⟨⟨given, bits₃⟩, hgiven, h⟩ := Option.bind_eq_some_iff.1 h
  obtain ⟨⟨triples, bits₄⟩, htriples, h⟩ := Option.bind_eq_some_iff.1 h
  obtain ⟨⟨found, bits₅⟩, hfound, h⟩ := Option.bind_eq_some_iff.1 h
  cases h
  rw [readCodeLengths, Bits.read_append hsymbols rest]
  simp [Bits.read_append hdistances rest, Bits.read_append hgiven rest, readTriples_append htriples rest,
    readLengths_append hfound rest]

/-- Repeating the byte before. -/
theorem repeatBack_one (length : Nat) (b : UInt8) (out : Bytes) :
    repeatBack 1 length (b :: out) = some (List.replicate length b ++ b :: out) := by
  induction length generalizing out with
  | zero => rfl
  | succ length ih =>
    change repeatBack 1 length (b :: b :: out) = _
    rw [ih, List.replicate_succ', List.append_assoc, List.singleton_append]

end Inflate

/-! ### Words -/

/-- A symbol whose length is among those that words are given to has a word. -/
theorem Huffman.exists_mem_wordsFrom {lengths : List Nat} {symbol length : Nat}
    (h : lengths[symbol]? = some length) {count least : Nat} (hleast : least ≤ length)
    (hlength : length < least + count) (first : Nat) :
    ∃ word, (symbol, word) ∈ wordsFrom lengths count least first := by
  induction count generalizing least first with
  | zero => omega
  | succ count ih =>
    rw [wordsFrom]
    rcases Nat.eq_or_lt_of_le hleast with rfl | hlt
    · have hsymbol : symbol ∈ symbolsOfLength lengths least :=
        List.mem_filterMap.2 ⟨(least, symbol), List.mem_zipIdx_iff_getElem?.2 h, by simp⟩
      obtain ⟨n, hn⟩ := List.getElem?_of_mem hsymbol
      refine ⟨_, List.mem_append_left _ (List.mem_map.2 ⟨(symbol, first + n), ?_, rfl⟩)⟩
      exact List.mk_add_mem_zipIdx_iff_getElem?.2 hn
    · obtain ⟨word, hword⟩ := ih hlt (by omega) (2 * (first + (symbolsOfLength lengths least).length))
      exact ⟨word, List.mem_append_right _ hword⟩

/-- Words are at least as long as the least length that is given to any. -/
theorem Huffman.le_length_of_mem_wordsFrom {lengths : List Nat} {entry : Nat × Bits}
    {count least first : Nat} (h : entry ∈ wordsFrom lengths count least first) :
    least ≤ entry.2.length := by
  induction count generalizing least first with
  | zero => cases h
  | succ count ih =>
    rw [wordsFrom] at h
    rcases List.mem_append.1 h with h | h
    · obtain ⟨⟨symbol, n⟩, -, rfl⟩ := List.mem_map.1 h
      simp
    · exact Nat.le_of_succ_le (ih h)

namespace Deflate

open Inflate

/-- The word lengths of the code that the start of the block describes. -/
def codeLengths : List Nat × List Nat :=
  ((readCodeLengths (blockStart.drop 3)).map Prod.fst).getD ([], [])

def codes : Codes := .ofLengths codeLengths.1 codeLengths.2

theorem readCodeLengths_blockStart :
    readCodeLengths (blockStart.drop 3) = some (codeLengths, []) := by decide +kernel

theorem read_codeWords : ∀ entry ∈ codeWords, codes.symbols.read entry.2 = some (entry.1, []) := by
  decide +kernel

theorem codeLengths_bounds : codeLengths.1.length = 286 ∧ ∀ length ∈ codeLengths.1,
    1 ≤ length ∧ length ≤ Huffman.maxLength := by decide +kernel

theorem codeWords_eq : codeWords = Huffman.words codeLengths.1 := by
  have hread := readCodeLengths_blockStart
  -- the lengths are given a name, lest they are computed
  generalize codeLengths = lengths at hread ⊢
  obtain ⟨symbols, distances⟩ := lengths
  unfold codeWords
  simp only [hread]

/-- Every symbol has a word. -/
theorem mem_codeWords {symbol : Nat} (h : symbol < 286) : (symbol, word symbol) ∈ codeWords := by
  obtain ⟨hcount, hbounds⟩ := codeLengths_bounds
  have hsymbol : symbol < codeLengths.1.length := by omega
  obtain ⟨least, most⟩ := hbounds _ (List.getElem_mem hsymbol)
  obtain ⟨bits, hbits⟩ : ∃ bits, (symbol, bits) ∈ Huffman.words codeLengths.1 :=
    Huffman.exists_mem_wordsFrom (List.getElem?_eq_getElem hsymbol) least (Nat.lt_one_add_iff.2 most) 0
  rw [← codeWords_eq] at hbits
  obtain ⟨bits', hlookup⟩ : ∃ bits', codeWords.lookup symbol = some bits' := by
    cases hlookup : codeWords.lookup symbol with
    | some bits' => exact ⟨bits', rfl⟩
    | none => simpa using List.lookup_eq_none_iff.1 hlookup _ hbits
  obtain ⟨before, after, hmem, -⟩ := List.lookup_eq_some_iff.1 hlookup
  rw [word, hlookup, Option.getD_some, hmem]
  exact List.mem_append_right _ List.mem_cons_self

theorem read_word {symbol : Nat} (h : symbol < 286) (rest : Bits) :
    codes.symbols.read (word symbol ++ rest) = some (symbol, rest) := by
  have hread := Huffman.Tree.read_append (read_codeWords (symbol, word symbol) (mem_codeWords h)) rest
  dsimp only at hread
  rwa [List.nil_append] at hread

theorem length_word_pos {symbol : Nat} (h : symbol < 286) : 0 < (word symbol).length := by
  have hmem := mem_codeWords h
  rw [codeWords_eq, Huffman.words] at hmem
  have hlength := Huffman.le_length_of_mem_wordsFrom hmem
  dsimp only at hlength
  omega

/-! ### Tokens -/

/-- What tokens spell: they add to the bytes before them, the latest first. -/
inductive Spells : Bytes → List Token → Bytes → Prop
  | nil (out : Bytes) : Spells out [] out
  | byte {b : UInt8} {out out' : Bytes} {tokens : List Token} (h : Spells (b :: out) tokens out') :
      Spells out (.byte b :: tokens) out'
  | again {count : Nat} {b : UInt8} {out out' : Bytes} {tokens : List Token} (least : 3 ≤ count)
      (most : count ≤ maxRepeat) (h : Spells (List.replicate count b ++ b :: out) tokens out') :
      Spells (b :: out) (.again count :: tokens) out'

namespace Spells

variable {out mid out' : Bytes} {tokens others : List Token}

theorem append (h : Spells out tokens mid) (h' : Spells mid others out') :
    Spells out (tokens ++ others) out' := by
  induction h with
  | nil => exact h'
  | byte _ ih => exact .byte (ih h')
  | again least most _ ih => exact .again least most (ih h')

theorem bytes (bs out : Bytes) : Spells out (bs.map .byte) (bs.reverse ++ out) := by
  induction bs generalizing out with
  | nil => exact .nil out
  | cons b bs ih =>
    rw [List.reverse_cons, List.append_assoc]
    exact .byte (ih _)

theorem againZeros {count n : Nat} (least : 3 ≤ count) (most : count ≤ maxRepeat) (hn : 0 < n)
    (out : Bytes) : Spells (List.replicate n 0 ++ out) [.again count]
      (List.replicate (count + n) 0 ++ out) := by
  obtain ⟨n, rfl⟩ : ∃ m, n = m + 1 := ⟨n - 1, by omega⟩
  have hsum : List.replicate (count + (n + 1)) (0 : UInt8) =
      List.replicate count 0 ++ List.replicate (n + 1) 0 := List.replicate_append_replicate.symm
  rw [hsum, List.append_assoc]
  exact .again least most (.nil _)

theorem moreZeros {n : Nat} (hn : 0 < n) (count : Nat) (out : Bytes) :
    Spells (List.replicate n 0 ++ out) (Deflate.moreZeros count)
      (List.replicate (count + n) 0 ++ out) := by
  have hlong (k : Nat) : Spells (List.replicate n 0 ++ out) (List.replicate k (.again maxRepeat))
      (List.replicate (maxRepeat * k + n) 0 ++ out) := by
    induction k with
    | zero =>
      rw [Nat.mul_zero, Nat.zero_add]
      exact .nil _
    | succ k ih =>
      have hlast := againZeros (by decide) (Nat.le_refl maxRepeat) (by omega : 0 < maxRepeat * k + n) out
      rw [List.replicate_succ', Nat.mul_succ, Nat.add_comm _ maxRepeat, Nat.add_assoc]
      exact ih.append hlast
  have hlong := hlong (count / maxRepeat)
  have hcount : count + n = count % maxRepeat + (maxRepeat * (count / maxRepeat) + n) := by
    rw [← Nat.add_assoc, Nat.mod_add_div]
  have hrest : count % maxRepeat < maxRepeat := Nat.mod_lt _ (by decide)
  rw [Deflate.moreZeros, hcount]
  refine hlong.append ?_
  dsimp only
  split
  · exact againZeros (by omega) (by omega) (by omega) out
  · have hbytes := bytes (List.replicate (count % maxRepeat) 0)
      (List.replicate (maxRepeat * (count / maxRepeat) + n) 0 ++ out)
    rwa [List.map_replicate, List.reverse_replicate, ← List.append_assoc, List.replicate_append_replicate]
      at hbytes

theorem zeros (count : Nat) (out : Bytes) :
    Spells out (Deflate.zeros count) (List.replicate count 0 ++ out) := by
  cases count with
  | zero => exact .nil out
  | succ count => exact .byte (moreZeros Nat.one_pos count out)

theorem takeWhile_zeros (bs : Bytes) :
    bs.takeWhile (· = 0) = List.replicate (bs.takeWhile (· = 0)).length 0 := by
  refine List.eq_replicate_iff.2 ⟨rfl, fun b hb => ?_⟩
  simpa using List.mem_takeWhile_imp hb

/-- Zeros in front and at the end of a group that has other bytes are apart from one another. -/
theorem length_zeros_add_le {group : Bytes} (h : ¬ group.all (· = 0) = true) :
    (group.takeWhile (· = 0)).length + (group.reverse.takeWhile (· = 0)).length ≤ group.length := by
  obtain ⟨b, rest, hrest⟩ : ∃ b rest, group.dropWhile (· = 0) = b :: rest := by
    refine List.exists_cons_of_ne_nil fun hnil => h ?_
    simpa [List.dropWhile_eq_nil_iff] using hnil
  have hb : b ≠ 0 := by
    simpa [hrest] using List.dropWhile_get_zero_not (fun b : UInt8 => decide (b = 0)) group (by simp [hrest])
  have hgroup : group = group.takeWhile (· = 0) ++ b :: rest := by
    rw [← hrest, List.takeWhile_append_dropWhile]
  have hend : (group.reverse.takeWhile (· = 0)).length ≤ rest.length := by
    rw [hgroup, List.reverse_append, List.reverse_cons, List.append_assoc, List.takeWhile_append]
    split
    · simp [hb]
    · simpa using (List.takeWhile_prefix (fun b : UInt8 => decide (b = 0)) (l := rest.reverse)).length_le
  have hlength := congrArg List.length hgroup
  rw [List.length_append, List.length_cons] at hlength
  omega

/-- A group without the zeros around it. -/
theorem group_eq {group : Bytes} {front back : Nat} (hle : front + back ≤ group.length)
    (hfront : group.take front = List.replicate front 0)
    (hback : group.reverse.take back = List.replicate back 0) :
    group = List.replicate front 0 ++
      ((group.take (group.length - back)).drop front ++ List.replicate back 0) := by
  have hend : group.drop (group.length - back) = List.replicate back 0 := by
    rw [← List.reverse_reverse (group.drop _), ← List.take_reverse, hback, List.reverse_replicate]
  have hstart : (group.take (group.length - back)).take front = List.replicate front 0 := by
    rw [List.take_take, Nat.min_eq_left (by omega), hfront]
  conv =>
    lhs
    rw [← List.take_append_drop (group.length - back) group,
      ← List.take_append_drop front (group.take (group.length - back))]
  rw [hend, hstart, List.append_assoc]

theorem take_zeros (bs : Bytes) : bs.take (bs.takeWhile (· = 0)).length =
    List.replicate (bs.takeWhile (· = 0)).length 0 := by
  rw [← takeWhile_zeros]
  exact (List.prefix_iff_eq_take.1 (List.takeWhile_prefix _)).symm

/-- In a group that has other bytes than zeros, those that are written stand between the zeros
that are written with the run before them and those that start the next run. -/
theorem otherGroup {group : Bytes} (h : ¬ group.all (· = 0) = true) (run : Nat) (out : Bytes) :
    let front := if run = 0 then 0 else (group.takeWhile (· = 0)).length
    let back := (group.reverse.takeWhile (· = 0)).length
    ∃ mid, Spells out (Deflate.zeros (run + front) ++
        ((group.take (group.length - back)).drop front).map .byte) mid ∧
      group.reverse ++ (List.replicate run 0 ++ out) = List.replicate back 0 ++ mid := by
  intro front back
  have hfront : group.take front = List.replicate front 0 ∧
      front ≤ (group.takeWhile (· = 0)).length := by
    unfold front
    split
    · exact ⟨rfl, Nat.zero_le _⟩
    · exact ⟨take_zeros group, Nat.le_refl _⟩
  have hapart := Nat.le_trans (Nat.add_le_add_right hfront.2 _) (length_zeros_add_le h)
  have hgroup := group_eq hapart hfront.1 (take_zeros group.reverse)
  have hsum : List.replicate (run + front) (0 : UInt8) =
      List.replicate front 0 ++ List.replicate run 0 := by
    rw [List.replicate_append_replicate, Nat.add_comm]
  refine ⟨_, (zeros (run + front) out).append (bytes _ _), ?_⟩
  generalize (group.take (group.length - back)).drop front = middle at hgroup ⊢
  rw [hgroup, hsum]
  simp only [List.reverse_append, List.reverse_replicate, List.append_assoc, back]

/-- The tokens of the groups of a row, behind zeros that are still to be written, spell those
zeros and the row. -/
theorem groupTokens (run : Nat) (row out : Bytes) :
    Spells out (Deflate.groupTokens run (pieces (groupSize - 1) row))
      (row.reverse ++ (List.replicate run 0 ++ out)) := by
  induction row using pieces.induct (groupSize - 1) generalizing run out with
  | case1 =>
    rw [pieces, Deflate.groupTokens]
    exact zeros run out
  | case2 b row ih =>
    rw [pieces, Deflate.groupTokens]
    generalize hgroup : b :: row.take (groupSize - 1) = group
    have hlength : group.length = 1 + min 7 row.length := by
      rw [← hgroup, List.length_cons, List.length_take, Nat.add_comm, groupSize]
    have hrow : (b :: row).reverse ++ (List.replicate run 0 ++ out) =
        (row.drop (groupSize - 1)).reverse ++ (group.reverse ++ (List.replicate run 0 ++ out)) := by
      rw [← List.append_assoc (row.drop (groupSize - 1)).reverse, ← List.reverse_append, ← hgroup,
        List.cons_append, List.take_append_drop]
    rw [hrow]
    split
    case isTrue hshort =>
      -- this is the last group
      rw [List.drop_of_length_le (by rw [groupSize] at hshort ⊢; omega)]
      exact (zeros run out).append (bytes group _)
    case isFalse hlong =>
    replace hlength : group.length = groupSize := by
      rw [groupSize] at hlong ⊢
      omega
    split
    case isTrue hzeros =>
      have hgroup : group = List.replicate groupSize 0 :=
        List.eq_replicate_iff.2 ⟨hlength, fun b hb => by simpa using List.all_eq_true.1 hzeros b hb⟩
      rw [hgroup, List.reverse_replicate, ← List.append_assoc (List.replicate groupSize 0),
        List.replicate_append_replicate, Nat.add_comm groupSize]
      exact ih (run + groupSize) out
    case isFalse hother =>
      obtain ⟨mid, hspells, hmid⟩ := otherGroup hother run out
      rw [hlength] at hspells
      rw [hmid]
      exact hspells.append (ih _ mid)

theorem rowTokens (row out : Bytes) : Spells out (Deflate.rowTokens row) (row.reverse ++ out) :=
  groupTokens 0 row out

theorem flatMap_rowTokens (rows : List Bytes) (out : Bytes) :
    Spells out (rows.flatMap Deflate.rowTokens) (rows.flatten.reverse ++ out) := by
  induction rows generalizing out with
  | nil => exact .nil out
  | cons row rows ih =>
    rw [List.flatMap_cons, List.flatten_cons, List.reverse_append, List.append_assoc]
    exact (rowTokens row out).append (ih _)

end Spells

/-! ### Reading a block -/

theorem classOf_bounds {count : Nat} (least : 3 ≤ count) (most : count ≤ maxRepeat) :
    ∃ index first width, classOf count = (index, Bits.ofNat width (count - first)) ∧
      lengthClasses[index]? = some (first, width) ∧ first ≤ count ∧ count - first < 2 ^ width := by
  have hall : ∀ count ≤ maxRepeat, 3 ≤ count →
      let index := (lengthClasses.filter (·.1 ≤ count)).length - 1
      let entry := lengthClasses.getD index (0, 0)
      lengthClasses[index]? = some entry ∧ entry.1 ≤ count ∧ count - entry.1 < 2 ^ entry.2 := by
    decide +kernel
  obtain ⟨hentry, hfirst, hwidth⟩ := hall count most least
  exact ⟨_, _, _, rfl, hentry, hfirst, hwidth⟩

/-- There is one distance, whose word is a single bit. -/
theorem read_distance (rest : Bits) : codes.distances.read (false :: rest) = some (0, rest) := by
  have hread : codes.distances.read [false] = some (0, []) := by decide +kernel
  exact Huffman.Tree.read_append hread rest

variable {out out' : Bytes} {tokens : List Token}

theorem readMember_eq {classes : List (Nat × Nat)} {index first width n : Nat}
    (h : classes[index]? = some (first, width)) (hn : n < 2 ^ width) (rest : Bits) :
    readMember classes index (Bits.ofNat width n ++ rest) = some (first + n, rest) := by
  rw [readMember, h]
  simp [Bits.read_ofNat_append hn]

/-- The bits of tokens are read as what the tokens spell. -/
theorem readSymbols_of_spells (h : Spells out tokens out') {fuel : Nat}
    (hfuel : tokens.length < fuel) (rest : Bits) :
    readSymbols codes fuel (tokens.flatMap tokenBits ++ (word endSymbol ++ rest)) out =
      some (out', rest) := by
  induction h generalizing fuel with
  | nil out =>
    obtain ⟨fuel, rfl⟩ := Nat.exists_eq_add_one_of_ne_zero (Nat.ne_zero_of_lt hfuel)
    rw [List.flatMap_nil, List.nil_append, readSymbols, read_word (by decide)]
    rfl
  | @byte b out out' tokens _ ih =>
    obtain ⟨fuel, rfl⟩ := Nat.exists_eq_add_one_of_ne_zero (Nat.ne_zero_of_lt hfuel)
    have hb : b.toNat < endSymbol := b.toNat_lt
    rw [List.flatMap_cons, tokenBits, List.append_assoc, readSymbols,
      read_word (Nat.lt_trans hb (by decide))]
    dsimp only [Option.bind_eq_bind, Option.bind_some]
    rw [if_pos hb, UInt8.ofNat_toNat]
    exact ih (by simpa using hfuel)
  | @again count b out out' tokens least most _ ih =>
    obtain ⟨fuel, rfl⟩ := Nat.exists_eq_add_one_of_ne_zero (Nat.ne_zero_of_lt hfuel)
    obtain ⟨index, first, width, hclass, hentry, hfirst, hwidth⟩ := classOf_bounds least most
    have hindex : index < 29 := (List.getElem?_eq_some_iff.1 hentry).1
    have hlength := readMember_eq hentry hwidth
      (false :: (tokens.flatMap tokenBits ++ (word endSymbol ++ rest)))
    have hdistance (bits : Bits) : readMember distanceClasses 0 bits = some (1, bits) :=
      readMember_eq (n := 0) rfl (Nat.two_pow_pos 0) bits
    rw [Nat.add_sub_cancel' hfirst] at hlength
    have hbits : tokenBits (.again count) ++ tokens.flatMap tokenBits ++ (word endSymbol ++ rest) =
        word (firstLength + index) ++ (Bits.ofNat width (count - first) ++
          (false :: (tokens.flatMap tokenBits ++ (word endSymbol ++ rest)))) := by
      rw [tokenBits, hclass]
      simp
    rw [List.flatMap_cons, hbits, readSymbols, read_word (by rw [firstLength]; omega)]
    dsimp only [Option.bind_eq_bind, Option.bind_some]
    rw [if_neg (by rw [firstLength, endSymbol]; omega), if_neg (by rw [firstLength, endSymbol]; omega),
      Nat.add_sub_cancel_left, hlength]
    dsimp only [Option.bind_some]
    rw [read_distance]
    dsimp only [Option.bind_some]
    rw [hdistance]
    dsimp only [Option.bind_some]
    rw [repeatBack_one]
    exact ih (by simpa using hfuel)

theorem length_le_flatMap_tokenBits (tokens : List Token) (h : Spells out tokens out') :
    tokens.length ≤ (tokens.flatMap tokenBits).length := by
  induction h with
  | nil => exact Nat.le_refl _
  | @byte b out out' tokens _ ih =>
    have hword := length_word_pos (Nat.lt_trans b.toNat_lt (by decide : 2 ^ 8 < 286))
    rw [List.flatMap_cons, List.length_append, List.length_cons, tokenBits]
    omega
  | @again count b out out' tokens _ _ _ ih =>
    have hbits : 0 < (tokenBits (.again count)).length := by
      simp only [tokenBits, List.length_append, List.length_cons]
      omega
    rw [List.flatMap_cons, List.length_append, List.length_cons]
    omega

/-- The block of rows is read as the rows. -/
theorem readBlocks_deflate (rows : List Bytes) (fuel : Nat) (rest : Bits) :
    readBlocks (fuel + 1) (blockStart ++ (rows.flatMap rowTokens).flatMap tokenBits ++
      word endSymbol ++ rest) [] = some rows.flatten := by
  have hlast : Bits.read 1 blockStart = some (1, blockStart.drop 1) := by decide +kernel
  have hkind : Bits.read 2 (blockStart.drop 1) = some (2, blockStart.drop 3) := by decide +kernel
  have hspells := Spells.flatMap_rowTokens rows []
  generalize rows.flatMap rowTokens = tokens at hspells ⊢
  have hfuel : tokens.length < (tokens.flatMap tokenBits ++ (word endSymbol ++ rest)).length := by
    have htokens := length_le_flatMap_tokenBits _ hspells
    have hend := length_word_pos (by decide : endSymbol < 286)
    rw [List.length_append, List.length_append]
    omega
  have hlengths := readCodeLengths_append readCodeLengths_blockStart
    (tokens.flatMap tokenBits ++ (word endSymbol ++ rest))
  rw [List.nil_append] at hlengths
  rw [List.append_assoc, List.append_assoc, readBlocks, Bits.read_append hlast]
  dsimp only [Option.bind_eq_bind, Option.bind_some]
  rw [Bits.read_append hkind]
  dsimp only [Option.bind_some]
  rw [if_neg (by decide), if_neg (by decide), if_pos rfl, hlengths]
  dsimp only [Option.bind_some]
  change (readSymbols codes _ _ _).bind _ = _
  rw [readSymbols_of_spells hspells hfuel rest]
  simp

theorem drop_stream (blocks data : Bytes) :
    (stream blocks data).drop 2 = blocks ++ bigEndian 4 (adler32 data) := rfl

/-- What was compressed is found again. -/
theorem inflate_deflate (rows : List Bytes) : inflate (deflate rows) = some rows.flatten := by
  unfold inflate deflate
  dsimp only
  generalize hbits : blockStart ++ (rows.flatMap rowTokens).flatMap tokenBits ++ word endSymbol = bits
  obtain ⟨filling, hfilling⟩ := Bits.ofBytes_toBytes bits
  have hstream : Bits.ofBytes ((stream (Bits.toBytes bits) rows.flatten).drop 2) =
      bits ++ (filling ++ Bits.ofBytes (bigEndian 4 (adler32 rows.flatten))) := by
    rw [drop_stream, Bits.ofBytes_append, hfilling, List.append_assoc]
  have hend := length_word_pos (by decide : endSymbol < 286)
  obtain ⟨fuel, hfuel⟩ : ∃ fuel, (Bits.ofBytes ((stream (Bits.toBytes bits) rows.flatten).drop 2)).length =
      fuel + 1 := by
    refine ⟨_, (Nat.succ_pred_eq_of_pos ?_).symm⟩
    rw [hstream, ← hbits, List.length_append, List.length_append]
    omega
  rw [hfuel, hstream, ← hbits]
  exact readBlocks_deflate rows fuel _

/-! ### Data as it is -/

theorem align_append {front : Bits} (h : front.length < 8) (bytes : Bytes) :
    Bits.align (front ++ Bits.ofBytes bytes) = Bits.ofBytes bytes := by
  have hlength : (front ++ Bits.ofBytes bytes).length % 8 = front.length := by
    rw [List.length_append, Bits.length_ofBytes]
    omega
  rw [Bits.align, hlength, List.drop_left]

/-- The bytes of a block are read back. -/
theorem readStored_storedBlock {front : Bits} (hfront : front.length < 8) {data : Bytes}
    (hdata : data.length ≤ maxStored) (rest out : Bytes) :
    readStored (front ++ Bits.ofBytes (littleEndian 2 data.length ++
      littleEndian 2 (maxStored - data.length) ++ data ++ rest)) out =
      some (data.reverse ++ out, Bits.ofBytes rest) := by
  have hmax : maxStored = 65535 := rfl
  rw [readStored, align_append hfront, Bits.ofBytes_append, Bits.ofBytes_append, Bits.ofBytes_append,
    Bits.ofBytes_littleEndian, Bits.ofBytes_littleEndian, List.append_assoc, List.append_assoc,
    Bits.read_ofNat_append (by omega)]
  dsimp only [Option.bind_eq_bind, Option.bind_some]
  rw [Bits.read_ofNat_append (by omega)]
  dsimp only [Option.bind_some]
  rw [if_neg (by rw [List.length_append, Bits.length_ofBytes]; omega),
    List.take_left' (Bits.length_ofBytes data), List.drop_left' (Bits.length_ofBytes data),
    Bits.toBytes_ofBytes]
  rfl

/-- A block of bytes as they are is read back, and unless it is the last one, so are those that
follow. -/
theorem readBlocks_storedBlock (isLast : Bool) {data : Bytes} (hdata : data.length ≤ maxStored)
    (fuel : Nat) (rest out : Bytes) :
    readBlocks (fuel + 1) (Bits.ofBytes (storedBlock isLast data ++ rest)) out =
      if isLast then some (data.reverse ++ out).reverse
      else readBlocks fuel (Bits.ofBytes rest) (data.reverse ++ out) := by
  have hstart : Bits.ofNat 8 (if isLast then 1 else 0 : UInt8).toNat =
      Bits.ofNat 1 isLast.toNat ++ (Bits.ofNat 2 0 ++ List.replicate 5 false) := by
    cases isLast <;> decide
  have hbits : Bits.ofBytes (storedBlock isLast data ++ rest) = Bits.ofNat 1 isLast.toNat ++
      (Bits.ofNat 2 0 ++ (List.replicate 5 false ++ Bits.ofBytes (littleEndian 2 data.length ++
        littleEndian 2 (maxStored - data.length) ++ data ++ rest))) := by
    rw [storedBlock, List.cons_append, List.cons_append, List.cons_append, Bits.ofBytes,
      List.flatMap_cons, ← Bits.ofBytes, hstart]
    simp only [List.append_assoc]
  have hlast : isLast.toNat < 2 ^ 1 := by cases isLast <;> decide
  rw [hbits, readBlocks, Bits.read_ofNat_append hlast]
  dsimp only [Option.bind_eq_bind, Option.bind_some]
  rw [Bits.read_ofNat_append (by decide)]
  dsimp only [Option.bind_some]
  rw [if_pos rfl, readStored_storedBlock (by simp) hdata]
  dsimp only [Option.bind_some]
  cases isLast <;> rfl

/-- The blocks of data are read as the data. -/
theorem readBlocks_storedBlocks {blocks : List Bytes} (h : ∀ block ∈ blocks, block.length ≤ maxStored)
    {fuel : Nat} (hfuel : blocks.length < fuel) (rest out : Bytes) :
    readBlocks fuel (Bits.ofBytes (storedBlocks blocks ++ rest)) out =
      some (out.reverse ++ blocks.flatten) := by
  induction blocks using storedBlocks.induct generalizing fuel out with
  | case1 =>
    obtain ⟨fuel, rfl⟩ := Nat.exists_eq_add_one_of_ne_zero (Nat.ne_zero_of_lt hfuel)
    rw [storedBlocks, readBlocks_storedBlock true (Nat.zero_le _)]
    simp
  | case2 block =>
    obtain ⟨fuel, rfl⟩ := Nat.exists_eq_add_one_of_ne_zero (Nat.ne_zero_of_lt hfuel)
    rw [storedBlocks, readBlocks_storedBlock true (h block (List.mem_singleton_self _))]
    simp
  | case3 block blocks hne ih =>
    obtain ⟨fuel, rfl⟩ := Nat.exists_eq_add_one_of_ne_zero (Nat.ne_zero_of_lt hfuel)
    obtain ⟨hblock, hblocks⟩ := List.forall_mem_cons.1 h
    rw [storedBlocks, List.append_assoc, readBlocks_storedBlock false hblock, if_neg (by decide),
      ih hblocks (by simpa using hfuel)]
    · simp
    · exact hne

theorem length_storedBlock (isLast : Bool) (block : Bytes) :
    (storedBlock isLast block).length = block.length + 5 := by
  simp only [storedBlock, List.length_append, List.length_cons, length_littleEndian]
  omega

theorem length_lt_storedBlocks (blocks : List Bytes) :
    blocks.length < (storedBlocks blocks).length := by
  induction blocks using storedBlocks.induct with
  | case1 => exact Nat.succ_pos _
  | case2 block =>
    rw [storedBlocks, length_storedBlock, List.length_singleton]
    omega
  | case3 block blocks hne ih =>
    rw [storedBlocks.eq_3 block blocks hne, List.length_append, length_storedBlock, List.length_cons]
    omega

/-- What was stored is found again. -/
theorem inflate_store (data : Bytes) : inflate (store data) = some data := by
  have hblocks (block) (h : block ∈ pieces (maxStored - 1) data) : block.length ≤ maxStored :=
    length_le_of_mem_pieces h
  have hfuel := length_lt_storedBlocks (pieces (maxStored - 1) data)
  have hbits : (pieces (maxStored - 1) data).length < (Bits.ofBytes
      (storedBlocks (pieces (maxStored - 1) data) ++ bigEndian 4 (adler32 data))).length := by
    rw [Bits.length_ofBytes, List.length_append]
    omega
  rw [inflate, store, drop_stream, readBlocks_storedBlocks hblocks hbits, flatten_pieces]
  rfl

end Deflate

end StylePrep.Encoding
