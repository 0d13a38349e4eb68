import StylePrep.Proofs.Scopes

/-!
# Which levels a move keeps

A table of variables is a stack of levels: the one of the root, and above it one for each open
block, with the label of the block. `sync` moves the table to a point inside the scope with the
number `base`. It keeps the levels up to `base`, and above them as many as have the labels of the
new point one after another; from the first label that differs on, all levels are new and empty
(`levels_sync`, `lt_kept_iff`).

So nothing that happens above a scope reaches it or those below: an importer finds its own levels
as it left them, however the file that it imports moves and assigns (`Above.take_levels`).
-/

namespace StylePrep.VariableTable

/-- What the table holds for a scope: the label of its block, which the root does not have, and
its variables. -/
structure Level where
  label? : Option Label
  vars : Variables
  deriving DecidableEq, Repr

/-- The level of an open block. -/
def blockLevel (b : BlockScope) : Level := ⟨some (b.file, b.block), b.vars⟩

def levels (table : VariableTable) : List Level := ⟨none, table.root⟩ :: table.blocks.map blockLevel

variable {table table' : VariableTable} {base : Nat} {file : FileId} {blocks : List Nat}

theorem length_levels (table : VariableTable) : table.levels.length = table.innermost + 1 := by
  simp [levels, innermost]

theorem getElem?_levels_succ (table : VariableTable) (n : Nat) :
    table.levels[n + 1]? = table.blocks[n]?.map blockLevel := by
  simp [levels]

theorem take_levels_succ (table : VariableTable) (n : Nat) :
    table.levels.take (n + 1) = ⟨none, table.root⟩ :: (table.blocks.take n).map blockLevel := by
  simp [levels]

theorem get?_eq_findSome?_levels (table : VariableTable) (name : Text) :
    table.get? name = table.levels.reverse.findSome? (·.vars.lookup name) := by
  simp [get?, levels, blockLevel, List.findSome?_append, List.findSome?_map, ← List.map_reverse,
    Function.comp_def]

/-! ### How many levels are kept -/

/-- The number of levels above `base` that stay for `blocks` of `file`. -/
def kept (table : VariableTable) (base : Nat) (file : FileId) (blocks : List Nat) : Nat :=
  (shared file (table.blocks.drop base) blocks).length

/-- The level with this number above `base` has the label of its block, and so have all that are
between. -/
def Matches (table : VariableTable) (base : Nat) (file : FileId) (blocks : List Nat) (i : Nat) : Prop :=
  ∀ j ≤ i, ∃ block level, blocks[j]? = some block ∧ table.levels[base + 1 + j]? = some level ∧
    level.label? = some (file, block)

theorem shared_isPrefix (file : FileId) (scopes : List BlockScope) (blocks : List Nat) :
    shared file scopes blocks <+: scopes := by
  fun_induction shared file scopes blocks with
  | case1 scope scopes block blocks h ih => exact List.cons_prefix_cons.2 ⟨rfl, ih⟩
  | case2 => exact List.nil_prefix
  | case3 => exact List.nil_prefix

theorem length_shared_le (file : FileId) (scopes : List BlockScope) (blocks : List Nat) :
    (shared file scopes blocks).length ≤ blocks.length := by
  fun_induction shared file scopes blocks with
  | case1 scope scopes block blocks h ih => exact Nat.succ_le_succ ih
  | case2 => exact Nat.zero_le _
  | case3 => exact Nat.zero_le _

/-- A scope stays exactly if it has its label, and those in front of it have theirs. -/
theorem lt_length_shared_iff {scopes : List BlockScope} {i : Nat} :
    i < (shared file scopes blocks).length ↔ ∀ j ≤ i, ∃ block scope, blocks[j]? = some block ∧
      scopes[j]? = some scope ∧ scope.file = file ∧ scope.block = block := by
  induction blocks generalizing scopes i with
  | nil =>
    have hnil : shared file scopes [] = [] := by cases scopes <;> rfl
    rw [hnil]
    constructor
    · rintro ⟨⟩
    · intro h
      obtain ⟨_, _, hblock, -⟩ := h 0 (Nat.zero_le i)
      cases hblock
  | cons block blocks ih =>
    cases scopes with
    | nil =>
      constructor
      · rintro ⟨⟩
      · intro h
        obtain ⟨_, _, -, hscope, -⟩ := h 0 (Nat.zero_le i)
        cases hscope
    | cons scope scopes =>
      rw [shared]
      split
      case isFalse hlabel =>
        constructor
        · rintro ⟨⟩
        · intro h
          obtain ⟨_, _, hblock, hscope, hfirst⟩ := h 0 (Nat.zero_le i)
          cases hblock
          cases hscope
          exact absurd hfirst hlabel
      case isTrue hlabel =>
        cases i with
        | zero =>
          refine ⟨fun _ j hj => ?_, fun _ => Nat.zero_lt_succ _⟩
          obtain rfl := Nat.le_zero.1 hj
          exact ⟨block, scope, rfl, rfl, hlabel⟩
        | succ i =>
          rw [List.length_cons, Nat.succ_lt_succ_iff, ih]
          constructor
          · intro h j hj
            cases j with
            | zero => exact ⟨block, scope, rfl, rfl, hlabel⟩
            | succ j => exact h j (Nat.le_of_succ_le_succ hj)
          · intro h j hj
            exact h (j + 1) (Nat.succ_le_succ hj)

theorem lt_kept_iff {i : Nat} : i < table.kept base file blocks ↔ table.Matches base file blocks i := by
  unfold kept Matches
  rw [lt_length_shared_iff]
  refine forall_congr' fun j => imp_congr_right fun _ => exists_congr fun block => ?_
  rw [show base + 1 + j = base + j + 1 by omega, getElem?_levels_succ, List.getElem?_drop]
  cases table.blocks[base + j]? with
  | none => simp
  | some scope => simp [blockLevel]

theorem kept_le (table : VariableTable) (base : Nat) (file : FileId) (blocks : List Nat) :
    table.kept base file blocks ≤ blocks.length :=
  length_shared_le file _ blocks

theorem add_kept_le (hbase : base ≤ table.innermost) (file : FileId) (blocks : List Nat) :
    base + table.kept base file blocks ≤ table.innermost := by
  have hle := (shared_isPrefix file (table.blocks.drop base) blocks).length_le
  rw [List.length_drop] at hle
  unfold kept innermost at *
  omega

/-! ### One move -/

/-- A move keeps the levels up to `base` and those that match above, and opens empty ones. -/
theorem levels_sync (table : VariableTable) (base : Nat) (file : FileId) (blocks : List Nat) :
    (table.sync base file blocks).levels =
      table.levels.take (base + table.kept base file blocks + 1) ++
        (blocks.drop (table.kept base file blocks)).map fun block => ⟨some (file, block), []⟩ := by
  have hshared : shared file (table.blocks.drop base) blocks =
      (table.blocks.drop base).take (table.kept base file blocks) :=
    List.prefix_iff_eq_take.1 (shared_isPrefix file _ blocks)
  rw [take_levels_succ, List.take_add, ← hshared]
  simp only [sync, levels, List.map_append, List.cons_append, List.append_assoc, List.map_map]
  rfl

/-- The scope that is moved to. -/
theorem innermost_sync (hbase : base ≤ table.innermost) (file : FileId) (blocks : List Nat) :
    (table.sync base file blocks).innermost = base + blocks.length := by
  have hkept := table.kept_le base file blocks
  have hle := add_kept_le hbase file blocks
  have hlength := length_levels (table.sync base file blocks)
  rw [levels_sync, List.length_append, List.length_take, length_levels, List.length_map,
    List.length_drop] at hlength
  omega

/-- Levels up to the one that is moved from stay, whether or not there are as many. -/
theorem take_levels_sync {base' : Nat} (hbase : base ≤ table.innermost) (hle : base ≤ base')
    (file : FileId) (blocks : List Nat) :
    (table.sync base' file blocks).levels.take (base + 1) = table.levels.take (base + 1) := by
  rw [levels_sync, List.take_append_of_le_length, List.take_take]
  · congr 1
    omega
  · rw [List.length_take, length_levels]
    omega

/-- A level that matches stays as it was. -/
theorem getElem?_sync_of_matches (hbase : base ≤ table.innermost) {i : Nat}
    (h : table.Matches base file blocks i) :
    (table.sync base file blocks).levels[base + 1 + i]? = table.levels[base + 1 + i]? := by
  have hi := lt_kept_iff.2 h
  have hle := add_kept_le hbase file blocks
  rw [levels_sync, List.getElem?_append_left, List.getElem?_take_of_lt (by omega)]
  rw [List.length_take, length_levels]
  omega

/-- A level that does not match is replaced by an empty one. -/
theorem getElem?_sync_of_not_matches (hbase : base ≤ table.innermost) {i block : Nat}
    (hblock : blocks[i]? = some block) (h : ¬ table.Matches base file blocks i) :
    (table.sync base file blocks).levels[base + 1 + i]? = some ⟨some (file, block), []⟩ := by
  have hi : table.kept base file blocks ≤ i := Nat.le_of_not_lt fun hlt => h (lt_kept_iff.1 hlt)
  have hle := add_kept_le hbase file blocks
  have hlength : (table.levels.take (base + table.kept base file blocks + 1)).length =
      base + table.kept base file blocks + 1 := by
    rw [List.length_take, length_levels]
    omega
  rw [levels_sync, List.getElem?_append_right (by omega), hlength, List.getElem?_map,
    List.getElem?_drop, show table.kept base file blocks + (base + 1 + i -
      (base + table.kept base file blocks + 1)) = i by omega, hblock]
  rfl

/-- Where a point has been moved to, every level has the label of its block. -/
theorem exists_level_sync (hbase : base ≤ table.innermost) (file : FileId) {i block : Nat}
    (hblock : blocks[i]? = some block) :
    ∃ vars, (table.sync base file blocks).levels[base + 1 + i]? = some ⟨some (file, block), vars⟩ := by
  by_cases h : table.Matches base file blocks i
  · obtain ⟨block', ⟨label?, vars⟩, hblock', hlevel, rfl⟩ := h i (Nat.le_refl i)
    obtain rfl := Option.some.inj (hblock.symm.trans hblock')
    exact ⟨vars, (getElem?_sync_of_matches hbase h).trans hlevel⟩
  · exact ⟨[], getElem?_sync_of_not_matches hbase hblock h⟩

/-- Where a table has been moved to, all levels match. -/
theorem kept_sync (hbase : base ≤ table.innermost) (file : FileId) (blocks : List Nat) :
    (table.sync base file blocks).kept base file blocks = blocks.length := by
  refine Nat.le_antisymm (kept_le _ base file blocks) (Nat.le_of_not_lt fun hlt => ?_)
  have hmatches : (table.sync base file blocks).Matches base file blocks
      ((table.sync base file blocks).kept base file blocks) := by
    intro j hj
    have hblock : blocks[j]? = some blocks[j] := List.getElem?_eq_getElem (by omega)
    obtain ⟨vars, hlevel⟩ := exists_level_sync hbase file hblock
    exact ⟨_, _, hblock, hlevel, rfl⟩
  exact Nat.lt_irrefl _ (lt_kept_iff.2 hmatches)

theorem levels_injective {table table' : VariableTable} (h : table.levels = table'.levels) :
    table = table' := by
  have hblockLevel : Function.Injective blockLevel := by
    rintro ⟨file, block, vars⟩ ⟨file', block', vars'⟩ h
    cases h
    rfl
  obtain ⟨root, blocks⟩ := table
  obtain ⟨root', blocks'⟩ := table'
  obtain ⟨hroot, hblocks⟩ := List.cons.inj h
  cases hroot
  exact congrArg (VariableTable.mk root) (hblockLevel.list_map hblocks)

/-- A table that is at a point is not changed by moving it there. -/
theorem sync_sync (hbase : base ≤ table.innermost) (file : FileId) (blocks : List Nat) :
    (table.sync base file blocks).sync base file blocks = table.sync base file blocks := by
  refine levels_injective ?_
  rw [levels_sync, kept_sync hbase, List.drop_length, List.map_nil, List.append_nil]
  refine List.take_of_length_le (Nat.le_of_eq ?_)
  rw [length_levels, innermost_sync hbase]

/-! ### Names that no level above has -/

/-- No level above `base` has the variable. -/
def Lacks (table : VariableTable) (base : Nat) (name : Text) : Prop :=
  ∀ n level, base < n → table.levels[n]? = some level → level.vars.lookup name = none

/-- A variable that no level above has is looked up in the levels up to `base`. -/
theorem Lacks.get?_eq {name : Text} (h : table.Lacks base name) :
    table.get? name = (table.levels.take (base + 1)).reverse.findSome? (·.vars.lookup name) := by
  have habove : (table.levels.drop (base + 1)).reverse.findSome? (·.vars.lookup name) = none := by
    rw [List.findSome?_eq_none_iff]
    intro level hlevel
    obtain ⟨n, hn⟩ := List.mem_iff_getElem?.1 (List.mem_reverse.1 hlevel)
    rw [List.getElem?_drop] at hn
    exact h (base + 1 + n) level (by omega) hn
  rw [get?_eq_findSome?_levels]
  conv_lhs => rw [← List.take_append_drop (base + 1) table.levels]
  rw [List.reverse_append, List.findSome?_append, habove, Option.none_or]

/-- A move adds variables to no level. -/
theorem Lacks.sync {name : Text} (h : table.Lacks base name) (hbase : base ≤ table.innermost)
    (file : FileId) (blocks : List Nat) : (table.sync base file blocks).Lacks base name := by
  intro n level hn hlevel
  obtain ⟨i, rfl⟩ := Nat.exists_eq_add_of_le (Nat.succ_le_of_lt hn)
  have hi : i < blocks.length := by
    have hlt := (List.getElem?_eq_some_iff.1 hlevel).1
    rw [length_levels, innermost_sync hbase] at hlt
    omega
  by_cases hmatches : table.Matches base file blocks i
  · rw [getElem?_sync_of_matches hbase hmatches] at hlevel
    exact h _ level hn hlevel
  · rw [getElem?_sync_of_not_matches hbase (List.getElem?_eq_getElem hi) hmatches] at hlevel
    cases hlevel
    rfl

theorem get?_sync_of_lacks {name : Text} (h : table.Lacks base name) (hbase : base ≤ table.innermost)
    (file : FileId) (blocks : List Nat) : (table.sync base file blocks).get? name = table.get? name := by
  rw [(h.sync hbase file blocks).get?_eq, h.get?_eq, take_levels_sync hbase (Nat.le_refl base)]

/-! ### What happens above a scope -/

/-- What moves and assignments above the scope `base` make of a table: moves from this scope or an
inner one, and assignments to inner scopes. -/
inductive Above (base : Nat) (table : VariableTable) : VariableTable → Prop where
  | refl : Above base table table
  | sync {table' : VariableTable} (h : Above base table table') {base' : Nat} (hle : base ≤ base')
      (file : FileId) (blocks : List Nat) : Above base table (table'.sync base' file blocks)
  | assign {table' : VariableTable} (h : Above base table table') (hlt : base < table'.innermost)
      (name : Text) (value : Value) {flags : AssignFlags} (hflags : flags.isGlobal = false) :
      Above base table (table'.assign name value flags)

/-- An assignment to the innermost scope changes no level below. -/
theorem take_levels_assign (hlt : base < table.innermost) (name : Text) (value : Value)
    {flags : AssignFlags} (hflags : flags.isGlobal = false) :
    (table.assign name value flags).levels.take (base + 1) = table.levels.take (base + 1) := by
  unfold assign
  split
  · rfl
  rw [if_neg (by simp [hflags]), take_levels_succ, take_levels_succ]
  unfold assignInnermost
  rcases List.eq_nil_or_concat table.blocks with h | ⟨outer, b, h⟩
  · simp [innermost, h] at hlt
  · have hle : base ≤ outer.length := by
      simp only [innermost, h, List.concat_eq_append, List.length_append, List.length_singleton] at hlt
      omega
    simp [h, List.take_append_of_le_length hle]

/-- Whatever happens above a scope, it stays as it is, and so do those below. -/
theorem Above.take_levels (h : Above base table table') (hbase : base ≤ table.innermost) :
    table'.levels.take (base + 1) = table.levels.take (base + 1) := by
  induction h with
  | refl => rfl
  | @sync table' h base' hle file blocks ih =>
    have hlength := congrArg List.length ih
    rw [List.length_take, List.length_take, length_levels, length_levels] at hlength
    exact (take_levels_sync (by omega) hle file blocks).trans ih
  | assign h hlt name value hflags ih => exact (take_levels_assign hlt name value hflags).trans ih

/-- A move to `blocks` of a file, from a scope that the table has, keeps exactly the levels that the
new point shares with the old one. -/
theorem sync_keeps_common (table : VariableTable) {base : Nat} (hbase : base ≤ table.innermost)
    (file : FileId) (blocks : List Nat) :
    -- the levels up to `base`
    (∀ n ≤ base, (table.sync base file blocks).levels[n]? = table.levels[n]?) ∧
    -- the levels above, which have the labels of the new point
    (table.sync base file blocks).innermost = base + blocks.length ∧
    (∀ i block, blocks[i]? = some block → ∃ vars,
      (table.sync base file blocks).levels[base + 1 + i]? = some ⟨some (file, block), vars⟩ ∧
        (table.Matches base file blocks i →
          table.levels[base + 1 + i]? = some ⟨some (file, block), vars⟩) ∧
        (¬ table.Matches base file blocks i → vars = [])) ∧
    -- moving again
    (table.sync base file blocks).sync base file blocks = table.sync base file blocks ∧
    -- moving any number of times, and assigning in between
    (∀ table', Above base table table' → ∀ n ≤ base, table'.levels[n]? = table.levels[n]?) ∧
    -- looking up
    ∀ name, table.Lacks base name → (table.sync base file blocks).get? name = table.get? name := by
  have hlevels {table' : VariableTable} (h : Above base table table') {n : Nat} (hn : n ≤ base) :
      table'.levels[n]? = table.levels[n]? := by
    have htake := congrArg (·[n]?) (h.take_levels hbase)
    simpa [List.getElem?_take, Nat.lt_succ_of_le hn] using htake
  refine ⟨fun n hn => hlevels (.sync .refl (Nat.le_refl base) file blocks) hn,
    innermost_sync hbase file blocks, fun i block hblock => ?_, sync_sync hbase file blocks,
    fun table' h n hn => hlevels h hn, fun name h => get?_sync_of_lacks h hbase file blocks⟩
  obtain ⟨vars, hlevel⟩ := exists_level_sync hbase file hblock
  refine ⟨vars, hlevel, fun hmatches => ?_, fun hmatches => ?_⟩
  · rwa [getElem?_sync_of_matches hbase hmatches] at hlevel
  · rw [getElem?_sync_of_not_matches hbase hblock hmatches] at hlevel
    cases hlevel
    rfl

/-- A block of an importer, and two nested blocks of the file that it imports there. -/
def nestedBlocks : VariableTable :=
  ⟨[], [⟨0, 0, [("a".toList, .raw "1".toList)]⟩, ⟨1, 0, [("b".toList, .raw "2".toList)]⟩,
    ⟨1, 1, [("c".toList, .raw "3".toList)]⟩]⟩

/-- The imported file goes on in a sibling of its inner block. -/
theorem sync_keeps_common_sibling :
    1 ≤ nestedBlocks.innermost ∧ (nestedBlocks.sync 1 1 [0, 2]).innermost = 3 ∧
      (nestedBlocks.sync 1 1 [0, 2]).levels[2]? = nestedBlocks.levels[2]? ∧
      (nestedBlocks.sync 1 1 [0, 2]).levels[3]? = some ⟨some (1, 2), []⟩ := by
  have hbase : 1 ≤ nestedBlocks.innermost := by decide
  obtain ⟨-, hinnermost, habove, -⟩ := sync_keeps_common nestedBlocks hbase 1 [0, 2]
  obtain ⟨_, houter, hkept, -⟩ := habove 0 0 rfl
  obtain ⟨_, hinner, -, hfresh⟩ := habove 1 2 rfl
  have houter' := hkept (lt_kept_iff.1 (by decide))
  have hnew := hfresh fun h => absurd (lt_kept_iff.2 h) (by decide)
  exact ⟨hbase, hinnermost, houter.trans houter'.symm, hnew ▸ hinner⟩

end StylePrep.VariableTable
