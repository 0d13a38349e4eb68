import Mathlib.Data.List.Basic
import StylePrep.Variables

/-!
# Scopes without labels

The table of variables labels each open block with its file and its ordinal, and
`sync` compares labels to see which blocks stay open. What matters in the end is only
how many stay. If the table holds the blocks that were open at the last directive,
and above them perhaps blocks that other files left open, then exactly the blocks
that this directive and the next have in common stay (`sync_eq`).

So labels can be dropped. A table without them is moved by `shift`, which keeps some
of the outermost blocks and opens new ones, and moving twice is moving once to the
lower of the two points (`shift_shift`).
-/

namespace StylePrep

/-- The number of blocks that two points have in common, counted from the root. -/
def common : List Nat → List Nat → Nat
  | x :: xs, y :: ys => if x = y then common xs ys + 1 else 0
  | _, _ => 0

@[simp] theorem common_nil_left (ys : List Nat) : common [] ys = 0 := by
  cases ys <;> rfl

@[simp] theorem common_nil_right (xs : List Nat) : common xs [] = 0 := by
  cases xs <;> rfl

@[simp] theorem common_self (xs : List Nat) : common xs xs = xs.length := by
  induction xs with
  | nil => rfl
  | cons x xs ih => simp [common, ih]

theorem common_le_left (xs ys : List Nat) : common xs ys ≤ xs.length := by
  induction xs generalizing ys with
  | nil => simp
  | cons x xs ih =>
    cases ys with
    | nil => simp
    | cons y ys =>
      have h := ih ys
      rw [common]
      split <;> simp [h]

theorem common_le_right (xs ys : List Nat) : common xs ys ≤ ys.length := by
  induction xs generalizing ys with
  | nil => simp
  | cons x xs ih =>
    cases ys with
    | nil => simp
    | cons y ys =>
      have h := ih ys
      rw [common]
      split <;> simp [h]

/-- A block that opens is not among those open before. -/
theorem common_concat {xs : List Nat} {n : Nat} (hn : ∀ x ∈ xs, x < n) (ys : List Nat) :
    common xs (ys ++ [n]) = common xs ys := by
  induction xs generalizing ys with
  | nil => simp
  | cons x xs ih =>
    have hx : x ≠ n := Nat.ne_of_lt (hn x List.mem_cons_self)
    cases ys with
    | nil => simp [common, hx]
    | cons y ys =>
      have h := ih (fun z hz => hn z (List.mem_cons_of_mem _ hz)) ys
      simp [common, h]

theorem common_dropLast (xs ys : List Nat) :
    common xs ys.dropLast = min (common xs ys) (ys.length - 1) := by
  induction xs generalizing ys with
  | nil => simp
  | cons x xs ih =>
    match ys with
    | [] => simp
    | [y] => simp
    | y :: z :: ys =>
      have h := ih (z :: ys)
      rw [List.dropLast_cons_cons, common, common]
      split
      · rw [h]
        simp only [List.length_cons]
        omega
      · simp

/-- What two points have in common is the same in both. -/
theorem take_common (xs ys : List Nat) : xs.take (common xs ys) = ys.take (common xs ys) := by
  induction xs generalizing ys with
  | nil => simp
  | cons x xs ih =>
    cases ys with
    | nil => simp
    | cons y ys =>
      rw [common]
      split
      case isTrue h => rw [h, List.take_succ_cons, List.take_succ_cons, ih]
      case isFalse => simp

namespace VariableTable

abbrev Label := FileId × Nat

def labels (table : VariableTable) : List Label := table.blocks.map fun b => (b.file, b.block)

/-- A block without a label. -/
def bareBlock (vars : Variables) : BlockScope := ⟨0, 0, vars⟩

def bare (table : VariableTable) : VariableTable :=
  { table with blocks := table.blocks.map fun b => bareBlock b.vars }

/-- Keep only the outermost blocks. -/
def keep (table : VariableTable) (n : Nat) : VariableTable :=
  { table with blocks := table.blocks.take n }

/-- Keep the outermost `low` blocks and open new ones until there are `depth`. -/
def shift (table : VariableTable) (low depth : Nat) : VariableTable :=
  { table with blocks := table.blocks.take low ++ List.replicate (depth - low) (bareBlock []) }

theorem length_labels (table : VariableTable) : table.labels.length = table.innermost := by
  simp [labels, innermost]

@[simp] theorem innermost_bare (table : VariableTable) : table.bare.innermost = table.innermost := by
  simp [bare, innermost]

theorem shift_keep {table : VariableTable} {n low : Nat} (h : low ≤ n) (depth : Nat) :
    (table.keep n).shift low depth = table.shift low depth := by
  simp [shift, keep, List.take_take, Nat.min_eq_left h]

theorem keep_keep {table : VariableTable} {m n : Nat} (h : n ≤ m) :
    (table.keep m).keep n = table.keep n := by
  simp [keep, List.take_take, Nat.min_eq_left h]

/-- Moving twice is moving once to the lower point. -/
theorem shift_shift {table : VariableTable} {low depth low' depth' : Nat}
    (hlow : low ≤ table.innermost) (h : low ≤ depth) (h' : low' ≤ depth) (hdepth : low' ≤ depth') :
    (table.shift low depth).shift low' depth' = table.shift (min low low') depth' := by
  have htake : (table.blocks.take low).length = low := by
    rw [List.length_take]
    exact Nat.min_eq_left hlow
  simp only [shift, List.take_append, List.take_take, List.take_replicate, htake, List.append_assoc,
    List.replicate_append_replicate]
  rw [Nat.min_comm low' low, Nat.min_eq_left (by omega : low' - low ≤ depth - low)]
  congr 3
  omega

theorem innermost_shift {table : VariableTable} {low depth : Nat} (hlow : low ≤ table.innermost)
    (h : low ≤ depth) : (table.shift low depth).innermost = depth := by
  simp only [shift, innermost, List.length_append, List.length_take, List.length_replicate] at hlow ⊢
  omega

/-- A table that has no other blocks is not moved. -/
theorem shift_self {table : VariableTable} {n : Nat} (h : table.innermost = n) :
    table.shift n n = table := by
  subst h
  simp [shift, innermost]

/-! ### Look-ups and assignments -/

theorem get?_bare (table : VariableTable) (name : Text) : table.bare.get? name = table.get? name := by
  unfold get? bare
  rw [← List.map_reverse, List.findSome?_map]
  rfl

theorem bare_assign (table : VariableTable) (name : Text) (value : Value) (flags : AssignFlags) :
    (table.assign name value flags).bare = table.bare.assign name value flags := by
  unfold assign
  rw [get?_bare]
  split
  · rfl
  split
  · rfl
  unfold assignInnermost
  rcases List.eq_nil_or_concat table.blocks with h | ⟨blocks, b, h⟩
  · simp [bare, h]
  · simp [bare, h, bareBlock]

theorem labels_assign (table : VariableTable) (name : Text) (value : Value) (flags : AssignFlags) :
    (table.assign name value flags).labels = table.labels := by
  unfold assign
  split
  · rfl
  split
  · rfl
  unfold assignInnermost
  rcases List.eq_nil_or_concat table.blocks with h | ⟨blocks, b, h⟩
  · simp [labels, h]
  · simp [labels, h]

/-! ### Moving with labels -/

/-- Blocks of a file stay as far as their ordinals agree; those of other files do
not. -/
theorem shared_eq_take {file : FileId} {scopes : List BlockScope} {P : List Nat}
    {left : List Label} (hscopes : scopes.map (fun b => (b.file, b.block)) =
      P.map (file, ·) ++ left) (hleft : ∀ l ∈ left, l.1 ≠ file) (X : List Nat) :
    shared file scopes X = scopes.take (common P X) := by
  induction X generalizing scopes P with
  | nil => cases scopes <;> simp [shared]
  | cons x X ih =>
    cases scopes with
    | nil => simp [shared]
    | cons scope scopes =>
      cases P with
      | nil =>
        have hfile : scope.file ≠ file := by
          cases left with
          | nil => simp at hscopes
          | cons l left =>
            obtain ⟨hl, -⟩ := List.cons.inj hscopes
            have := hleft l List.mem_cons_self
            rw [← hl] at this
            exact this
        simp [shared, hfile]
      | cons p P =>
        obtain ⟨hlabel, hrest⟩ := List.cons.inj hscopes
        obtain ⟨hfile, hblock⟩ := Prod.mk.inj hlabel
        simp only [shared, common, hfile, hblock, true_and]
        split
        · rw [ih hrest, List.take_succ_cons]
        · simp

/-- Moving a table that holds the blocks `P` of the file above the first `base`,
and above them only blocks of other files. -/
theorem sync_eq {table : VariableTable} {base : Nat} {file : FileId} {L left : List Label}
    {P : List Nat} (hbase : L.length = base)
    (hlabels : table.labels = L ++ P.map (file, ·) ++ left) (hleft : ∀ l ∈ left, l.1 ≠ file)
    (X : List Nat) :
    (table.sync base file X).bare = table.bare.shift (base + common P X) (base + X.length) ∧
      (table.sync base file X).labels = L ++ X.map (file, ·) := by
  have hdrop : (table.blocks.drop base).map (fun b => (b.file, b.block)) =
      P.map (file, ·) ++ left := by
    have h := congrArg (List.drop base) hlabels
    rwa [labels, ← List.map_drop, List.append_assoc, List.drop_left' hbase] at h
  have hlength : common P X ≤ (table.blocks.drop base).length := by
    have h := congrArg List.length hdrop
    have hP := common_le_left P X
    simp only [List.length_map, List.length_append] at h
    omega
  have hkept : shared file (table.blocks.drop base) X = (table.blocks.drop base).take (common P X) :=
    shared_eq_take hdrop hleft X
  have hcount : ((table.blocks.drop base).take (common P X)).length = common P X := by
    rw [List.length_take, Nat.min_eq_left hlength]
  have hX := common_le_right P X
  constructor
  · simp only [sync, bare, shift, hkept, hcount, ← List.take_add, List.map_append, List.map_take,
      List.map_map]
    congr 2
    rw [show (fun b : BlockScope => bareBlock b.vars) ∘ (fun block => ⟨file, block, []⟩) =
      fun _ => bareBlock [] from rfl, List.map_const', List.length_drop]
    congr 1
    omega
  · have htake : table.labels.take (base + common P X) = L ++ (P.map (file, ·)).take (common P X) := by
      rw [hlabels, List.append_assoc, ← hbase, List.take_length_add_append,
        List.take_append_of_le_length (by simpa using common_le_left P X)]
    have hfront := congrArg (List.map (file, ·)) (take_common P X)
    rw [List.map_take] at hfront
    simp only [sync, hkept, hcount, ← List.take_add]
    rw [labels]
    simp only [List.map_append, List.map_take, List.map_map]
    rw [show table.blocks.map (fun b => (b.file, b.block)) = table.labels from rfl, htake, hfront,
      List.append_assoc, List.map_take]
    congr 1
    rw [show (fun b : BlockScope => (b.file, b.block)) ∘ (fun block => ⟨file, block, []⟩) =
      (file, ·) from rfl, ← List.map_take, ← List.map_append, List.take_append_drop]

end VariableTable

end StylePrep
