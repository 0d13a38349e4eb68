import StylePrep.Proofs.Packing

/-!
# What a walk finds

A walk goes down through directories and through links to directories, and it keeps a list of
the directories it is in so that links do not lead it round. Its recursion is bounded by a
number. Beside it stands a relation, `Below`, with one rule for each kind of entry and no
bound: it says which files are below a directory.

The bound is large enough for every file below a directory. Each step down takes the walk
to an entry with fewer entries below it. A link may lead up again, but only to a directory
the walk is not in, and of these there are fewer behind the link (`need`). So the walk finds
exactly the files that are below a directory (`mem_walk_iff`).
-/

namespace StylePrep

namespace Tree

/-- `Below tree walked path here p`: the file `p` is found below the directory at `here`, which is
spelled `path`, with `walked` the addresses of the directories on the way there. -/
inductive Below (tree : Tree) : List Address → Path → Address → Path → Prop where
  | file {walked : List Address} {path : Path} {here : Address} {name : Text} {content : Bytes}
      {time : Nat} :
      (here ++ [name], .file content time) ∈ tree.entries →
        Below tree walked path here (path.join ⟨name⟩)
  | dir {walked : List Address} {path p : Path} {here : Address} {name : Text} :
      (here ++ [name], .dir) ∈ tree.entries →
        Below tree ((here ++ [name]) :: walked) (path.join ⟨name⟩) (here ++ [name]) p →
          Below tree walked path here p
  | linkedFile {walked : List Address} {path : Path} {here a : Address} {name target : Text}
      {content : Bytes} {time : Nat} :
      (here ++ [name], .link target) ∈ tree.entries → tree.lookup (path.join ⟨name⟩) = .ok a →
        tree.node? a = some (.file content time) → Below tree walked path here (path.join ⟨name⟩)
  | linkedDir {walked : List Address} {path p : Path} {here a : Address} {name target : Text} :
      (here ++ [name], .link target) ∈ tree.entries → tree.lookup (path.join ⟨name⟩) = .ok a →
        tree.node? a = some .dir → a ∉ walked → Below tree (a :: walked) (path.join ⟨name⟩) a p →
          Below tree walked path here p

/-- The file `p` is found below the directory that `root` leads to. -/
def Holds (tree : Tree) (root p : Path) : Prop :=
  ∃ a, tree.lookup root = .ok a ∧ tree.node? a = some .dir ∧ tree.Below [a] root a p

variable {tree : Tree} {walked : List Address} {path p root : Path} {here a : Address}

theorem below_of_mem_filesBelow {fuel : Nat} (h : p ∈ tree.filesBelow fuel walked path here) :
    tree.Below walked path here p := by
  induction fuel generalizing walked path here with
  | zero => cases h
  | succ fuel ih =>
    rw [filesBelow] at h
    obtain ⟨⟨name, node⟩, hchild, h⟩ := List.mem_flatMap.1 h
    have hentry := mem_children.1 hchild
    cases node with
    | file content time =>
      obtain rfl := List.mem_singleton.1 h
      exact .file hentry
    | dir => exact .dir hentry (ih h)
    | link target =>
      dsimp only at h
      split at h
      · cases h
      rename_i a hlookup
      split at h
      · rename_i content time hnode
        obtain rfl := List.mem_singleton.1 h
        exact .linkedFile hentry hlookup hnode
      · rename_i hnode
        split at h
        · cases h
        · rename_i hfresh
          exact .linkedDir hentry hlookup hnode hfresh (ih h)
      · cases h

/-! ### The bound of a walk -/

/-- The number of entries that are not among the directories a walk is in, the root counted. -/
def countFresh (tree : Tree) (walked : List Address) : Nat :=
  ([] :: tree.entries.map Prod.fst).countP fun a => !walked.contains a

theorem countP_fresh_le (a : Address) (walked l : List Address) :
    (l.countP fun b => !(a :: walked).contains b) ≤ l.countP fun b => !walked.contains b := by
  refine List.countP_mono_left fun b _ hb => ?_
  rw [List.contains_cons, Bool.not_or, Bool.and_eq_true] at hb
  exact hb.2

theorem countFresh_cons_le (tree : Tree) (a : Address) (walked : List Address) :
    tree.countFresh (a :: walked) ≤ tree.countFresh walked := countP_fresh_le a walked _

/-- A directory that a walk enters is no longer one that it is not in. -/
theorem countFresh_cons_lt {node : Node} (hnode : tree.node? a = some node) (ha : a ∉ walked) :
    tree.countFresh (a :: walked) < tree.countFresh walked := by
  have hmem : a ∈ [] :: tree.entries.map Prod.fst := by
    by_cases hroot : a = []
    · exact List.mem_cons.2 (.inl hroot)
    · exact List.mem_cons_of_mem _ (List.mem_map.2 ⟨_, node?_eq_some hnode hroot, rfl⟩)
  obtain ⟨l₁, l₂, hsplit⟩ := List.append_of_mem hmem
  have h₁ := countP_fresh_le a walked l₁
  have h₂ := countP_fresh_le a walked l₂
  unfold countFresh
  rw [hsplit, List.countP_append, List.countP_append, List.countP_cons_of_neg (by simp),
    List.countP_cons_of_pos (by simpa using ha)]
  omega

/-- A bound that is large enough for the directory at `here`, given the directories that a walk
is in. -/
def need (tree : Tree) (walked : List Address) (here : Address) : Nat :=
  tree.countFresh walked * (tree.entries.length + 1) + tree.countBelow here + 1

theorem countBelow_le (tree : Tree) (here : Address) : tree.countBelow here ≤ tree.entries.length :=
  List.countP_le_length

theorem need_dir {name : Text} {node : Node} (h : (here ++ [name], node) ∈ tree.entries) :
    tree.need ((here ++ [name]) :: walked) (here ++ [name]) < tree.need walked here := by
  have hbelow := countBelow_child h
  have hfresh := Nat.mul_le_mul_right (tree.entries.length + 1)
    (countFresh_cons_le tree (here ++ [name]) walked)
  unfold need
  omega

theorem need_link {node : Node} (hnode : tree.node? a = some node) (ha : a ∉ walked) :
    tree.need (a :: walked) a < tree.need walked here := by
  have hbelow := countBelow_le tree a
  have hfresh := Nat.mul_le_mul_right (tree.entries.length + 1) (countFresh_cons_lt hnode ha)
  unfold need
  rw [Nat.succ_mul] at hfresh
  omega

/-- The bound that a walk starts with is large enough. -/
theorem need_le {node : Node} (hnode : tree.node? a = some node) :
    tree.need [a] a ≤ (tree.entries.length + 1) * (tree.entries.length + 1) := by
  have hbelow := countBelow_le tree a
  have hall : tree.countFresh [] ≤ tree.entries.length + 1 :=
    Nat.le_trans List.countP_le_length (by simp)
  have hfresh := Nat.mul_le_mul_right (tree.entries.length + 1)
    (Nat.lt_of_lt_of_le (countFresh_cons_lt hnode List.not_mem_nil) hall)
  unfold need
  rw [Nat.succ_mul] at hfresh
  omega

theorem Below.mem_filesBelow (h : tree.Below walked path here p) {fuel : Nat}
    (hfuel : tree.need walked here ≤ fuel) : p ∈ tree.filesBelow fuel walked path here := by
  induction h generalizing fuel with
  | file hentry =>
    obtain ⟨fuel, rfl⟩ := Nat.exists_eq_add_of_lt (Nat.lt_of_succ_le hfuel)
    exact List.mem_flatMap.2 ⟨_, mem_children.2 hentry, List.mem_singleton_self _⟩
  | dir hentry _ ih =>
    have hneed := Nat.lt_of_lt_of_le (need_dir hentry) hfuel
    obtain ⟨fuel, rfl⟩ := Nat.exists_eq_succ_of_ne_zero (Nat.ne_zero_of_lt hneed)
    exact List.mem_flatMap.2 ⟨_, mem_children.2 hentry, ih (Nat.le_of_lt_succ hneed)⟩
  | linkedFile hentry hlookup hnode =>
    obtain ⟨fuel, rfl⟩ := Nat.exists_eq_add_of_lt (Nat.lt_of_succ_le hfuel)
    refine List.mem_flatMap.2 ⟨_, mem_children.2 hentry, ?_⟩
    simp [hlookup, hnode]
  | @linkedDir walked path p here a name target hentry hlookup hnode hfresh _ ih =>
    have hneed := Nat.lt_of_lt_of_le (@need_link tree walked here a _ hnode hfresh) hfuel
    obtain ⟨fuel, rfl⟩ := Nat.exists_eq_succ_of_ne_zero (Nat.ne_zero_of_lt hneed)
    refine List.mem_flatMap.2 ⟨_, mem_children.2 hentry, ?_⟩
    simp only [hlookup, hnode, hfresh, if_false]
    exact ih (Nat.le_of_lt_succ hneed)

/-- A walk finds exactly the files below a directory. -/
theorem mem_walk_iff (hroot : tree.isDir root = true) : p ∈ tree.walk root ↔ tree.Holds root p := by
  have hdir : ∃ a, tree.lookup root = .ok a ∧ tree.node? a = some .dir := by
    unfold isDir at hroot
    split at hroot
    · rename_i hnode
      exact nodeAt_eq_ok_iff.1 hnode
    · cases hroot
  obtain ⟨a, hlookup, hnode⟩ := hdir
  have hwalk : tree.walk root = tree.filesBelow
      ((tree.entries.length + 1) * (tree.entries.length + 1)) [a] root a := by
    simp only [walk, hlookup, hnode]
  rw [hwalk]
  constructor
  · intro h
    exact ⟨a, hlookup, hnode, below_of_mem_filesBelow h⟩
  · rintro ⟨b, hlookup', -, h⟩
    obtain rfl := Except.ok.inj (hlookup.symm.trans hlookup')
    exact h.mem_filesBelow (need_le hnode)

end Tree

end StylePrep
