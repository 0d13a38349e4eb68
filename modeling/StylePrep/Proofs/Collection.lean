import StylePrep.Project.Inputs
import StylePrep.Proofs.Walked

/-!
# The inputs of a build as a set

The inputs are collected from several paths. One and the same sheet can come up more than
once, named directly and found below one or more directories, each time with another path
relative to where it was found. Such a find is a `Way` to the sheet. The ways are sorted, by
the path and then by the relative path, and of the ways to one path the first is kept.

Paths are compared by their components, so two spellings can be one path. Up to that, what is
kept depends on the set of the ways alone (`map_key_collect`): it has one way for each path,
the one with the least relative path, in the order of the paths (`find_collects`). Neither the
order of the arguments nor that of a walk matters, nor whether something is named twice.
-/

namespace StylePrep

namespace Path

instance : Std.TransOrd Component :=
  inferInstanceAs (Std.TransCmp (compareLex (compareOn Component.rank) (compareOn Component.text)))

theorem Component.eq_of_text {a b : Component} (hrank : a.rank = b.rank) (htext : a.text = b.text) :
    a = b := by
  cases a <;> cases b <;> simp_all [Component.rank, Component.text]

instance : Std.LawfulEqOrd Component where
  eq_of_compare {a b} h := by
    obtain ⟨hrank, htext⟩ := Ordering.then_eq_eq.1 h
    exact Component.eq_of_text (Std.LawfulEqOrd.eq_of_compare hrank)
      (Std.LawfulEqOrd.eq_of_compare htext)

instance : Std.TransOrd Path :=
  inferInstanceAs (Std.TransCmp (compareOn Path.components))

theorem compare_eq_iff {p q : Path} : compare p q = .eq ↔ p.components = q.components :=
  show compare p.components q.components = .eq ↔ _ from Std.LawfulEqCmp.compare_eq_iff_eq

end Path

namespace Input

instance : Std.TransOrd Input :=
  inferInstanceAs (Std.TransCmp (compareLex (compareOn Input.path) (compareOn Input.relative)))

/-- What an input stands for: its two paths by their components. -/
def key (input : Input) : List Path.Component × List Path.Component :=
  (input.path.components, input.relative.components)

variable {i j : Input} {l l' : List Input}

theorem compare_path_of_isLE (h : (compare i j).isLE = true) : (compare i.path j.path).isLE = true := by
  rw [show compare i j = (compare i.path j.path).then (compare i.relative j.relative) from rfl] at h
  revert h
  cases compare i.path j.path <;> simp

/-- Inputs with the same path are ordered by their relative paths. -/
theorem compare_of_path (h : i.path.components = j.path.components) :
    compare i j = compare i.relative j.relative := by
  rw [show compare i j = (compare i.path j.path).then (compare i.relative j.relative) from rfl,
    Path.compare_eq_iff.2 h]
  rfl

/-! ### Keeping the first of each path -/

/-- Each input has a greater path than those before it. -/
def Increasing (l : List Input) : Prop := l.Pairwise fun i j => compare i.path j.path = .lt

/-- No input is less than one before it. -/
def Ascending (l : List Input) : Prop := l.Pairwise fun i j => (compare i j).isLE = true

/-- An input is put in front of those that are kept, or takes the place of their first. -/
theorem dropRepeats_cons (i : Input) (l : List Input) :
    (dropRepeats (i :: l) = i :: dropRepeats l ∧
      ∀ next, (dropRepeats l).head? = some next → next.path.components ≠ i.path.components) ∨
    ∃ next rest, dropRepeats l = next :: rest ∧ next.path.components = i.path.components ∧
      dropRepeats (i :: l) = i :: rest := by
  rw [dropRepeats]
  cases hkept : dropRepeats l with
  | nil => exact .inl ⟨rfl, nofun⟩
  | cons next rest =>
    dsimp only
    split
    · rename_i hsame
      exact .inr ⟨next, rest, rfl, of_decide_eq_true hsame, rfl⟩
    · rename_i hsame
      refine .inl ⟨rfl, ?_⟩
      rintro _ ⟨⟩
      exact fun hpath => hsame (decide_eq_true hpath)

theorem dropRepeats_sublist (l : List Input) : (dropRepeats l).Sublist l := by
  induction l with
  | nil => exact List.Sublist.refl []
  | cons i l ih =>
    rcases dropRepeats_cons i l with ⟨h, -⟩ | ⟨next, rest, hrest, -, h⟩
    · rw [h]
      exact ih.cons_cons i
    · rw [h]
      rw [hrest] at ih
      exact ((List.sublist_cons_self next rest).trans ih).cons_cons i

theorem Ascending.increasing_dropRepeats (h : Ascending l) : Increasing (dropRepeats l) := by
  induction l with
  | nil => exact .nil
  | cons i l ih =>
    obtain ⟨hi, hl⟩ := List.pairwise_cons.1 h
    have hkept := ih hl
    rcases dropRepeats_cons i l with ⟨heq, hhead⟩ | ⟨next, rest, hnext, hpath, heq⟩
    · rw [heq]
      refine List.pairwise_cons.2 ⟨?_, hkept⟩
      have hle : ∀ j ∈ dropRepeats l, (compare i.path j.path).isLE = true := fun j hj =>
        compare_path_of_isLE (hi j ((dropRepeats_sublist l).subset hj))
      cases hsplit : dropRepeats l with
      | nil => exact nofun
      | cons next rest =>
        rw [hsplit] at hle hhead hkept
        have hnext : compare i.path next.path = .lt := by
          refine (Ordering.isLE_iff_eq_lt_or_eq_eq.1 (hle next List.mem_cons_self)).resolve_right ?_
          exact fun h => hhead next rfl (Path.compare_eq_iff.1 h).symm
        refine List.forall_mem_cons.2 ⟨hnext, fun j hj => ?_⟩
        exact Std.TransCmp.lt_trans hnext ((List.pairwise_cons.1 hkept).1 j hj)
    · rw [heq]
      rw [hnext] at hkept
      obtain ⟨hafter, hrest⟩ := List.pairwise_cons.1 hkept
      refine List.pairwise_cons.2 ⟨fun j hj => ?_, hrest⟩
      exact Std.TransCmp.lt_of_eq_of_lt (Path.compare_eq_iff.2 hpath.symm) (hafter j hj)

/-- For each input one with the same path is kept that is no greater. -/
theorem Ascending.exists_kept (h : Ascending l) (hi : i ∈ l) :
    ∃ j ∈ dropRepeats l, j.path.components = i.path.components ∧ (compare j i).isLE = true := by
  induction l with
  | nil => cases hi
  | cons first l ih =>
    obtain ⟨hfirst, hl⟩ := List.pairwise_cons.1 h
    have hkept : first ∈ dropRepeats (first :: l) := by
      rcases dropRepeats_cons first l with ⟨heq, -⟩ | ⟨next, rest, -, -, heq⟩ <;> simp [heq]
    rcases List.mem_cons.1 hi with rfl | hi
    · exact ⟨i, hkept, rfl, by simp⟩
    · obtain ⟨j, hj, hpath, hle⟩ := ih hl hi
      rcases dropRepeats_cons first l with ⟨heq, -⟩ | ⟨next, rest, hnext, hsame, heq⟩
      · exact ⟨j, by simp [heq, hj], hpath, hle⟩
      · rw [hnext] at hj
        rcases List.mem_cons.1 hj with rfl | hj
        · exact ⟨first, hkept, hsame.symm.trans hpath, hfirst i hi⟩
        · exact ⟨j, by simp [heq, hj], hpath, hle⟩

/-! ### Collecting inputs -/

def collect (found : List Input) : List Input :=
  dropRepeats (found.mergeSort fun a b => (compare a b).isLE)

variable {found found' : List Input}

theorem ascending_mergeSort (found : List Input) :
    Ascending (found.mergeSort fun a b => (compare a b).isLE) := by
  refine List.pairwise_mergeSort (fun a b c => Std.TransCmp.isLE_trans) (fun a b => ?_) found
  rw [Bool.or_eq_true, ← Std.OrientedCmp.isGE_iff_isLE (a := a) (b := b)]
  cases compare a b <;> simp

theorem increasing_collect (found : List Input) : Increasing (collect found) :=
  (ascending_mergeSort found).increasing_dropRepeats

theorem mem_of_mem_collect (h : i ∈ collect found) : i ∈ found :=
  List.mem_mergeSort.1 ((dropRepeats_sublist _).subset h)

theorem exists_mem_collect (h : i ∈ found) :
    ∃ j ∈ collect found, j.path.components = i.path.components ∧ (compare j i).isLE = true :=
  (ascending_mergeSort found).exists_kept (List.mem_mergeSort.2 h)

/-- One input is kept for each path. -/
theorem Increasing.eq_of_path (h : Increasing l) (hi : i ∈ l) (hj : j ∈ l)
    (hpath : i.path.components = j.path.components) : i = j := by
  obtain ⟨m, hm, rfl⟩ := List.getElem_of_mem hi
  obtain ⟨n, hn, rfl⟩ := List.getElem_of_mem hj
  have hlt := List.pairwise_iff_getElem.1 h
  rcases Nat.lt_trichotomy m n with hmn | rfl | hmn
  · cases (Path.compare_eq_iff.2 hpath).symm.trans (hlt m n hm hn hmn)
  · rfl
  · cases (Path.compare_eq_iff.2 hpath.symm).symm.trans (hlt n m hn hm hmn)

/-- What is kept is the least of all that was found under its path. -/
theorem isLE_of_mem_collect (hi : i ∈ collect found) (hj : j ∈ found)
    (hpath : j.path.components = i.path.components) : (compare i j).isLE = true := by
  obtain ⟨k, hk, hkpath, hle⟩ := exists_mem_collect hj
  rwa [(increasing_collect found).eq_of_path hi hk (hkpath.trans hpath).symm]

theorem key_eq_of_isLE (hpath : i.path.components = j.path.components)
    (h : (compare i j).isLE = true) (h' : (compare j i).isLE = true) : i.key = j.key := by
  have heq : compare i j = .eq := Std.OrientedCmp.isLE_antisymm h h'
  rw [compare_of_path hpath] at heq
  exact Prod.ext hpath (Path.compare_eq_iff.1 heq)

/-- What is kept stands for the same inputs whatever the order in which they were found. -/
theorem map_key_collect (h : ∀ i, i ∈ found ↔ i ∈ found') :
    (collect found).map key = (collect found').map key := by
  have hsubset {found found' : List Input} (h : ∀ i, i ∈ found ↔ i ∈ found') :
      (collect found).map key ⊆ (collect found').map key := by
    intro k hk
    obtain ⟨i, hi, rfl⟩ := List.mem_map.1 hk
    obtain ⟨j, hj, hpath, hle⟩ := exists_mem_collect ((h i).1 (mem_of_mem_collect hi))
    have hle' := isLE_of_mem_collect hi ((h j).2 (mem_of_mem_collect hj)) hpath
    exact List.mem_map.2 ⟨j, hj, key_eq_of_isLE hpath hle hle'⟩
  have hincreasing (found : List Input) :
      ((collect found).map key).Pairwise fun k k' => compare k.1 k'.1 = .lt :=
    List.pairwise_map.2 (increasing_collect found)
  have hnodup (found : List Input) : ((collect found).map key).Nodup :=
    (hincreasing found).imp fun hlt heq => by simp [heq] at hlt
  refine List.Perm.eq_of_pairwise (fun k k' _ _ hlt hgt => ?_) (hincreasing found)
    (hincreasing found') ((List.perm_ext_iff_of_nodup (hnodup _) (hnodup _)).2 fun k =>
      ⟨@hsubset found found' h k, @hsubset found' found (fun i => (h i).symm) k⟩)
  rw [@Std.OrientedCmp.eq_swap _ compare, hlt] at hgt
  cases hgt

/-! ### Finding inputs in a tree -/

/-- `Way tree excludes paths i`: the style sheet `i` is found, by a path that names it or below one
that names a directory. -/
inductive Way (tree : Tree) (excludes : List Glob) (paths : List Path) : Input → Prop where
  | named {p : Path} (mem : p ∈ paths) (notDir : tree.isDir p = false)
      (wanted : isWanted excludes p = true) :
      Way tree excludes paths ⟨p, (p.fileName?.map Path.mk).getD p⟩
  | below {dir file : Path} (mem : dir ∈ paths) (isDir : tree.isDir dir = true)
      (holds : tree.Holds dir file) (sheet : file.extension? = some Import.extension)
      (wanted : isWanted excludes file = true) :
      Way tree excludes paths ⟨file, (file.below? dir).getD file⟩

/-- The inputs that a path names, with the files below a directory in the order of `walk`. -/
def namedBy (walk : Path → List Path) (tree : Tree) (excludes : List Glob) (p : Path) : List Input :=
  if tree.isDir p then
    let files := (walk p).filter fun file =>
      file.extension? = some Import.extension && isWanted excludes file
    files.map fun file => ⟨file, (file.below? p).getD file⟩
  else if isWanted excludes p then
    [⟨p, (p.fileName?.map Path.mk).getD p⟩]
  else []

/-- The inputs that paths name, with the files below directories in the order of `walk`. -/
def findBy (walk : Path → List Path) (tree : Tree) (excludes : List Glob) (paths : List Path) :
    List Input :=
  collect (paths.flatMap (namedBy walk tree excludes))

variable {tree : Tree} {excludes : List Glob} {paths : List Path}

theorem find_eq_findBy (tree : Tree) (excludes : List Glob) (paths : List Path) :
    find tree excludes paths = findBy tree.walk tree excludes paths := rfl

/-- Whatever the order of a walk, the ways to the style sheets are found. -/
theorem mem_flatMap_namedBy {walk : Path → List Path} (hwalk : ∀ dir p, p ∈ walk dir ↔ p ∈ tree.walk dir) :
    i ∈ paths.flatMap (namedBy walk tree excludes) ↔ Way tree excludes paths i := by
  rw [List.mem_flatMap]
  constructor
  · rintro ⟨p, hp, hi⟩
    unfold namedBy at hi
    split at hi
    · rename_i hdir
      obtain ⟨file, hfile, rfl⟩ := List.mem_map.1 hi
      obtain ⟨hmem, hsheet, hwanted⟩ : file ∈ walk p ∧ file.extension? = some Import.extension ∧
          isWanted excludes file = true := by simpa using hfile
      exact .below hp hdir ((Tree.mem_walk_iff hdir).1 ((hwalk p file).1 hmem)) hsheet hwanted
    · rename_i hdir
      split at hi
      · rename_i hwanted
        obtain rfl := List.mem_singleton.1 hi
        exact .named hp (Bool.eq_false_iff.2 hdir) hwanted
      · cases hi
  · rintro (⟨hp, hdir, hwanted⟩ | ⟨hp, hdir, hholds, hsheet, hwanted⟩)
    · refine ⟨_, hp, ?_⟩
      simp [namedBy, hdir, hwanted]
    · refine ⟨_, hp, ?_⟩
      have hmem := (hwalk _ _).2 ((Tree.mem_walk_iff hdir).2 hholds)
      simp only [namedBy, hdir, if_true, List.mem_map, List.mem_filter]
      exact ⟨_, ⟨hmem, by simp [hsheet, hwanted]⟩, rfl⟩

theorem Way.of_mem {paths' : List Path} (h : Way tree excludes paths i)
    (hpaths : ∀ p, p ∈ paths → p ∈ paths') : Way tree excludes paths' i := by
  cases h with
  | named hp hdir hwanted => exact .named (hpaths _ hp) hdir hwanted
  | below hp hdir hholds hsheet hwanted => exact .below (hpaths _ hp) hdir hholds hsheet hwanted

/-- A path that is to be built: one of the arguments that is no directory, or a style sheet below
one that is. -/
def Accepted (tree : Tree) (excludes : List Glob) (paths : List Path) (p : Path) : Prop :=
  (p ∈ paths ∧ tree.isDir p = false ∨ (∃ dir ∈ paths, tree.isDir dir = true ∧ tree.Holds dir p) ∧
    p.extension? = some "scss".toList) ∧
  Import.isPartial p = false ∧ Glob.anyExcludes excludes p.text = false

theorem accepted_iff {p : Path} :
    Accepted tree excludes paths p ↔ ∃ relative, Way tree excludes paths ⟨p, relative⟩ := by
  have hwanted : (Import.isPartial p = false ∧ Glob.anyExcludes excludes p.text = false) ↔
      isWanted excludes p = true := by simp [isWanted]
  rw [Accepted, hwanted]
  constructor
  · rintro ⟨⟨hp, hdir⟩ | ⟨⟨dir, hp, hdir, hholds⟩, hsheet⟩, hwanted⟩
    · exact ⟨_, .named hp hdir hwanted⟩
    · exact ⟨_, .below hp hdir hholds hsheet hwanted⟩
  · rintro ⟨relative, ⟨hp, hdir, hwanted⟩ | ⟨hp, hdir, hholds, hsheet, hwanted⟩⟩
    · exact ⟨.inl ⟨hp, hdir⟩, hwanted⟩
    · exact ⟨.inr ⟨⟨_, hp, hdir, hholds⟩, hsheet⟩, hwanted⟩

/-- The inputs have increasing paths, and these are the paths that are to be built. Each comes
with the least relative path among all ways to it. Up to the spelling of paths, the inputs
depend neither on the order of the arguments, nor on how often each is given, nor on the order
of a walk. -/
theorem find_collects (tree : Tree) (excludes : List Glob) (paths : List Path) :
    ((find tree excludes paths).Pairwise fun i j => compare i.path j.path = .lt) ∧
    (∀ i ∈ find tree excludes paths, Accepted tree excludes paths i.path) ∧
    (∀ p : Path, (∃ i ∈ find tree excludes paths, i.path.same p = true) ↔
      ∃ q, q.same p = true ∧ Accepted tree excludes paths q) ∧
    (∀ i ∈ find tree excludes paths, Way tree excludes paths i ∧
      ∀ j, Way tree excludes paths j → j.path.same i.path = true →
        (compare i.relative j.relative).isLE = true) ∧
    ∀ (walk : Path → List Path) (paths' : List Path),
      (∀ dir p, p ∈ walk dir ↔ p ∈ tree.walk dir) → (∀ p, p ∈ paths' ↔ p ∈ paths) →
        (findBy walk tree excludes paths').map key = (find tree excludes paths).map key := by
  have hfound {i : Input} : i ∈ paths.flatMap (namedBy tree.walk tree excludes) ↔
      Way tree excludes paths i := mem_flatMap_namedBy fun _ _ => .rfl
  have hway {i : Input} (hi : i ∈ find tree excludes paths) : Way tree excludes paths i :=
    hfound.1 (mem_of_mem_collect hi)
  refine ⟨increasing_collect _, fun i hi => accepted_iff.2 ⟨i.relative, hway hi⟩, fun p => ⟨?_, ?_⟩,
    fun i hi => ⟨hway hi, fun j hj hsame => ?_⟩, fun walk paths' hwalk hpaths => ?_⟩
  · rintro ⟨i, hi, hsame⟩
    exact ⟨i.path, hsame, accepted_iff.2 ⟨i.relative, hway hi⟩⟩
  · rintro ⟨q, hsame, haccepted⟩
    obtain ⟨relative, hq⟩ := accepted_iff.1 haccepted
    obtain ⟨j, hj, hpath, -⟩ := exists_mem_collect (hfound.2 hq)
    exact ⟨j, hj, decide_eq_true (hpath.trans (of_decide_eq_true hsame))⟩
  · have hpath : j.path.components = i.path.components := of_decide_eq_true hsame
    rw [← compare_of_path hpath.symm]
    exact isLE_of_mem_collect hi (hfound.2 hj) hpath
  · refine map_key_collect fun i => ?_
    rw [mem_flatMap_namedBy hwalk]
    refine .trans ⟨fun h => h.of_mem fun p => (hpaths p).1, fun h => h.of_mem fun p => (hpaths p).2⟩
      hfound.symm

def nested : Tree := ⟨[(["a".toList], .dir), (["a".toList, "x.scss".toList], .file [] 0)], [], 0⟩

/-- A style sheet that is below two of the arguments is an input once, with the lesser of its
relative paths, also if the arguments come in another order and one of them twice. -/
theorem find_collects_nested :
    find nested [] [⟨['/']⟩, ⟨"/a".toList⟩] = [⟨⟨"/a/x.scss".toList⟩, ⟨"a/x.scss".toList⟩⟩] ∧
      (find nested [] [⟨"/a".toList⟩, ⟨['/']⟩, ⟨"/a".toList⟩]).map key =
        [⟨⟨"/a/x.scss".toList⟩, ⟨"a/x.scss".toList⟩⟩].map key := by
  have hnamed : [Path.mk ['/'], ⟨"/a".toList⟩].flatMap (named nested []) =
      [⟨⟨"/a/x.scss".toList⟩, ⟨"a/x.scss".toList⟩⟩, ⟨⟨"/a/x.scss".toList⟩, ⟨"x.scss".toList⟩⟩] := by
    decide +kernel
  have hfind : find nested [] [⟨['/']⟩, ⟨"/a".toList⟩] =
      [⟨⟨"/a/x.scss".toList⟩, ⟨"a/x.scss".toList⟩⟩] := by
    rw [find, hnamed, List.mergeSort_of_pairwise (by decide +kernel)]
    decide +kernel
  obtain ⟨-, -, -, -, hsame⟩ := find_collects nested [] [⟨['/']⟩, ⟨"/a".toList⟩]
  rw [← hfind]
  exact ⟨rfl, hsame nested.walk _ (fun _ _ => .rfl) (by simp [or_comm])⟩

end Input

end StylePrep
