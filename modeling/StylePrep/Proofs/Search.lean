import StylePrep.Import.Loader
import StylePrep.Proofs.Sheets

/-!
# Searching imports among sheets

An import is searched by name, and a name may lead to a sheet. Nothing comes of it: a
sheet is not text, so it cannot be read. But a sheet found first hides what comes after
it in the search order. The names tried for one target have one ending, and in an orderly
tree a file with the ending of sheets is a picture. So what a sheet hides could not be
read either (`Within.resolve`), and reading itself does not depend on sheets
(`Within.load_iff`).
-/

namespace StylePrep

open Text

namespace Path

theorem suffix_join (p q : Path) : q.text <:+ (p.join q).text := by
  unfold join
  split
  · exact List.suffix_rfl
  split
  · exact List.suffix_append _ _
  · exact (List.suffix_cons _ _).trans (List.suffix_append _ _)

/-- A joined path ends in the last segment of its second part. -/
theorem getLast?_join (p q : Path) :
    (splitOn '/' (p.join q).text).getLast? = (splitOn '/' q.text).getLast? := by
  have hlast (u : Text) :
      (splitOn '/' (u ++ '/' :: q.text)).getLast? = (splitOn '/' q.text).getLast? := by
    obtain ⟨s, hs⟩ := exists_getLast?_splitOn '/' q.text
    rw [splitOn_append_cons, List.getLast?_append, hs]
    rfl
  unfold join
  split
  · rfl
  split
  · rename_i hp
    simp only [Bool.or_eq_true, decide_eq_true_eq] at hp
    rcases hp with hp | hp
    · rw [hp, List.nil_append]
    · obtain ⟨u, hu⟩ := List.getLast?_eq_some_iff.1 hp
      rw [hu, List.append_assoc]
      exact hlast u
  · exact hlast p.text

theorem getLast?_segments {p : Path} {s : Text} (h : (splitOn '/' p.text).getLast? = some s)
    (hidle : isIdle s = false) : p.segments.2.getLast? = some s := by
  have hlast (first t : Text) (h : (first :: splitOn '/' t).getLast? = some s) :
      (splitOn '/' t).getLast? = some s := by
    rwa [List.getLast?_cons_of_ne_nil (splitOn_ne_nil '/' t)] at h
  unfold segments
  split
  · rename_i t htext
    rw [htext] at h
    exact hlast [] t h
  · rename_i htext
    rw [htext] at h
    obtain rfl := Option.some.inj h
    exact absurd hidle (by decide)
  · rename_i t htext
    rw [htext] at h
    exact hlast ['.'] t h
  · exact h

/-- A path that ends in a name names a file so. -/
theorem fileName?_eq {p : Path} {s : Text} (h : (splitOn '/' p.text).getLast? = some s)
    (hidle : isIdle s = false) : p.fileName? = if s = ['.', '.'] then none else some s := by
  obtain ⟨init, hinit⟩ := List.getLast?_eq_some_iff.1 (getLast?_segments h hidle)
  unfold fileName? components
  rw [← Prod.eta p.segments]
  simp only [hinit, List.filterMap_append, List.getLast?_append, List.filterMap_cons, hidle,
    List.filterMap_nil]
  by_cases hup : s = ['.', '.'] <;> simp [hup]

theorem not_mem_of_mem_segments {p : Path} {s : Text} (h : s ∈ p.segments.2) : '/' ∉ s := by
  unfold segments at h
  split at h
  · exact not_mem_of_mem_splitOn h
  · cases h
  · exact not_mem_of_mem_splitOn h
  · exact not_mem_of_mem_splitOn h

theorem not_mem_of_fileName? {p : Path} {name : Text} (h : p.fileName? = some name) :
    '/' ∉ name := by
  have hmem : Component.name name ∈ p.components := by
    unfold fileName? at h
    split at h
    · rename_i n hlast
      obtain rfl := Option.some.inj h
      exact List.mem_of_getLast? hlast
    · cases h
  unfold components at hmem
  rw [← Prod.eta p.segments] at hmem
  rcases List.mem_append.1 hmem with hfirst | hbody
  · split at hfirst <;> simp at hfirst
  · obtain ⟨s, hs, hname⟩ := List.mem_filterMap.1 hbody
    split at hname
    · cases hname
    split at hname
    · cases hname
    · cases hname
      exact not_mem_of_mem_segments hs

theorem withFileName_eq {p : Path} {name : Text} (h : p.fileName? = some name) (name' : Text) :
    p.withFileName name' = p.directory.join ⟨name'⟩ := by
  rw [withFileName, h, if_pos (Option.isSome_some)]

/-- A file name with the ending of sheets has an extension. -/
theorem extension?_isSome {p : Path} {name : Text} (h : p.fileName? = some name)
    (hname : Sheet.IsFileName name) : p.extension?.isSome = true := by
  obtain ⟨hdash, stem, rfl⟩ := hname
  have hstem : stem ≠ [] := by
    rintro rfl
    exact absurd hdash (by decide)
  unfold extension?
  rw [h]
  simp [splitName, Sheet.ending, splitOnce?, hstem]

end Path

namespace Import

theorem isIdle_of_isFileName {name : Text} (h : Sheet.IsFileName name) :
    Path.isIdle name = false := by
  simp only [Path.isIdle, Bool.or_eq_false_iff, decide_eq_false_iff_not]
  constructor
  · rintro rfl
    exact absurd h (by decide)
  · rintro rfl
    exact absurd h (by decide)

/-- A path that ends in the name of a sheet names a file so. -/
theorem fileName?_of_isFileName {p : Path} {name : Text}
    (hlast : (splitOn '/' p.text).getLast? = some name) (hname : Sheet.IsFileName name) :
    p.fileName? = some name := by
  rw [Path.fileName?_eq hlast (isIdle_of_isFileName hname), if_neg]
  rintro rfl
  exact absurd hname (by decide)

/-- The names tried for a target with an extension: the exact one, and that of a partial. -/
theorem mem_candidates {target name : Text} (hfile : (Path.mk target).fileName? = some name)
    (hext : (Path.mk target).extension?.isSome = true) {q : Path} (hq : q ∈ candidates target) :
    q = ⟨target⟩ ∨ '_' :: name <:+ q.text := by
  unfold candidates at hq
  simp only [hfile, hext, if_true] at hq
  split at hq
  · exact .inl (List.mem_singleton.1 hq)
  · rcases List.mem_cons.1 hq with rfl | hq
    · exact .inl rfl
    · obtain rfl := List.mem_singleton.1 hq
      refine .inr ?_
      rw [Path.withFileName_eq hfile]
      exact Path.suffix_join _ ⟨'_' :: name⟩

/-- If one of the names tried for a target is that of a sheet, the target has a file name
with the ending of sheets, and only this name and that of a partial are tried. -/
theorem candidates_of_isFileName {target name : Text} {c : Path} (hc : c ∈ candidates target)
    (hlast : (splitOn '/' c.text).getLast? = some name) (hname : Sheet.IsFileName name) :
    ∃ n, (Path.mk target).fileName? = some n ∧ Sheet.ending <:+ n ∧
      ∀ q ∈ candidates target, q = ⟨target⟩ ∨ '_' :: n <:+ q.text := by
  -- it is enough that the file name of the target is that of a sheet as well
  suffices h : ∃ n, (Path.mk target).fileName? = some n ∧ Sheet.IsFileName n by
    obtain ⟨n, hfile, hn⟩ := h
    exact ⟨n, hfile, hn.2, fun q hq => mem_candidates hfile (Path.extension?_isSome hfile hn) hq⟩
  have hending : Sheet.ending <:+ c.text := hname.2.trans (suffix_of_getLast?_splitOn hlast)
  have hexact (hc : c = ⟨target⟩) : (Path.mk target).fileName? = some name := by
    subst hc
    exact fileName?_of_isFileName hlast hname
  have hplain (names : List Path)
      (h : c ∈ names.map fun p => (⟨p.text ++ '.' :: extension⟩ : Path)) : False := by
    obtain ⟨p, -, rfl⟩ := List.mem_map.1 h
    rcases List.suffix_or_suffix_of_suffix hending (List.suffix_append p.text _) with h | h <;>
      exact absurd h (by decide)
  unfold candidates at hc
  cases hfile : (Path.mk target).fileName? with
  | none =>
    simp only [hfile, Path.extension?, Option.bind_none] at hc
    rcases List.mem_append.1 hc with hc | hc
    · exact absurd (hexact (List.mem_singleton.1 hc)) (by simp [hfile])
    · exact absurd hc (hplain _)
  | some n =>
    refine ⟨n, rfl, ?_⟩
    have hnames : c ∈ (if n.head? = some '_' then [⟨target⟩]
        else [⟨target⟩, (Path.mk target).withFileName ('_' :: n)] : List Path) := by
      simp only [hfile] at hc
      split at hc
      · exact hc
      · exact (List.mem_append.1 hc).resolve_right (hplain _)
    have hcase : c = ⟨target⟩ ∨ c = (Path.mk target).withFileName ('_' :: n) := by
      split at hnames
      · exact .inl (List.mem_singleton.1 hnames)
      · simpa using hnames
    rcases hcase with hc | rfl
    · obtain rfl := Option.some.inj (hfile.symm.trans (hexact hc))
      exact hname
    · -- the name of a partial has an underscore more
      have hslash : '/' ∉ '_' :: n :=
        List.not_mem_cons_of_ne_of_not_mem (by decide) (Path.not_mem_of_fileName? hfile)
      rw [Path.withFileName_eq hfile, Path.getLast?_join, splitOn_of_not_mem hslash] at hlast
      obtain rfl := Option.some.inj hlast
      refine ⟨(List.mem_cons.1 hname.1).resolve_left (by decide), ?_⟩
      exact (List.suffix_cons_iff.1 hname.2).resolve_left (by simp [Sheet.ending])

end Import

theorem Loader.load_of_lookup {loader : Loader} {tree : Tree} {p : Path} {a : Address}
    (h : tree.lookup p = .ok a) : loader.load tree p =
      if loader.permits (Tree.pathOf a) then do
        let text ← (tree.readText (Tree.pathOf a)).mapError (refusal (Tree.pathOf a))
        pure (Tree.pathOf a, text.normalizeNewlines)
      else .error (.notPermitted (Tree.pathOf a)) := by
  unfold load Tree.canonical
  rw [h]
  rfl

theorem Loader.load_of_fault {loader : Loader} {tree : Tree} {p : Path} {fault : Fault}
    (h : tree.lookup p = .error fault) : loader.load tree p = .error (refusal p fault) := by
  unfold load Tree.canonical
  rw [h]
  rfl

theorem Loader.load_eq_ok_iff {loader : Loader} {tree : Tree} {p q : Path} {t : Text} :
    loader.load tree p = .ok (q, t) ↔ ∃ a u, tree.lookup p = .ok a ∧ q = Tree.pathOf a ∧
      loader.permits q = true ∧ tree.readText q = .ok u ∧ t = u.normalizeNewlines := by
  cases hlookup : tree.lookup p with
  | error e => simp [load_of_fault hlookup]
  | ok a =>
    rw [load_of_lookup hlookup]
    simp only [Except.ok.injEq]
    split
    · rename_i hpermits
      cases htext : tree.readText (Tree.pathOf a) with
      | error e =>
        constructor
        · intro h
          cases h
        · rintro ⟨_, u, rfl, rfl, -, hu, -⟩
          exact absurd (htext.symm.trans hu) (by simp)
      | ok u =>
        constructor
        · intro h
          cases h
          exact ⟨a, u, rfl, rfl, hpermits, htext, rfl⟩
        · rintro ⟨_, u', rfl, rfl, -, hu, rfl⟩
          obtain rfl := Except.ok.inj (htext.symm.trans hu)
          rfl
    · rename_i hpermits
      constructor
      · intro h
        cases h
      · rintro ⟨_, u, rfl, rfl, hp, -, -⟩
        exact absurd hp hpermits

namespace Tree

open Sheet

variable {tree tree' : Tree} {gen : Address}

/-- A path to a file does not end in a segment that stands for nothing. -/
theorem isIdle_of_isFile {p : Path} (h : tree.isFile p = true) {s : Text}
    (hlast : (splitOn '/' p.text).getLast? = some s) : Path.isIdle s = false := by
  refine Bool.eq_false_iff.2 fun hidle => ?_
  obtain ⟨content, time, hfile⟩ := isFile_iff.1 h
  obtain ⟨a, hlookup, hnode⟩ := nodeAt_eq_ok_iff.1 hfile
  obtain ⟨-, n, hleads⟩ := lookup_eq_ok_iff.1 hlookup
  obtain ⟨init, hinit⟩ := List.getLast?_eq_some_iff.1 hlast
  rw [hinit] at hleads
  obtain ⟨b, m, -, hleads⟩ := leads_append.1 hleads
  cases hleads with
  | idle dir _ h =>
    cases h
    exact absurd (dir.symm.trans hnode) (by simp)
  | up => exact absurd hidle (by decide)
  | enter _ h => exact absurd hidle (by simp [h])
  | link _ h => exact absurd hidle (by simp [h])

namespace Within

variable (h : Within gen tree tree') (ho : (tree.bare gen).Orderly) (hroot : tree.Rooted)
include h ho

theorem orderly_right : (tree'.bare gen).Orderly := h.bare ▸ ho

include hroot

theorem readText_iff {p : Path} {t : Text} : tree.readText p = .ok t ↔ tree'.readText p = .ok t := by
  refine ⟨h.readText_mono, fun htext => ?_⟩
  obtain ⟨bytes, hread, hbytes⟩ := readText_eq_ok_iff.1 htext
  obtain ⟨time, hfile⟩ := read_eq_ok_iff.1 hread
  rcases h.nodeAt_reflect ho hroot hfile with hfile | ⟨hpicture, -⟩
  · exact readText_eq_ok_iff.2 ⟨bytes, read_eq_ok_iff.2 ⟨time, hfile⟩, hbytes⟩
  · exact absurd htext (readText_ne_ok_of_picture hfile hpicture t)

/-- Sheets do not matter for what can be read as text. -/
theorem load_iff (loader : Loader) {p : Path} {r : Path × Text} :
    loader.load tree p = .ok r ↔ loader.load tree' p = .ok r := by
  obtain ⟨q, t⟩ := r
  rw [Loader.load_eq_ok_iff, Loader.load_eq_ok_iff]
  constructor
  · rintro ⟨a, u, hlookup, hq, hpermits, htext, ht⟩
    exact ⟨a, u, h.lookup_mono hlookup, hq, hpermits, h.readText_mono htext, ht⟩
  · rintro ⟨a, u, hlookup, rfl, hpermits, htext, ht⟩
    rcases h.lookup_reflect ho hlookup with hlookup' | ⟨name, hname, rfl, -⟩
    · exact ⟨a, u, hlookup', rfl, hpermits, (h.readText_iff ho hroot).2 htext, ht⟩
    · exact absurd htext (readText_ne_ok_of_ending (h.orderly_right ho) h.picture
        (hname.2.trans (suffix_pathOf gen name)) u)

end Within

/-- What is behind a path with the ending of sheets is not read as text. -/
theorem load_ne_ok_of_ending (ho : (tree.bare gen).Orderly)
    (hsheet : ∀ a node, Sheet.At gen a → tree.node? a = some node → node.isPicture = true)
    {p : Path} (hp : ending <:+ p.text) (loader : Loader) (r : Path × Text) :
    loader.load tree p ≠ .ok r := by
  intro hload
  obtain ⟨q, t⟩ := r
  obtain ⟨b, u, hlookup, rfl, -, htext, -⟩ := Loader.load_eq_ok_iff.1 hload
  exact readText_ne_ok_of_ending ho hsheet (ending_pathOf ho hsheet hlookup hp) u htext

/-- An import is resolved to the canonical path of a file that was searched. -/
theorem resolve_eq_ok {target : Text} {dir : Path} {includes : List Path} {p : Path}
    (h : Import.resolve tree target dir includes = .ok p) :
    ∃ q a, q ∈ Import.searchPaths target dir includes ∧ tree.isFile q = true ∧
      tree.lookup q = .ok a ∧ p = pathOf a := by
  unfold Import.resolve at h
  dsimp only at h
  split at h
  · rename_i q hfind
    have hfile := List.find?_some hfind
    obtain ⟨content, time, hnode⟩ := isFile_iff.1 hfile
    obtain ⟨a, hlookup, -⟩ := nodeAt_eq_ok_iff.1 hnode
    rw [canonical, hlookup] at h
    exact ⟨q, a, List.mem_of_find?_eq_some hfind, hfile, hlookup, (Except.ok.inj h).symm⟩
  · cases h

/-- A file that is searched for a target after the name of a sheet has the ending of sheets
too. -/
theorem ending_of_mem_searchPaths {target : Text} {dir : Path} {includes : List Path} {p q : Path}
    (hp : p ∈ Import.searchPaths target dir includes)
    (hq : q ∈ Import.searchPaths target dir includes) (hfile : tree.isFile p = true)
    {name : Text} (hname : IsFileName name) (hlast : (splitOn '/' q.text).getLast? = some name) :
    ending <:+ p.text := by
  obtain ⟨d, -, hp⟩ := List.mem_flatMap.1 hp
  obtain ⟨c, hc, rfl⟩ := List.mem_map.1 hp
  obtain ⟨d', -, hq⟩ := List.mem_flatMap.1 hq
  obtain ⟨c', hc', rfl⟩ := List.mem_map.1 hq
  rw [Path.getLast?_join] at hlast
  obtain ⟨n, hn, hending, hnames⟩ := Import.candidates_of_isFileName hc' hlast hname
  rcases hnames c hc with rfl | hpartial
  · obtain ⟨s, hs⟩ := exists_getLast?_splitOn '/' target
    have hidle := isIdle_of_isFile hfile ((Path.getLast?_join d ⟨target⟩).trans hs)
    have hfileName := (Path.fileName?_eq (p := ⟨target⟩) hs hidle).symm.trans hn
    obtain rfl : s = n := by
      split at hfileName
      · cases hfileName
      · exact Option.some.inj hfileName
    exact hending.trans ((suffix_of_getLast?_splitOn hs).trans (Path.suffix_join d ⟨target⟩))
  · exact hending.trans ((List.suffix_cons _ _).trans (hpartial.trans (Path.suffix_join d c)))

/-- An import is found where it is found without the sheets, or what is found cannot be
read either way. -/
theorem Within.resolve (h : Within gen tree tree') (ho : (tree.bare gen).Orderly)
    (hroot : tree.Rooted) (target : Text) (dir : Path) (includes : List Path) :
    Import.resolve tree target dir includes = Import.resolve tree' target dir includes ∨
      ∀ (loader : Loader) (r : Path × Text),
        (∀ p, Import.resolve tree target dir includes = .ok p → loader.load tree p ≠ .ok r) ∧
        ∀ p, Import.resolve tree' target dir includes = .ok p → loader.load tree' p ≠ .ok r := by
  have hmono {q : Path} (hq : ¬ tree'.isFile q = true) : ¬ tree.isFile q = true :=
    fun hfile => hq (h.isFile_mono hfile)
  cases hfind : (Import.searchPaths target dir includes).find? tree'.isFile with
  | none =>
    have hfind' : (Import.searchPaths target dir includes).find? tree.isFile = none :=
      List.find?_eq_none.2 fun q hq => hmono (List.find?_eq_none.1 hfind q hq)
    left
    simp only [Import.resolve, hfind, hfind']
  | some q =>
    obtain ⟨hfile, before, after, hpaths, hbefore⟩ := List.find?_eq_some_iff_append.1 hfind
    obtain ⟨content, time, hnode⟩ := isFile_iff.1 hfile
    rcases h.nodeAt_reflect ho hroot hnode with hnode' | ⟨-, name, hname, hlast⟩
    · have hfind' : (Import.searchPaths target dir includes).find? tree.isFile = some q :=
        List.find?_eq_some_iff_append.2 ⟨isFile_iff.2 ⟨content, time, hnode'⟩, before, after,
          hpaths, fun p hp => by simpa using hmono (by simpa using hbefore p hp)⟩
      obtain ⟨a, hlookup, -⟩ := nodeAt_eq_ok_iff.1 hnode'
      left
      simp only [Import.resolve, hfind, hfind', canonical, hlookup, h.lookup_mono hlookup]
    · have hq : q ∈ Import.searchPaths target dir includes := by simp [hpaths]
      refine .inr fun loader r => ⟨fun p hp => ?_, fun p hp => ?_⟩
      · obtain ⟨q', a, hq', hfile', hlookup, rfl⟩ := resolve_eq_ok hp
        exact load_ne_ok_of_ending ho h.picture_left (ending_pathOf ho h.picture_left hlookup
          (ending_of_mem_searchPaths hq' hq hfile' hname hlast)) loader r
      · obtain ⟨q', a, hq', hfile', hlookup, rfl⟩ := resolve_eq_ok hp
        exact load_ne_ok_of_ending (h.orderly_right ho) h.picture
          (ending_pathOf (h.orderly_right ho) h.picture hlookup
            (ending_of_mem_searchPaths hq' hq hfile' hname hlast)) loader r

end Tree

end StylePrep
