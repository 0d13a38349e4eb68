import Mathlib.Data.List.Induction
import StylePrep.Proofs.Arguments
import StylePrep.Proofs.Canonical
import StylePrep.Sprite.Expand

/-!
# Where addresses lead

The address of a file is the way to it from the build directory, judged by the components of both
paths: up to where they part, and down again. A step up takes the reader to the directory above,
so an address is read from the lexical normal form of the build directory, where names have
cancelled the steps up behind them. Its own steps up are counted on the path as it is written.

The two agree as long as the build directory does not go up behind the part that it shares with
the path of the file. If it does, each of its steps up costs two names (`drop_walk`), and the
address leads astray unless the file's own path goes up to the root (`follow_urlFor_iff`).
-/

namespace StylePrep

namespace Path

open Text

/-- Where a component leads from a directory, which is given by its names from the inside out.
There is nothing above the root. -/
def Component.enter (dir : List Text) : Component → List Text
  | root => []
  | here => dir
  | up => dir.tail
  | name n => n :: dir

def walk (dir : List Text) (cs : List Component) : List Text := cs.foldl Component.enter dir

/-- The lexical normal form of an absolute path: its names from the inside out. -/
def normal (p : Path) : List Text := walk [] p.components

def Component.ofSegment? (segment : Text) : Option Component :=
  if isIdle segment then none
  else if segment = ['.', '.'] then some up
  else some (name segment)

/-- Where an address leads from a directory. -/
def follow (dir : List Text) (address : Text) : List Text :=
  walk dir ((splitOn '/' address).filterMap Component.ofSegment?)

/-! ### Steps -/

/-- A component that is a segment of its own: a step up, or a name. -/
inductive Component.IsStep : Component → Prop
  | up : IsStep up
  | name {n : Text} (isName : IsName n) : IsStep (name n)

namespace Component

variable {c : Component} {segment : Text}

theorem IsStep.not_mem (h : c.IsStep) : '/' ∉ c.text := by
  cases h with
  | up => decide
  | name hname => exact hname.1

theorem IsStep.isIdle_eq_false (h : c.IsStep) : isIdle c.text = false := by
  cases h with
  | up => rfl
  | name hname => exact hname.2.1

theorem IsStep.ofSegment? (h : c.IsStep) : ofSegment? c.text = some c := by
  rw [Component.ofSegment?, h.isIdle_eq_false]
  cases h with
  | up => rfl
  | name hname => simp [text, hname.2.2]

theorem isStep_of_ofSegment? (hsegment : '/' ∉ segment) (h : ofSegment? segment = some c) :
    c.IsStep := by
  unfold ofSegment? at h
  split at h
  · cases h
  · rename_i hidle
    split at h
    · cases h
      exact .up
    · rename_i hup
      cases h
      exact .name ⟨hsegment, Bool.eq_false_iff.2 hidle, hup⟩

end Component

open Component

/-! ### The components of a path -/

/-- Behind the root a path has nothing but steps. -/
theorem exists_components_eq {p : Path} (h : p.isAbsolute = true) :
    ∃ steps, p.components = root :: steps ∧ ∀ c ∈ steps, c.IsStep := by
  obtain ⟨t, ht⟩ := List.head?_eq_some_iff.1 (of_decide_eq_true h)
  refine ⟨(splitOn '/' t).filterMap Component.ofSegment?, ?_, ?_⟩
  · unfold components segments
    rw [ht]
    rfl
  · intro c hc
    obtain ⟨segment, hmem, hsegment⟩ := List.mem_filterMap.1 hc
    exact isStep_of_ofSegment? (not_mem_of_mem_splitOn hmem) hsegment

def spell (cs : List Component) : Text := Text.join ['/'] (cs.map Component.text)

theorem slashed_eq (p : Path) : p.slashed = spell p.components := rfl

variable {steps : List Component}

theorem splitOn_spell (h : ∀ c ∈ steps, c.IsStep) (hne : steps ≠ []) :
    splitOn '/' (spell steps) = steps.map Component.text := by
  refine splitOn_join (by simpa using hne) fun segment hsegment => ?_
  obtain ⟨c, hc, rfl⟩ := List.mem_map.1 hsegment
  exact (h c hc).not_mem

/-- Steps that are spelled are read as these steps. -/
theorem filterMap_splitOn_spell (h : ∀ c ∈ steps, c.IsStep) :
    (splitOn '/' (spell steps)).filterMap Component.ofSegment? = steps := by
  by_cases hne : steps = []
  · subst hne
    rfl
  · rw [splitOn_spell h hne, List.filterMap_map]
    conv_rhs => rw [← List.filterMap_some (l := steps)]
    exact List.filterMap_congr fun c hc => (h c hc).ofSegment?

/-- A spelling whose first segment counts starts with neither a slash nor a dot of its own. -/
theorem segments_eq {p : Path} {s : Text} {others : List Text}
    (h : splitOn '/' p.text = s :: others) (hidle : isIdle s = false) :
    p.segments = (.none, s :: others) := by
  unfold segments
  split
  · rename_i t ht
    rw [ht, splitOn, if_pos rfl] at h
    cases h
    cases hidle
  · rename_i ht
    rw [ht] at h
    cases h
    cases hidle
  · rename_i t ht
    rw [ht, splitOn_cons_of_ne (by decide) (by rw [splitOn, if_pos rfl])] at h
    cases h
    cases hidle
  · rw [h]

theorem components_spell (h : ∀ c ∈ steps, c.IsStep) :
    (Path.mk (spell steps)).components = steps := by
  cases steps with
  | nil => rfl
  | cons c steps =>
    have hsplit := splitOn_spell h (List.cons_ne_nil c steps)
    have hread := filterMap_splitOn_spell h
    unfold components
    rw [hsplit] at hread
    rw [segments_eq (p := ⟨spell (c :: steps)⟩) hsplit (h c List.mem_cons_self).isIdle_eq_false]
    exact hread

theorem spell_concat (hne : steps ≠ []) (c : Component) :
    spell (steps ++ [c]) = spell steps ++ '/' :: c.text := by
  obtain ⟨first, others, rfl⟩ := List.exists_cons_of_ne_nil hne
  unfold spell
  rw [List.map_append, List.map_cons, List.map_cons, List.map_nil, Call.join_concat]
  simp

/-- What is spelled ends as its last step does, which is not in a slash. -/
theorem getLast?_spell (h : ∀ c ∈ steps, c.IsStep) (hne : steps ≠ []) :
    ∃ last, (spell steps).getLast? = some last ∧ last ≠ '/' := by
  obtain ⟨init, c, rfl⟩ := (List.eq_nil_or_concat steps).resolve_left hne
  rw [List.concat_eq_append] at h ⊢
  have hc := h c (by simp)
  have htext : c.text ≠ [] := fun htext => by simpa [htext, isIdle] using hc.isIdle_eq_false
  have hend : c.text.getLast? = some (c.text.getLast htext) := List.getLast?_eq_some_getLast htext
  refine ⟨c.text.getLast htext, ?_, fun heq => hc.not_mem (heq ▸ List.getLast_mem htext)⟩
  by_cases hinit : init = []
  · subst hinit
    exact hend
  · rw [spell_concat hinit, List.getLast?_append, List.getLast?_cons_of_ne_nil htext, hend]
    rfl

/-- Joining steps one by one spells them. -/
theorem foldl_join (h : ∀ c ∈ steps, c.IsStep) :
    steps.foldl (fun q c => q.join ⟨Component.text c⟩) (Path.mk []) = ⟨spell steps⟩ := by
  induction steps using List.reverseRecOn with
  | nil => rfl
  | append_singleton steps c ih =>
    have hrelative := isAbsolute_mk (h c (by simp)).not_mem
    have hsteps : ∀ d ∈ steps, d.IsStep := fun d hd => h d (by simp [hd])
    rw [List.foldl_concat, ih hsteps, join, hrelative, if_neg Bool.false_ne_true]
    by_cases hne : steps = []
    · subst hne
      rfl
    · obtain ⟨last, hlast, hslash⟩ := getLast?_spell hsteps hne
      have hnil : spell steps ≠ [] := fun hnil => by simp [hnil] at hlast
      rw [if_neg (by simp [hnil, hlast, hslash]), spell_concat hne]

/-- What a path shares with a directory, at the front of both. -/
theorem take_commonLength (as bs : List Component) :
    as.take (commonLength as bs) = bs.take (commonLength as bs) := by
  fun_induction commonLength as bs with
  | case1 a as bs ih => rw [List.take_succ_cons, List.take_succ_cons, ih]
  | case2 => rfl
  | case3 => rfl

/-- Absolute paths share the root at least. -/
theorem commonLength_pos {dir p : Path} (hdir : dir.isAbsolute = true)
    (hp : p.isAbsolute = true) : 0 < commonLength dir.components p.components := by
  obtain ⟨ds, hds, -⟩ := exists_components_eq hdir
  obtain ⟨ps, hps, -⟩ := exists_components_eq hp
  rw [hds, hps, commonLength, if_pos rfl]
  exact Nat.succ_pos _

theorem isStep_of_mem_drop {p : Path} (hp : p.isAbsolute = true) {n : Nat} (hn : 0 < n) :
    ∀ c ∈ p.components.drop n, c.IsStep := by
  intro c hc
  obtain ⟨steps, hp, hsteps⟩ := exists_components_eq hp
  obtain ⟨n, rfl⟩ := Nat.exists_eq_add_of_lt hn
  rw [hp, List.drop_succ_cons] at hc
  exact hsteps c (List.mem_of_mem_drop hc)

/-- A way up and down again that stays below the root has only steps. -/
theorem isStep_of_mem_way {p : Path} (hp : p.isAbsolute = true) {n : Nat} (hn : 0 < n) (ups : Nat) :
    ∀ c ∈ List.replicate ups up ++ p.components.drop n, c.IsStep := by
  intro c hc
  rcases List.mem_append.1 hc with hc | hc
  · rw [List.eq_of_mem_replicate hc]
    exact .up
  · exact isStep_of_mem_drop hp hn c hc

/-- The way from a directory to a path goes up to where they part, and down again. -/
theorem slashed_relativeTo {dir p : Path} (hdir : dir.isAbsolute = true)
    (hp : p.isAbsolute = true) {common : Nat}
    (hcommon : commonLength dir.components p.components = common) :
    (p.relativeTo dir).slashed = spell
      (List.replicate (dir.components.length - common) up ++ p.components.drop common) := by
  have hsteps := isStep_of_mem_way hp (hcommon ▸ commonLength_pos hdir hp)
    (dir.components.length - common)
  rw [slashed_eq, relativeTo, hcommon]
  simp only [foldl_join hsteps, components_spell hsteps]

/-! ### Walks -/

section Walk

variable {dir dir' : List Text} {cs : List Component}

@[simp] theorem walk_nil : walk dir [] = dir := rfl

@[simp] theorem walk_cons (c : Component) : walk dir (c :: cs) = walk (c.enter dir) cs := rfl

@[simp] theorem walk_append (cs' : List Component) :
    walk dir (cs ++ cs') = walk (walk dir cs) cs' :=
  List.foldl_append

theorem walk_replicate_up (n : Nat) : walk dir (List.replicate n up) = dir.drop n := by
  induction n generalizing dir with
  | zero => rfl
  | succ n ih => rw [List.replicate_succ, walk_cons, ih, Component.enter, List.drop_tail]

/-- Going back by as many steps as were made ends two names higher for each step up. -/
theorem drop_walk (h : ∀ c ∈ cs, c.IsStep) :
    (walk dir cs).drop cs.length = dir.drop (2 * cs.count up) := by
  induction cs using List.reverseRecOn with
  | nil => rfl
  | append_singleton cs c ih =>
    have ih := ih fun d hd => h d (by simp [hd])
    rw [walk_append, walk_cons, walk_nil, List.length_append, List.length_singleton]
    cases h c (by simp) with
    | up =>
      calc (walk dir cs).tail.drop (cs.length + 1)
          = ((walk dir cs).drop cs.length).drop 2 := by rw [List.drop_tail, List.drop_drop]
        _ = dir.drop (2 * cs.count up + 2) := by rw [ih, List.drop_drop]
        _ = dir.drop (2 * (cs ++ [up]).count up) := by
          rw [List.count_append, List.count_singleton_self, Nat.mul_succ]
    | name hname => simpa [Component.enter, List.count_append] using ih

/-- A directory that is as high up stays so. -/
theorem length_walk_le (h : dir.length ≤ dir'.length) :
    (walk dir cs).length ≤ (walk dir' cs).length := by
  induction cs generalizing dir dir' with
  | nil => exact h
  | cons c cs ih =>
    refine ih ?_
    cases c <;> simp [Component.enter] <;> omega

/-- A directory that is higher up stays so, as long as the other does not come to the root. -/
theorem length_walk_lt (h : dir.length < dir'.length) (hroot : ∀ n, walk dir' (cs.take n) ≠ []) :
    (walk dir cs).length < (walk dir' cs).length := by
  induction cs generalizing dir dir' with
  | nil => exact h
  | cons c cs ih =>
    have hfirst : c.enter dir' ≠ [] := hroot 1
    have hpos : 0 < (c.enter dir').length := List.length_pos_iff.2 hfirst
    refine ih ?_ fun n => hroot (n + 1)
    cases c with
    | root => exact absurd rfl hfirst
    | here => exact h
    | up =>
      simp only [Component.enter, List.length_tail] at hpos ⊢
      omega
    | name n => simpa [Component.enter] using h

/-- Two directories of which one is higher up lead to the same place only if the way from the
other goes up to the root. -/
theorem walk_eq_iff (h : dir.length < dir'.length) :
    walk dir cs = walk dir' cs ↔ ∃ n, walk dir' (cs.take n) = [] := by
  constructor
  · intro heq
    by_contra hroot
    have hlt := length_walk_lt h fun n hnil => hroot ⟨n, hnil⟩
    rw [heq] at hlt
    exact Nat.lt_irrefl _ hlt
  · rintro ⟨n, hnil⟩
    have hle : (walk dir (cs.take n)).length ≤ (walk dir' (cs.take n)).length :=
      length_walk_le (Nat.le_of_lt h)
    rw [hnil, List.length_nil, Nat.le_zero, List.length_eq_zero_iff] at hle
    rw [← List.take_append_drop n cs, walk_append, walk_append, hle, hnil]

/-- Names dropped from a directory are missed, unless there are none or the way goes up to the
root. -/
theorem walk_drop_eq_iff (n : Nat) :
    walk (dir.drop n) cs = walk dir cs ↔ n = 0 ∨ ∃ m, walk dir (cs.take m) = [] := by
  by_cases hn : n = 0
  · simp [hn]
  by_cases hdir : dir = []
  · subst hdir
    exact iff_of_true (by rw [List.drop_nil]) (.inr ⟨0, rfl⟩)
  · have hpos : 0 < dir.length := List.length_pos_iff.2 hdir
    rw [walk_eq_iff (by rw [List.length_drop]; omega), or_iff_right hn]

end Walk

/-! ### Addresses -/

theorem follow_spell {steps : List Component} (h : ∀ c ∈ steps, c.IsStep) (dir : List Text) :
    follow dir (spell steps) = walk dir steps := by
  rw [follow, filterMap_splitOn_spell h]

/-- The address of a file leads on from what the build directory and the file share, but two names
higher for each step up that the build directory takes behind it. -/
theorem follow_urlFor {config : SpriteConfig} {p : Path}
    (hdir : config.buildDir.isAbsolute = true) (hp : p.isAbsolute = true) {common : Nat}
    (hcommon : commonLength config.buildDir.components p.components = common) :
    follow config.buildDir.normal (Expand.urlFor config p) =
      walk ((walk [] (p.components.take common)).drop
        (2 * (config.buildDir.components.drop common).count up)) (p.components.drop common) := by
  have hpos : 0 < common := hcommon ▸ commonLength_pos hdir hp
  have hnormal : config.buildDir.normal = walk (walk [] (p.components.take common))
      (config.buildDir.components.drop common) := by
    rw [← walk_append, ← hcommon, ← take_commonLength, List.take_append_drop]
    rfl
  have hsteps : ∀ c ∈ List.replicate (config.buildDir.components.length - common) up ++
      p.components.drop common, c.IsStep := isStep_of_mem_way hp hpos _
  rw [Expand.urlFor, slashed_relativeTo hdir hp hcommon, follow_spell hsteps, walk_append,
    walk_replicate_up, ← List.length_drop, hnormal, drop_walk (isStep_of_mem_drop hdir hpos)]

/-- The address of a file leads there from the build directory, unless the build directory goes up
behind what the two share, and the file's own path does not go up to the root behind it. -/
theorem follow_urlFor_iff {config : SpriteConfig} {p : Path}
    (hdir : config.buildDir.isAbsolute = true) (hp : p.isAbsolute = true) :
    follow config.buildDir.normal (Expand.urlFor config p) = p.normal ↔
      up ∉ config.buildDir.components.drop
          (commonLength config.buildDir.components p.components) ∨
        ∃ n, commonLength config.buildDir.components p.components ≤ n ∧
          walk [] (p.components.take n) = [] := by
  generalize hcommon : commonLength config.buildDir.components p.components = common
  have hnormal : p.normal =
      walk (walk [] (p.components.take common)) (p.components.drop common) := by
    rw [← walk_append, List.take_append_drop]
    rfl
  have hcount : 2 * (config.buildDir.components.drop common).count up = 0 ↔
      up ∉ config.buildDir.components.drop common := by
    rw [← List.count_eq_zero]
    omega
  have hroot : (∃ n, walk (walk [] (p.components.take common))
        ((p.components.drop common).take n) = []) ↔
      ∃ n, common ≤ n ∧ walk [] (p.components.take n) = [] := by
    constructor
    · rintro ⟨n, hn⟩
      exact ⟨common + n, Nat.le_add_right _ _, by rwa [List.take_add, walk_append]⟩
    · rintro ⟨n, hle, hn⟩
      obtain ⟨m, rfl⟩ := Nat.exists_eq_add_of_le hle
      exact ⟨m, by rwa [List.take_add, walk_append] at hn⟩
  rw [follow_urlFor hdir hp hcommon, hnormal, walk_drop_eq_iff, hcount, hroot]

/-- From a directory beside the one with the images, the address leads to the image. -/
theorem follow_urlFor_beside :
    let config : SpriteConfig :=
      { imageDir := ⟨"/w/images".toList⟩, genDir := ⟨"/w/images".toList⟩,
        buildDir := ⟨"/w/css".toList⟩, spacing := 0 }
    let p : Path := ⟨"/w/images/a.png".toList⟩
    config.buildDir.isAbsolute = true ∧ p.isAbsolute = true ∧
      follow config.buildDir.normal (Expand.urlFor config p) = p.normal :=
  ⟨by decide, by decide, (follow_urlFor_iff (by decide) (by decide)).2 (.inl (by decide))⟩

/-- From a build directory that goes up behind what it shares with a file, the address of the
file leads astray. -/
theorem not_follow_urlFor_of_up :
    let config : SpriteConfig :=
      { imageDir := ⟨"/w/images".toList⟩, genDir := ⟨"/w/images".toList⟩,
        buildDir := ⟨"/w/../css".toList⟩, spacing := 0 }
    let p : Path := ⟨"/w/images/a.png".toList⟩
    config.buildDir.isAbsolute = true ∧ p.isAbsolute = true ∧
      Expand.urlFor config p = "../../images/a.png".toList ∧
      follow config.buildDir.normal (Expand.urlFor config p) ≠ p.normal := by
  decide

end Path

end StylePrep
