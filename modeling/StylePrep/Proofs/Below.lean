import StylePrep.Proofs.Packing
import StylePrep.Proofs.Urls

/-!
# Paths below a directory

A path that is joined to a directory has the components of the directory in front of its own
(`Path.components_join`), and what is below the directory there are its own again
(`Path.exists_below?`). The paths that a walk finds are such (`Tree.exists_steps_of_mem_walk`): each
is the directory joined with the names on the way, however these are spelled.
-/

namespace StylePrep

namespace Path

open Text Component

/-- The component in front of all segments. -/
def Lead.components : Lead → List Component
  | .root => [.root]
  | .here => [.here]
  | .none => []

theorem components_eq (p : Path) :
    p.components = p.segments.1.components ++ p.segments.2.filterMap ofSegment? := by
  rw [components]
  obtain ⟨lead, body⟩ := p.segments
  cases lead <;> rfl

/-! ### Joined paths -/

/-- A spelling that starts with a segment that counts. -/
def Plain (t : Text) : Prop :=
  ∃ c u, t = c :: u ∧ c ≠ '/' ∧ (c = '.' → ∃ d v, u = d :: v ∧ d ≠ '/')

theorem root_or_here_or_plain {t : Text} (ht : t ≠ []) :
    (∃ u, t = '/' :: u) ∨ t = ['.'] ∨ (∃ u, t = '.' :: '/' :: u) ∨ Plain t := by
  obtain ⟨c, t, rfl⟩ := List.exists_cons_of_ne_nil ht
  by_cases hroot : c = '/'
  · exact .inl ⟨t, by rw [hroot]⟩
  by_cases hdot : c = '.'
  · subst hdot
    cases t with
    | nil => exact .inr (.inl rfl)
    | cons d v =>
      by_cases hslash : d = '/'
      · exact .inr (.inr (.inl ⟨v, by rw [hslash]⟩))
      · exact .inr (.inr (.inr ⟨'.', d :: v, rfl, hroot, fun _ => ⟨d, v, rfl, hslash⟩⟩))
  · exact .inr (.inr (.inr ⟨c, t, rfl, hroot, fun h => absurd h hdot⟩))

theorem Plain.append {t : Text} (h : Plain t) (s : Text) : Plain (t ++ s) := by
  obtain ⟨c, u, rfl, hroot, hhere⟩ := h
  refine ⟨c, u ++ s, rfl, hroot, fun hdot => ?_⟩
  obtain ⟨d, v, rfl, hslash⟩ := hhere hdot
  exact ⟨d, v ++ s, rfl, hslash⟩

theorem Plain.segments {t : Text} (h : Plain t) : (Path.mk t).segments = (.none, splitOn '/' t) := by
  obtain ⟨c, u, rfl, hroot, hhere⟩ := h
  unfold Path.segments
  split
  case h_1 h => exact absurd (List.cons.inj h).1 hroot
  case h_2 h =>
    obtain ⟨hdot, hnil⟩ := List.cons.inj h
    obtain ⟨d, v, hcons, -⟩ := hhere hdot
    rw [hcons] at hnil
    cases hnil
  case h_3 h =>
    obtain ⟨hdot, hslash⟩ := List.cons.inj h
    obtain ⟨d, v, hcons, hd⟩ := hhere hdot
    rw [hcons] at hslash
    exact absurd (List.cons.inj hslash).1 hd
  case h_4 => rfl

theorem Plain.exists_splitOn {t : Text} (h : Plain t) :
    ∃ first others, splitOn '/' t = first :: others ∧ isIdle first = false := by
  obtain ⟨c, u, rfl, hroot, hhere⟩ := h
  obtain ⟨first, others, hsplit⟩ := List.exists_cons_of_ne_nil (splitOn_ne_nil '/' u)
  refine ⟨c :: first, others, splitOn_cons_of_ne hroot hsplit, ?_⟩
  simp only [isIdle, reduceCtorEq, decide_false, Bool.false_or, decide_eq_false_iff_not]
  intro heq
  obtain ⟨hdot, hnil⟩ := List.cons.inj heq
  obtain ⟨d, v, rfl, hd⟩ := hhere hdot
  obtain ⟨second, more, hrest⟩ := List.exists_cons_of_ne_nil (splitOn_ne_nil '/' v)
  rw [splitOn_cons_of_ne hd hrest] at hsplit
  rw [← (List.cons.inj hsplit).1] at hnil
  cases hnil

/-- Behind a slash the segments go on. -/
theorem segments_append_slash {t : Text} (ht : t ≠ []) (s : Text) :
    (Path.mk (t ++ '/' :: s)).segments =
      ((Path.mk t).segments.1, (Path.mk t).segments.2 ++ splitOn '/' s) := by
  rcases root_or_here_or_plain ht with ⟨u, rfl⟩ | rfl | ⟨u, rfl⟩ | hplain
  · change (Lead.root, splitOn '/' (u ++ '/' :: s)) = (Lead.root, splitOn '/' u ++ splitOn '/' s)
    rw [splitOn_append_cons]
  · rfl
  · change (Lead.here, splitOn '/' (u ++ '/' :: s)) = (Lead.here, splitOn '/' u ++ splitOn '/' s)
    rw [splitOn_append_cons]
  · rw [hplain.segments, (hplain.append _).segments, splitOn_append_cons]

theorem components_append_slash {t : Text} (ht : t ≠ []) (s : Text) :
    (Path.mk (t ++ '/' :: s)).components =
      (Path.mk t).components ++ (splitOn '/' s).filterMap ofSegment? := by
  rw [components_eq, components_eq, segments_append_slash ht, List.filterMap_append,
    List.append_assoc]

/-- A joined path has the components of its two parts. -/
theorem components_join {p q : Path} (hp : p.text ≠ []) (hq : q.isAbsolute = false) :
    (p.join q).components = p.components ++ (splitOn '/' q.text).filterMap ofSegment? := by
  rw [join, hq, if_neg Bool.false_ne_true]
  by_cases hlast : p.text.getLast? = some '/'
  · obtain ⟨u, hu⟩ := List.getLast?_eq_some_iff.1 hlast
    obtain ⟨t⟩ := p
    subst hu
    rw [if_pos (by simp), List.append_assoc, List.singleton_append]
    by_cases hroot : u = []
    · subst hroot
      rfl
    · have hslash := components_append_slash hroot []
      rw [components_append_slash hroot, hslash]
      simp [splitOn, ofSegment?, isIdle]
  · rw [if_neg (by simp [hp, hlast])]
    exact components_append_slash hp q.text

variable {steps : List Component}

theorem isAbsolute_spell (h : ∀ c ∈ steps, c.IsStep) : (Path.mk (spell steps)).isAbsolute = false := by
  refine decide_eq_false fun hhead => ?_
  obtain ⟨t, ht⟩ := List.head?_eq_some_iff.1 hhead
  have hne : steps ≠ [] := by
    rintro rfl
    cases hhead
  have hsplit := splitOn_spell h hne
  obtain ⟨c, others, rfl⟩ := List.exists_cons_of_ne_nil hne
  change spell (c :: others) = '/' :: t at ht
  rw [ht, splitOn, if_pos rfl] at hsplit
  have hidle := (h c List.mem_cons_self).isIdle_eq_false
  rw [← (List.cons.inj hsplit).1] at hidle
  cases hidle

theorem components_join_spell {p : Path} (hp : p.text ≠ []) (h : ∀ c ∈ steps, c.IsStep) :
    (p.join ⟨spell steps⟩).components = p.components ++ steps := by
  rw [components_join hp (isAbsolute_spell h), filterMap_splitOn_spell h]

/-- What is joined to a path is put behind the same text. -/
theorem exists_join_eq (p : Path) :
    ∃ front, ∀ q : Path, q.isAbsolute = false → p.join q = ⟨front ++ q.text⟩ := by
  by_cases hslash : (p.text = [] || p.text.getLast? = some '/') = true
  · refine ⟨p.text, fun q hq => ?_⟩
    rw [join, hq, if_neg Bool.false_ne_true, if_pos hslash]
  · refine ⟨p.text ++ ['/'], fun q hq => ?_⟩
    rw [join, hq, if_neg Bool.false_ne_true, if_neg hslash, List.append_assoc]
    rfl

theorem IsName.ne_nil {name : Text} (h : IsName name) : name ≠ [] := by
  rintro rfl
  exact absurd h (by decide)

/-- A name and what is below it are joined at once. -/
theorem join_name_join {p : Path} {name : Text} (hname : IsName name) (hne : steps ≠ [])
    (h : ∀ c ∈ steps, c.IsStep) :
    (p.join ⟨name⟩).join ⟨spell steps⟩ = p.join ⟨spell (.name name :: steps)⟩ := by
  obtain ⟨front, hfront⟩ := exists_join_eq p
  have hspell : spell (.name name :: steps) = name ++ '/' :: spell steps := by
    obtain ⟨c, others, rfl⟩ := List.exists_cons_of_ne_nil hne
    simp [spell, Text.join, Component.text]
  have hsteps : ∀ c ∈ Component.name name :: steps, c.IsStep :=
    List.forall_mem_cons.2 ⟨.name hname, h⟩
  have hlast : name.getLast? ≠ some '/' := fun hlast => hname.1 (List.mem_of_getLast? hlast)
  rw [hfront _ (isAbsolute_mk hname.1), hfront _ (isAbsolute_spell hsteps), hspell, join,
    isAbsolute_spell h, if_neg Bool.false_ne_true, if_neg (by simp [hlast, hname.ne_nil]),
    List.append_assoc]

/-! ### What is below a directory -/

theorem filterMap_dropWhile_isIdle (body : List Text) :
    (body.dropWhile isIdle).filterMap ofSegment? = body.filterMap ofSegment? := by
  induction body with
  | nil => rfl
  | cons segment body ih =>
    cases hidle : isIdle segment with
    | true =>
      have hnone : ofSegment? segment = none := by rw [ofSegment?, hidle, if_pos rfl]
      rw [List.dropWhile_cons_of_pos hidle, List.filterMap_cons_none hnone, ih]
    | false => rw [List.dropWhile_cons_of_neg (by simp [hidle])]

/-- Idle segments at the end have no components. -/
theorem filterMap_trimIdle (body : List Text) :
    (trimIdle body).filterMap ofSegment? = body.filterMap ofSegment? := by
  rw [trimIdle, List.filterMap_reverse, filterMap_dropWhile_isIdle, ← List.filterMap_reverse,
    List.reverse_reverse]

/-- The first segment behind the idle ones counts. -/
theorem isIdle_of_dropWhile {body others : List Text} {segment : Text}
    (h : body.dropWhile isIdle = segment :: others) : isIdle segment = false := by
  have hfirst := List.head?_dropWhile_not isIdle body
  rw [h] at hfirst
  simpa using hfirst

theorem exists_ofSegment?_eq_some {segment : Text} (h : isIdle segment = false) :
    ∃ c, ofSegment? segment = some c := by
  rw [ofSegment?, h, if_neg Bool.false_ne_true]
  split
  · exact ⟨_, rfl⟩
  · exact ⟨_, rfl⟩

theorem filterMap_dropCounted (n : Nat) (body : List Text) :
    (dropCounted n body).filterMap ofSegment? = (body.filterMap ofSegment?).drop n := by
  induction n generalizing body with
  | zero => exact filterMap_dropWhile_isIdle body
  | succ n ih =>
    rw [dropCounted, ih, ← filterMap_dropWhile_isIdle body]
    cases hbody : body.dropWhile isIdle with
    | nil => simp
    | cons segment others =>
      obtain ⟨c, hc⟩ := exists_ofSegment?_eq_some (isIdle_of_dropWhile hbody)
      rw [List.filterMap_cons_some hc]
      rfl

theorem dropCounted_suffix (n : Nat) (body : List Text) : dropCounted n body <:+ body := by
  induction n generalizing body with
  | zero => exact List.dropWhile_suffix isIdle
  | succ n ih =>
    exact (ih _).trans ((List.drop_suffix 1 _).trans (List.dropWhile_suffix isIdle))

/-- What is left starts with a segment that counts. -/
theorem isIdle_head_dropCounted {n : Nat} {body others : List Text} {segment : Text}
    (h : dropCounted n body = segment :: others) : isIdle segment = false := by
  induction n generalizing body with
  | zero => exact isIdle_of_dropWhile h
  | succ n ih => exact ih h

theorem trimIdle_isPrefix (body : List Text) : trimIdle body <+: body := by
  have hsuffix : body.reverse.dropWhile isIdle <:+ body.reverse := List.dropWhile_suffix isIdle
  rw [trimIdle, ← List.reverse_suffix, List.reverse_reverse]
  exact hsuffix

/-- Segments of which the first counts are read as they are spelled. -/
theorem components_ofSegments {body : List Text} (hslash : ∀ segment ∈ body, '/' ∉ segment)
    (hhead : ∀ segment others, body = segment :: others → isIdle segment = false) :
    (ofSegments .none body).components = body.filterMap ofSegment? := by
  cases body with
  | nil => rfl
  | cons segment others =>
    have hsplit : splitOn '/' (Text.join ['/'] (segment :: others)) = segment :: others :=
      splitOn_join (List.cons_ne_nil _ _) hslash
    have hsegments : (ofSegments .none (segment :: others)).segments = (.none, segment :: others) :=
      segments_eq hsplit (hhead segment others rfl)
    rw [components_eq, hsegments]
    rfl

/-- What is below a directory has the components that the directory does not have. -/
theorem exists_below? {p base : Path} {cs : List Component} (hbase : base.components ≠ [])
    (h : p.components = base.components ++ cs) :
    ∃ r, p.below? base = some r ∧ r.components = cs := by
  have hstarts : p.startsWith base = true :=
    List.isPrefixOf_iff_prefix.2 ⟨cs, h.symm⟩
  obtain ⟨n, hn⟩ : ∃ n, base.components.length = n + 1 :=
    Nat.exists_eq_succ_of_ne_zero (by simpa using hbase)
  rw [below?, if_pos hstarts]
  rw [components_eq] at h
  have hslash (segment : Text) (hsegment : segment ∈ p.segments.2) : '/' ∉ segment :=
    not_mem_of_mem_segments hsegment
  revert h hslash
  obtain ⟨lead, body⟩ := p.segments
  intro h hslash
  dsimp only at h hslash ⊢
  rw [hn]
  refine ⟨_, rfl, ?_⟩
  rw [components_ofSegments, filterMap_dropCounted, filterMap_trimIdle]
  · have hcs : cs = (lead.components ++ body.filterMap ofSegment?).drop (n + 1) := by
      rw [h, List.drop_left' hn]
    rw [hcs]
    cases lead <;> rfl
  · intro segment hsegment
    exact hslash segment ((trimIdle_isPrefix body).subset ((dropCounted_suffix _ _).subset hsegment))
  · exact fun _ _ => isIdle_head_dropCounted

/-- Only the empty path has no components. -/
theorem components_ne_nil {p : Path} (h : p.text ≠ []) : p.components ≠ [] := by
  obtain ⟨t⟩ := p
  rw [components_eq]
  rcases root_or_here_or_plain h with ⟨u, rfl⟩ | rfl | ⟨u, rfl⟩ | hplain
  · exact List.cons_ne_nil _ _
  · exact List.cons_ne_nil _ _
  · exact List.cons_ne_nil _ _
  · obtain ⟨first, others, hsplit, hidle⟩ := hplain.exists_splitOn
    obtain ⟨c, hc⟩ := exists_ofSegment?_eq_some hidle
    rw [hplain.segments, hsplit, List.filterMap_cons_some hc]
    exact List.cons_ne_nil _ _

/-- The slashed form of what is below a directory, joined to the directory, leads back. -/
theorem same_join_slashed {p base r : Path} {steps : List Component} (hbase : base.text ≠ [])
    (h : ∀ c ∈ steps, c.IsStep) (hp : p.components = base.components ++ steps)
    (hr : r.components = steps) : (base.join ⟨r.slashed⟩).same p = true := by
  rw [slashed_eq, hr]
  exact decide_eq_true ((components_join_spell hbase h).trans hp.symm)

end Path

/-! ### Walks -/

namespace Tree

open Text StylePrep.Path

variable {tree : Tree}

/-- What a walk finds below a directory is spelled as the directory with names behind it. -/
theorem exists_steps_of_mem_filesBelow (hnamed : ∀ e ∈ tree.entries, ∀ name ∈ e.1, Path.IsName name)
    {fuel : Nat} {walked : List Address} {path q : Path} {here : Address}
    (hq : q ∈ tree.filesBelow fuel walked path here) :
    ∃ steps, steps ≠ [] ∧ (∀ c ∈ steps, c.IsStep) ∧ q = path.join ⟨spell steps⟩ := by
  induction fuel generalizing walked path here with
  | zero => cases hq
  | succ fuel ih =>
    rw [filesBelow] at hq
    obtain ⟨⟨name, node⟩, hchild, hq⟩ := List.mem_flatMap.1 hq
    have hname : Path.IsName name := hnamed _ (mem_children.1 hchild) name (by simp)
    have hfile : ∃ steps, steps ≠ [] ∧ (∀ c ∈ steps, c.IsStep) ∧
        path.join ⟨name⟩ = path.join ⟨spell steps⟩ :=
      ⟨[.name name], List.cons_ne_nil _ _, List.forall_mem_singleton.2 (.name hname), rfl⟩
    have hdir {walked : List Address} {a : Address}
        (h : q ∈ tree.filesBelow fuel walked (path.join ⟨name⟩) a) :
        ∃ steps, steps ≠ [] ∧ (∀ c ∈ steps, c.IsStep) ∧ q = path.join ⟨spell steps⟩ := by
      obtain ⟨steps, hne, hsteps, rfl⟩ := ih h
      exact ⟨.name name :: steps, List.cons_ne_nil _ _,
        List.forall_mem_cons.2 ⟨.name hname, hsteps⟩, join_name_join hname hne hsteps⟩
    cases node with
    | file content time =>
      obtain rfl := List.mem_singleton.1 hq
      exact hfile
    | dir => exact hdir hq
    | link target =>
      dsimp only at hq
      split at hq
      · cases hq
      · split at hq
        · obtain rfl := List.mem_singleton.1 hq
          exact hfile
        · split at hq
          · cases hq
          · exact hdir hq
        · cases hq

/-- What a walk finds has the components of its root, and steps behind them. From a directory it
is spelled as the directory with these steps behind it. -/
theorem exists_steps_of_mem_walk (hnamed : ∀ e ∈ tree.entries, ∀ name ∈ e.1, Path.IsName name)
    {root q : Path} (hq : q ∈ tree.walk root) :
    root.text ≠ [] ∧ ∃ steps, (∀ c ∈ steps, c.IsStep) ∧ q.components = root.components ++ steps ∧
      (tree.isDir root = true → q = root.join ⟨spell steps⟩) := by
  unfold walk at hq
  cases hlookup : tree.lookup root with
  | error fault =>
    rw [hlookup] at hq
    cases hq
  | ok a =>
    have hroot : root.text ≠ [] := text_ne_nil_of_lookup hlookup
    rw [hlookup] at hq
    refine ⟨hroot, ?_⟩
    dsimp only at hq
    split at hq
    case h_1 content time hnode =>
      obtain rfl := List.mem_singleton.1 hq
      have hfile : tree.isDir q = false := by
        simp [isDir, nodeAt_eq_ok_iff.2 ⟨a, hlookup, hnode⟩]
      exact ⟨[], fun _ h => absurd h List.not_mem_nil, (List.append_nil _).symm,
        fun hdir => by simp [hfile] at hdir⟩
    case h_2 =>
      obtain ⟨steps, -, hsteps, rfl⟩ := exists_steps_of_mem_filesBelow hnamed hq
      exact ⟨steps, hsteps, components_join_spell hroot hsteps, fun _ => rfl⟩
    case h_3 => cases hq

end Tree

end StylePrep
