import StylePrep.Tree.Change
import StylePrep.Tree.Walk

/-!
# Where paths lead

A lookup is a recursion over the segments of a path, inside one over the links that may
still be followed. Beside it stands a relation, `Leads`, with one rule for each thing a
segment can do: stand for nothing, go up, enter an entry, or be replaced by the target of
a link. A lookup succeeds exactly if there is such a derivation (`follow_eq_ok_iff`), so
what is said about lookups is proved by induction over derivations.

What is added to a tree, or written over a file of it, is never in the way of a path that
leads somewhere (`Retains.leads`), and a path can be cut between any two of its segments
(`leads_append`).
-/

namespace StylePrep

namespace Text

theorem splitOn_ne_nil (c : Char) (t : Text) : splitOn c t ≠ [] := by
  cases t with
  | nil => simp [splitOn]
  | cons d t =>
    rw [splitOn]
    split
    · simp
    · split <;> simp

theorem splitOn_cons_of_ne {c d : Char} (h : d ≠ c) {t first : Text} {others : List Text}
    (ht : splitOn c t = first :: others) : splitOn c (d :: t) = (d :: first) :: others := by
  rw [splitOn, if_neg h, ht]

theorem splitOn_append_cons (c : Char) (s t : Text) :
    splitOn c (s ++ c :: t) = splitOn c s ++ splitOn c t := by
  induction s with
  | nil => simp [splitOn]
  | cons d s ih =>
    by_cases h : d = c
    · simp [splitOn, h, ih]
    · obtain ⟨first, others, hs⟩ := List.exists_cons_of_ne_nil (splitOn_ne_nil c s)
      rw [splitOn_cons_of_ne h hs, List.cons_append, splitOn_cons_of_ne h (by rw [ih, hs]; rfl)]
      rfl

theorem splitOn_of_not_mem {c : Char} {t : Text} (h : c ∉ t) : splitOn c t = [t] := by
  induction t with
  | nil => rfl
  | cons d t ih =>
    rw [List.mem_cons, not_or] at h
    exact splitOn_cons_of_ne (Ne.symm h.1) (ih h.2)

theorem not_mem_of_mem_splitOn {c : Char} {t s : Text} (h : s ∈ splitOn c t) : c ∉ s := by
  induction t generalizing s with
  | nil =>
    obtain rfl := List.mem_singleton.1 h
    exact List.not_mem_nil
  | cons d t ih =>
    by_cases hd : d = c
    · rw [splitOn, if_pos hd] at h
      rcases List.mem_cons.1 h with rfl | h
      · exact List.not_mem_nil
      · exact ih h
    · obtain ⟨first, others, ht⟩ := List.exists_cons_of_ne_nil (splitOn_ne_nil c t)
      rw [splitOn_cons_of_ne hd ht] at h
      rcases List.mem_cons.1 h with rfl | h
      · exact List.not_mem_cons_of_ne_of_not_mem (Ne.symm hd) (ih (by simp [ht]))
      · exact ih (by simp [ht, h])

/-- The last part of a text is what follows the last separator. -/
theorem getLast?_splitOn_eq_some_iff {c : Char} {t s : Text} :
    (splitOn c t).getLast? = some s ↔ c ∉ s ∧ (t = s ∨ ∃ r, t = r ++ c :: s) := by
  have hlast {s : Text} (hs : c ∉ s) (ht : t = s ∨ ∃ r, t = r ++ c :: s) :
      (splitOn c t).getLast? = some s := by
    rcases ht with rfl | ⟨r, rfl⟩
    · rw [splitOn_of_not_mem hs]
      rfl
    · rw [splitOn_append_cons, splitOn_of_not_mem hs, List.getLast?_append]
      rfl
  refine ⟨fun h => ?_, fun h => hlast h.1 h.2⟩
  obtain ⟨s', hs', ht⟩ : ∃ s', c ∉ s' ∧ (t = s' ∨ ∃ r, t = r ++ c :: s') := by
    by_cases hc : c ∈ t
    · obtain ⟨u, r, hreverse, hu⟩ := List.eq_append_cons_of_mem (List.mem_reverse.2 hc)
      refine ⟨u.reverse, fun h => hu (List.mem_reverse.1 h), .inr ⟨r.reverse, ?_⟩⟩
      rw [← List.reverse_reverse t, hreverse]
      simp
    · exact ⟨t, hc, .inl rfl⟩
  obtain rfl := Option.some.inj ((hlast hs' ht).symm.trans h)
  exact ⟨hs', ht⟩

theorem exists_getLast?_splitOn (c : Char) (t : Text) : ∃ s, (splitOn c t).getLast? = some s :=
  ⟨_, List.getLast?_eq_some_getLast (splitOn_ne_nil c t)⟩

theorem suffix_of_getLast?_splitOn {c : Char} {t s : Text}
    (h : (splitOn c t).getLast? = some s) : s <:+ t := by
  obtain ⟨-, rfl | ⟨r, rfl⟩⟩ := getLast?_splitOn_eq_some_iff.1 h
  · exact List.suffix_rfl
  · exact (List.suffix_cons c s).trans (List.suffix_append r _)

/-- What a text ends with ends its last part, if no separator is in it. -/
theorem suffix_getLast?_splitOn {c : Char} {t s u : Text} (h : (splitOn c t).getLast? = some s)
    (hu : u <:+ t) (hc : c ∉ u) : u <:+ s := by
  obtain ⟨-, rfl | ⟨r, rfl⟩⟩ := getLast?_splitOn_eq_some_iff.1 h
  · exact hu
  · rcases List.suffix_or_suffix_of_suffix hu (List.suffix_append r (c :: s)) with h | h
    · rcases List.suffix_cons_iff.1 h with rfl | h
      · exact absurd List.mem_cons_self hc
      · exact h
    · exact absurd (h.subset List.mem_cons_self) hc

end Text

def Node.isFile : Node → Bool
  | .file .. => true
  | _ => false

/-- A path without slashes is relative. -/
theorem Path.isAbsolute_mk {name : Text} (h : '/' ∉ name) : (Path.mk name).isAbsolute = false := by
  refine Bool.eq_false_iff.2 fun habsolute => h ?_
  exact List.mem_of_mem_head? (by simpa [Path.isAbsolute] using habsolute)

namespace Tree

open Text

/-- The segments lead from the entry at `here` to the one at an address, and so many links
may still be followed there. -/
inductive Leads (tree : Tree) : Nat → Address → List Text → Address → Nat → Prop
  | done (links : Nat) (here : Address) : Leads tree links here [] here links
  | idle {links : Nat} {here : Address} {segment : Text} {rest : List Text} {a : Address} {n : Nat}
      (dir : tree.node? here = some .dir) (segmentIdle : Path.isIdle segment = true) :
      Leads tree links here rest a n → Leads tree links here (segment :: rest) a n
  | up {links : Nat} {here : Address} {rest : List Text} {a : Address} {n : Nat}
      (dir : tree.node? here = some .dir) :
      Leads tree links here.dropLast rest a n → Leads tree links here (['.', '.'] :: rest) a n
  | enter {links : Nat} {here : Address} {segment : Text} {rest : List Text} {a : Address} {n : Nat}
      {node : Node} (dir : tree.node? here = some .dir) (notIdle : Path.isIdle segment = false)
      (notUp : segment ≠ ['.', '.']) (short : segment.utf8Size ≤ maxNameSize)
      (found : tree.node? (here ++ [segment]) = some node) (notLink : ∀ target, node ≠ .link target) :
      Leads tree links (here ++ [segment]) rest a n → Leads tree links here (segment :: rest) a n
  | link {links : Nat} {here : Address} {segment : Text} {rest : List Text} {a : Address} {n : Nat}
      {target : Text} (dir : tree.node? here = some .dir) (notIdle : Path.isIdle segment = false)
      (notUp : segment ≠ ['.', '.']) (short : segment.utf8Size ≤ maxNameSize)
      (found : tree.node? (here ++ [segment]) = some (.link target)) (notEmpty : target ≠ []) :
      Leads tree links (startOf here target) (splitOn '/' target ++ rest) a n →
        Leads tree (links + 1) here (segment :: rest) a n

variable {tree tree' : Tree} {links n m : Nat} {here a b : Address} {segments : List Text}

/-- A path is followed the same way whatever number of links is left. -/
theorem exists_followUntil (tree : Tree) (links : Nat) :
    ∃ relink, tree.follow links = tree.followUntil links relink ∧
      ∀ fewer, links = fewer + 1 → relink = tree.follow fewer := by
  cases links with
  | zero => exact ⟨_, rfl, fun _ h => absurd h (Nat.succ_ne_zero _).symm⟩
  | succ links => exact ⟨_, rfl, fun _ h => by rw [Nat.succ.inj h]⟩

theorem leads_of_followUntil {relink : Address → List Text → Except Fault (Address × Nat)}
    (hrelink : ∀ fewer, links = fewer + 1 →
      ∀ here segments a n, relink here segments = .ok (a, n) → Leads tree fewer here segments a n)
    (h : tree.followUntil links relink here segments = .ok (a, n)) :
    Leads tree links here segments a n := by
  induction segments generalizing here with
  | nil =>
    cases h
    exact .done _ _
  | cons segment rest ih =>
    rw [followUntil] at h
    split at h
    · rename_i hdir
      split at h
      · exact .idle hdir ‹_› (ih h)
      split at h
      · subst segment
        exact .up hdir (ih h)
      split at h
      · cases h
      rename_i hidle hup hshort
      rw [Bool.not_eq_true] at hidle
      split at h
      · cases h
      · rename_i target hfound
        split at h
        · cases h
        split at h
        · cases h
        rename_i hlinks htarget
        obtain ⟨fewer, rfl⟩ := Nat.exists_eq_succ_of_ne_zero hlinks
        exact .link hdir hidle hup (Nat.le_of_not_lt hshort) hfound htarget
          (hrelink fewer rfl _ _ _ _ h)
      · rename_i node hlink hfound
        exact .enter hdir hidle hup (Nat.le_of_not_lt hshort) hfound (fun t ht => hlink t (ht ▸ rfl))
          (ih h)
    · cases h

/-- Following segments succeeds exactly if they lead somewhere. -/
theorem follow_eq_ok_iff :
    tree.follow links here segments = .ok (a, n) ↔ Leads tree links here segments a n := by
  constructor
  · intro h
    induction links generalizing here segments a n with
    | zero => exact leads_of_followUntil (fun _ h => absurd h (Nat.succ_ne_zero _).symm) h
    | succ links ih =>
      refine leads_of_followUntil (fun fewer hfewer _ _ _ _ hrelink => ?_) h
      obtain rfl := Nat.succ.inj hfewer
      exact ih hrelink
  · intro h
    induction h with
    | done links here => cases links <;> rfl
    | @idle links here segment rest a n hdir hidle _ ih =>
      obtain ⟨relink, hfollow, -⟩ := tree.exists_followUntil links
      rw [hfollow] at ih ⊢
      rw [followUntil, hdir]
      simp only [hidle, if_true, ih]
    | @up links here rest a n hdir _ ih =>
      obtain ⟨relink, hfollow, -⟩ := tree.exists_followUntil links
      rw [hfollow] at ih ⊢
      rw [followUntil, hdir]
      simpa [Path.isIdle] using ih
    | @enter links here segment rest a n node hdir hidle hup hshort hfound hlink _ ih =>
      obtain ⟨relink, hfollow, -⟩ := tree.exists_followUntil links
      rw [hfollow] at ih ⊢
      rw [followUntil, hdir]
      simp only [hidle, hup, Nat.not_lt.2 hshort, hfound]
      cases node with
      | link target => exact absurd rfl (hlink target)
      | file content time => exact ih
      | dir => exact ih
    | @link links here segment rest a n target hdir hidle hup hshort hfound hempty _ ih =>
      rw [follow, followUntil, hdir]
      simp only [hidle, hup, Nat.not_lt.2 hshort, hfound, Nat.succ_ne_zero, hempty]
      exact ih

namespace Leads

theorem det (h : Leads tree links here segments a n) (h' : Leads tree links here segments b m) :
    a = b ∧ n = m := by
  have heq := (follow_eq_ok_iff.2 h).symm.trans (follow_eq_ok_iff.2 h')
  exact Prod.mk.inj (Except.ok.inj heq)

/-- There are segments left only at a directory. -/
theorem dir (h : Leads tree links here segments a n) (hsegments : segments ≠ []) :
    tree.node? here = some .dir := by
  cases h with
  | done => exact absurd rfl hsegments
  | idle hdir => exact hdir
  | up hdir => exact hdir
  | enter hdir => exact hdir
  | link hdir => exact hdir

end Leads

/-- A tree that still has every entry of another one. Files at the addresses in `written` may
have other contents. -/
structure Retains (written : Address → Prop) (tree tree' : Tree) : Prop where
  workingDir : tree'.workingDir = tree.workingDir
  node : ∀ a node, tree.node? a = some node → tree'.node? a = some node ∨
    written a ∧ node.isFile = true ∧ ∃ node', tree'.node? a = some node' ∧ node'.isFile = true

namespace Retains

variable {written : Address → Prop} (h : Retains written tree tree')
include h

theorem node?_eq {node : Node} (hnode : tree.node? a = some node) (hfile : node.isFile = false) :
    tree'.node? a = some node :=
  (h.node a node hnode).resolve_right fun hnew => by simp [hfile] at hnew

/-- What leads somewhere in a tree leads there in every tree that retains its entries. -/
theorem leads (hleads : Leads tree links here segments a n) :
    Leads tree' links here segments a n := by
  induction hleads with
  | done links here => exact .done links here
  | idle hdir hidle _ ih => exact .idle (h.node?_eq hdir rfl) hidle ih
  | up hdir _ ih => exact .up (h.node?_eq hdir rfl) ih
  | enter hdir hidle hup hshort hfound hlink _ ih =>
    rcases h.node _ _ hfound with hfound | ⟨-, -, node', hfound, hfile⟩
    · exact .enter (h.node?_eq hdir rfl) hidle hup hshort hfound hlink ih
    · refine .enter (h.node?_eq hdir rfl) hidle hup hshort hfound (fun target hlink => ?_) ih
      rw [hlink] at hfile
      cases hfile
  | link hdir hidle hup hshort hfound hempty _ ih =>
    exact .link (h.node?_eq hdir rfl) hidle hup hshort (h.node?_eq hfound rfl) hempty ih

end Retains

/-- A path can be cut between two of its segments. -/
theorem leads_append {first rest : List Text} :
    Leads tree links here (first ++ rest) a n ↔
      ∃ b m, Leads tree links here first b m ∧ Leads tree m b rest a n := by
  constructor
  · intro h
    generalize hsegments : first ++ rest = segments at h
    induction h generalizing first with
    | done links here =>
      obtain ⟨rfl, rfl⟩ := List.append_eq_nil_iff.1 hsegments
      exact ⟨here, links, .done _ _, .done _ _⟩
    | @idle links here segment others a n hdir hidle h ih =>
      rcases first with _ | ⟨_, first⟩
      · cases hsegments
        exact ⟨here, _, .done _ _, .idle hdir hidle h⟩
      · cases hsegments
        obtain ⟨b, m, hfirst, hrest⟩ := ih rfl
        exact ⟨b, m, .idle hdir hidle hfirst, hrest⟩
    | @up links here others a n hdir h ih =>
      rcases first with _ | ⟨_, first⟩
      · cases hsegments
        exact ⟨here, _, .done _ _, .up hdir h⟩
      · cases hsegments
        obtain ⟨b, m, hfirst, hrest⟩ := ih rfl
        exact ⟨b, m, .up hdir hfirst, hrest⟩
    | @enter links here segment others a n node hdir hidle hup hshort hfound hlink h ih =>
      rcases first with _ | ⟨_, first⟩
      · cases hsegments
        exact ⟨here, _, .done _ _, .enter hdir hidle hup hshort hfound hlink h⟩
      · cases hsegments
        obtain ⟨b, m, hfirst, hrest⟩ := ih rfl
        exact ⟨b, m, .enter hdir hidle hup hshort hfound hlink hfirst, hrest⟩
    | @link links here segment others a n target hdir hidle hup hshort hfound hempty h ih =>
      rcases first with _ | ⟨_, first⟩
      · cases hsegments
        exact ⟨here, _, .done _ _, .link hdir hidle hup hshort hfound hempty h⟩
      · cases hsegments
        obtain ⟨b, m, hfirst, hrest⟩ := ih (List.append_assoc _ _ _)
        exact ⟨b, m, .link hdir hidle hup hshort hfound hempty hfirst, hrest⟩
  · rintro ⟨b, m, hfirst, hrest⟩
    induction hfirst with
    | done => exact hrest
    | idle hdir hidle _ ih => exact .idle hdir hidle (ih hrest)
    | up hdir _ ih => exact .up hdir (ih hrest)
    | enter hdir hidle hup hshort hfound hlink _ ih =>
      exact .enter hdir hidle hup hshort hfound hlink (ih hrest)
    | link hdir hidle hup hshort hfound hempty _ ih =>
      exact .link hdir hidle hup hshort hfound hempty (List.append_assoc _ _ _ ▸ ih hrest)

theorem lookup_eq_ok_iff {p : Path} :
    tree.lookup p = .ok a ↔ checkPath p = .ok () ∧
      ∃ n, Leads tree maxLinks (startOf tree.workingDir p.text) (splitOn '/' p.text) a n := by
  unfold lookup
  cases checkPath p with
  | error e => simp [bind, Except.bind]
  | ok u =>
    simp only [bind, Except.bind, pure, Except.pure, true_and, ← follow_eq_ok_iff]
    cases tree.follow maxLinks (startOf tree.workingDir p.text) (splitOn '/' p.text) with
    | error e => simp
    | ok result => simp [Prod.ext_iff]

theorem text_ne_nil_of_lookup {p : Path} (h : tree.lookup p = .ok a) : p.text ≠ [] := by
  intro hempty
  exact absurd (lookup_eq_ok_iff.1 h).1 (by simp [checkPath, hempty])

theorem Retains.lookup {written : Address → Prop} (h : Retains written tree tree') {p : Path}
    (hp : tree.lookup p = .ok a) : tree'.lookup p = .ok a := by
  obtain ⟨hcheck, n, hleads⟩ := lookup_eq_ok_iff.1 hp
  exact lookup_eq_ok_iff.2 ⟨hcheck, n, h.workingDir ▸ h.leads hleads⟩

/-! ### Names in a directory -/

theorem leads_nil_segment : Leads tree links here [[]] a n ↔
    tree.node? here = some .dir ∧ a = here ∧ n = links := by
  constructor
  · intro h
    cases h with
    | idle hdir _ h =>
      cases h
      exact ⟨hdir, rfl, rfl⟩
    | enter _ hidle => exact absurd hidle (by decide)
    | link _ hidle => exact absurd hidle (by decide)
  · rintro ⟨hdir, rfl, rfl⟩
    exact .idle hdir rfl (.done _ _)

/-- The segments of a joined path are those of its two parts. -/
theorem exists_splitOn_join {p q : Path} (hp : p.text ≠ []) (hq : q.isAbsolute = false)
    (tree : Tree) (links : Nat) (dir : Address) :
    ∃ front, splitOn '/' (p.join q).text = front ++ splitOn '/' q.text ∧
      ∀ b m, tree.node? b = some .dir →
        (Leads tree links (startOf dir (p.join q).text) front b m ↔
          Leads tree links (startOf dir p.text) (splitOn '/' p.text) b m) := by
  by_cases hlast : p.text.getLast? = some '/'
  · obtain ⟨u, hu⟩ := List.getLast?_eq_some_iff.1 hlast
    have htext : (p.join q).text = u ++ '/' :: q.text := by
      simp [Path.join, hq, hu]
    have hstart : startOf dir (u ++ '/' :: q.text) = startOf dir p.text := by
      rw [hu]
      cases u <;> rfl
    refine ⟨splitOn '/' u, by rw [htext, splitOn_append_cons], fun b m hb => ?_⟩
    rw [htext, hstart, hu, splitOn_append_cons, leads_append]
    simp only [show splitOn '/' [] = [[]] from rfl, leads_nil_segment]
    constructor
    · intro h
      exact ⟨b, m, h, hb, rfl, rfl⟩
    · rintro ⟨_, _, h, -, rfl, rfl⟩
      exact h
  · have htext : (p.join q).text = p.text ++ '/' :: q.text := by
      simp [Path.join, hq, hlast, hp]
    have hstart : startOf dir (p.text ++ '/' :: q.text) = startOf dir p.text := by
      obtain ⟨c, t, hc⟩ := List.exists_cons_of_ne_nil hp
      rw [hc]
      rfl
    refine ⟨splitOn '/' p.text, by rw [htext, splitOn_append_cons], fun b m _ => ?_⟩
    rw [htext, hstart]

/-- A joined path leads through its first part. -/
theorem leads_join {p q : Path} (hp : p.text ≠ []) (hq : q.isAbsolute = false) (dir : Address) :
    Leads tree links (startOf dir (p.join q).text) (splitOn '/' (p.join q).text) a n ↔
      ∃ b m, Leads tree links (startOf dir p.text) (splitOn '/' p.text) b m ∧
        Leads tree m b (splitOn '/' q.text) a n := by
  obtain ⟨front, hfront, hleads⟩ := exists_splitOn_join hp hq tree links dir
  rw [hfront, leads_append]
  refine exists_congr fun b => exists_congr fun m => and_congr_left fun h => ?_
  exact hleads b m (h.dir (splitOn_ne_nil _ _))

/-- Without links and steps up, the names of a path are entered one after the other. -/
theorem Leads.eq_append (h : Leads tree links here segments a n) (hup : ['.', '.'] ∉ segments)
    (hunlinked : ∀ b target, here <+: b → tree.node? b ≠ some (.link target)) :
    a = here ++ segments.filter fun segment => !Path.isIdle segment := by
  induction h with
  | done => simp
  | idle _ hidle _ ih =>
    rw [ih (fun h => hup (List.mem_cons_of_mem _ h)) hunlinked]
    simp [hidle]
  | up => exact absurd List.mem_cons_self hup
  | enter _ hidle _ _ _ _ _ ih =>
    rw [ih (fun h => hup (List.mem_cons_of_mem _ h)) fun b target hb =>
      hunlinked b target ((List.prefix_append _ _).trans hb)]
    simp [hidle]
  | link _ _ _ _ hfound => exact absurd hfound (hunlinked _ _ (List.prefix_append _ _))

end Tree

def Path.IsName (name : Text) : Prop :=
  '/' ∉ name ∧ Path.isIdle name = false ∧ name ≠ ['.', '.']

instance (name : Text) : Decidable (Path.IsName name) := inferInstanceAs (Decidable (_ ∧ _))

namespace Tree

variable {tree : Tree} {links n : Nat} {here a : Address}

/-- A name leads to the entry that is called so, unless that is a link. -/
theorem leads_name {name : Text} (hname : Path.IsName name)
    (hlink : ∀ target, tree.node? (here ++ [name]) ≠ some (.link target)) :
    Leads tree links here [name] a n ↔ tree.node? here = some .dir ∧
      name.utf8Size ≤ maxNameSize ∧ (tree.node? (here ++ [name])).isSome = true ∧
      a = here ++ [name] ∧ n = links := by
  obtain ⟨-, hidle, hup⟩ := hname
  constructor
  · intro h
    cases h with
    | idle _ h => exact absurd h (by simp [hidle])
    | up => exact absurd rfl hup
    | enter hdir _ _ hshort hfound _ h =>
      cases h
      exact ⟨hdir, hshort, by simp [hfound], rfl, rfl⟩
    | link _ _ _ _ hfound => exact absurd hfound (hlink _)
  · rintro ⟨hdir, hshort, hfound, rfl, rfl⟩
    obtain ⟨node, hnode⟩ := Option.isSome_iff_exists.1 hfound
    exact .enter hdir hidle hup hshort hnode (fun target h => hlink target (h ▸ hnode)) (.done _ _)

end Tree

end StylePrep
