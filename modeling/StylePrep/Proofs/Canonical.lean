import Mathlib.Data.List.Induction
import StylePrep.Proofs.Sheets

/-!
# Canonical paths

A file tree is `Proper` if every entry is in a directory and has a name that stands for
itself in a path, and if there is a working directory. In such a tree a lookup ends at an
entry that is not a link (`Solid`), and all that is above this entry is a directory. So the
canonical spelling of a path leads straight down to the entry: it is looked up without
following a link, and its canonical spelling is itself (`lookup_pathOf_iff`).

Whether a canonical spelling can be looked up at all depends on its length alone, and not on
the tree. That is what lets a path be carried over from one tree to another.
-/

namespace StylePrep

theorem Text.splitOn_join {c : Char} {names : List Text} (hnames : names ≠ [])
    (h : ∀ name ∈ names, c ∉ name) : splitOn c (join [c] names) = names := by
  induction names with
  | nil => exact absurd rfl hnames
  | cons name names ih =>
    have hname := h name List.mem_cons_self
    cases names with
    | nil => exact splitOn_of_not_mem hname
    | cons second others =>
      have hrest := ih (List.cons_ne_nil _ _) fun n hn => h n (List.mem_cons_of_mem _ hn)
      rw [join, List.append_assoc, List.singleton_append, splitOn_append_cons,
        splitOn_of_not_mem hname, hrest]
      · rfl
      · simp

namespace Tree

open Text

/-- A tree as a file system has it. -/
structure Proper (tree : Tree) : Prop where
  rooted : ∀ e ∈ tree.entries, tree.node? e.1.dropLast = some .dir
  named : ∀ e ∈ tree.entries, ∀ name ∈ e.1, Path.IsName name
  working : tree.node? tree.workingDir = some .dir

instance (tree : Tree) : Decidable tree.Proper :=
  decidable_of_iff ((∀ e ∈ tree.entries, tree.node? e.1.dropLast = some .dir) ∧
      (∀ e ∈ tree.entries, ∀ name ∈ e.1, Path.IsName name) ∧
      tree.node? tree.workingDir = some .dir)
    ⟨fun h => ⟨h.1, h.2.1, h.2.2⟩, fun h => ⟨h.rooted, h.named, h.working⟩⟩

/-- There is an entry at an address, and it is not a link. -/
def Solid (tree : Tree) (a : Address) : Prop :=
  ∃ node, tree.node? a = some node ∧ node.target? = none

variable {tree : Tree} {links n : Nat} {here a b : Address} {segments : List Text} {node : Node}

theorem solid_of_dir (h : tree.node? a = some .dir) : tree.Solid a := ⟨_, h, rfl⟩

theorem Solid.not_link (h : tree.Solid a) (target : Text) : tree.node? a ≠ some (.link target) := by
  obtain ⟨node, hnode, htarget⟩ := h
  rintro hlink
  obtain rfl := Option.some.inj (hnode.symm.trans hlink)
  cases htarget

namespace Proper

theorem isRooted (h : tree.Proper) : tree.Rooted := by
  intro a node hnode
  by_cases ha : a = []
  · subst ha
    rfl
  · exact h.rooted (a, node) (node?_eq_some hnode ha)

theorem isName (h : tree.Proper) (hnode : tree.node? a = some node) {name : Text}
    (hname : name ∈ a) : Path.IsName name :=
  h.named (a, node) (node?_eq_some hnode (List.ne_nil_of_mem hname)) name hname

end Proper

/-- What is above an entry is a directory. -/
theorem Rooted.dir_of_append (h : tree.Rooted) (hnode : tree.node? (a ++ b) = some node)
    (hb : b ≠ []) : tree.node? a = some .dir := by
  induction b using List.reverseRecOn generalizing node with
  | nil => exact absurd rfl hb
  | append_singleton b name ih =>
    have habove := h _ _ hnode
    rw [← List.append_assoc, List.dropLast_concat] at habove
    by_cases hb : b = []
    · rwa [hb, List.append_nil] at habove
    · exact ih habove hb

/-- A path that starts at no link does not end at one. -/
theorem Leads.solid (hroot : tree.Rooted) (h : Leads tree links here segments a n)
    (hhere : tree.Solid here) : tree.Solid a := by
  induction h with
  | done => exact hhere
  | idle _ _ _ ih => exact ih hhere
  | up dir _ ih => exact ih (solid_of_dir (hroot _ _ dir))
  | @enter _ _ _ _ _ _ node _ _ _ _ found notLink _ ih =>
    refine ih ⟨node, found, ?_⟩
    cases node with
    | link target => exact absurd rfl (notLink target)
    | file content time => rfl
    | dir => rfl
  | @link _ here _ _ _ _ target dir _ _ _ _ _ _ ih =>
    refine ih (solid_of_dir ?_)
    unfold startOf
    split
    · rfl
    · exact dir

theorem solid_of_lookup (hroot : tree.Rooted) {p : Path} (h : tree.lookup p = .ok a) :
    tree.Solid a := by
  obtain ⟨-, n, hleads⟩ := lookup_eq_ok_iff.1 h
  exact hleads.solid hroot (solid_of_dir (hleads.dir (splitOn_ne_nil _ _)))

/-- Names lead straight down to the entry that has them. -/
theorem leads_names_iff (h : tree.Proper) {names : List Text} (hsolid : tree.Solid (here ++ names)) :
    Leads tree links here names b n ↔
      (∀ name ∈ names, name.utf8Size ≤ maxNameSize) ∧ b = here ++ names ∧ n = links := by
  induction names generalizing here with
  | nil =>
    constructor
    · rintro ⟨⟩
      simp
    · rintro ⟨-, rfl, rfl⟩
      simpa using Leads.done n here
  | cons name names ih =>
    have hsolid' : tree.Solid (here ++ [name] ++ names) := by simpa using hsolid
    obtain ⟨node, hnode, -⟩ := hsolid
    have hname : Path.IsName name := h.isName hnode (by simp)
    have hdir : tree.node? here = some .dir := h.isRooted.dir_of_append hnode (by simp)
    have hfirst : tree.Solid (here ++ [name]) := by
      by_cases hnames : names = []
      · simpa [hnames] using hsolid'
      · obtain ⟨node, hnode, -⟩ := hsolid'
        exact solid_of_dir (h.isRooted.dir_of_append hnode hnames)
    have hsome : (tree.node? (here ++ [name])).isSome = true := by
      obtain ⟨node, hnode, -⟩ := hfirst
      simp [hnode]
    rw [← List.singleton_append, leads_append]
    simp only [leads_name hname hfirst.not_link, hdir, hsome, true_and]
    constructor
    · rintro ⟨_, _, ⟨hshort, rfl, rfl⟩, hrest⟩
      obtain ⟨hall, rfl, rfl⟩ := (ih hsolid').1 hrest
      exact ⟨List.forall_mem_cons.2 ⟨hshort, hall⟩, by simp, rfl⟩
    · rintro ⟨hall, rfl, rfl⟩
      rw [List.singleton_append, List.forall_mem_cons] at hall
      exact ⟨_, _, ⟨hall.1, rfl, rfl⟩, (ih hsolid').2 ⟨hall.2, by simp, rfl⟩⟩

/-- What is read as a text is a file that a lookup leads to. -/
theorem readText_iff_file {p : Path} {t : Text} : tree.readText p = .ok t ↔
    ∃ a bytes time, tree.lookup p = .ok a ∧ tree.node? a = some (.file bytes time) ∧
      ofUtf8? bytes = some t := by
  simp only [readText_eq_ok_iff, read_eq_ok_iff, nodeAt_eq_ok_iff]
  constructor
  · rintro ⟨bytes, ⟨time, a, hlookup, hnode⟩, htext⟩
    exact ⟨a, bytes, time, hlookup, hnode, htext⟩
  · rintro ⟨a, bytes, time, hlookup, hnode, htext⟩
    exact ⟨bytes, ⟨time, a, hlookup, hnode⟩, htext⟩

/-- Whether the canonical spelling of an address can be looked up, in whatever tree. -/
def IsShort (a : Address) : Prop :=
  checkPath (pathOf a) = .ok () ∧ ∀ name ∈ a, name.utf8Size ≤ maxNameSize

/-- The canonical spelling of an entry leads to it. -/
theorem lookup_pathOf_iff (h : tree.Proper) (ha : tree.Solid a) :
    tree.lookup (pathOf a) = .ok b ↔ b = a ∧ IsShort a := by
  have hstart : startOf tree.workingDir (pathOf a).text = [] := rfl
  have hsplit : splitOn '/' (pathOf a).text = [] :: splitOn '/' (join ['/'] a) := rfl
  have hroot : tree.node? [] = some .dir := rfl
  have hleads (n : Nat) : Leads tree maxLinks [] (splitOn '/' (pathOf a).text) b n ↔
      (∀ name ∈ a, name.utf8Size ≤ maxNameSize) ∧ b = a ∧ n = maxLinks := by
    rw [hsplit, ← List.singleton_append, leads_append]
    simp only [leads_nil_segment, hroot, true_and]
    by_cases hne : a = []
    · subst hne
      simp only [join, show splitOn '/' [] = [[]] from rfl, leads_nil_segment]
      constructor
      · rintro ⟨_, _, ⟨rfl, rfl⟩, -, rfl, rfl⟩
        simp
      · rintro ⟨-, rfl, rfl⟩
        exact ⟨_, _, ⟨rfl, rfl⟩, hroot, rfl, rfl⟩
    · obtain ⟨node, hnode, -⟩ := id ha
      rw [splitOn_join hne fun name hname => (h.isName hnode hname).1]
      constructor
      · rintro ⟨_, _, ⟨rfl, rfl⟩, hrest⟩
        simpa using (leads_names_iff h (by simpa using ha)).1 hrest
      · rintro ⟨hall, rfl, rfl⟩
        exact ⟨_, _, ⟨rfl, rfl⟩, (leads_names_iff h (by simpa using ha)).2 ⟨hall, by simp, rfl⟩⟩
  rw [lookup_eq_ok_iff, hstart]
  simp only [hleads, IsShort]
  constructor
  · rintro ⟨hcheck, _, hall, rfl, rfl⟩
    exact ⟨rfl, hcheck, hall⟩
  · rintro ⟨rfl, hcheck, hall⟩
    exact ⟨hcheck, _, hall, rfl, rfl⟩

end Tree

end StylePrep
