import StylePrep.Proofs.Lookup
import StylePrep.Sprite.Expand

/-!
# Sheets among the files of a tree

Sheets are written into one directory, under names that end in `.png`. A tree without the
files at such addresses is `bare`. Two trees that are the same when bare differ at most in
their sheets; if every sheet of the first is a sheet of the second, the first is `Within`
the second.

A path that leads somewhere leads there in the larger tree as well. The other way round, it
may lead to a sheet that the smaller tree has not, and then its last segment is the name of
the sheet (`Leads.of_within`): a sheet is a file, so nothing is behind it, and no link goes
to a name with that ending. Names with that ending are those of pictures in the rest of
the tree too, so none of them is ever read as text (`readText_ne_ok_of_ending`).
-/

namespace StylePrep

namespace Sheet

def ending : Text := ".png".toList

def IsFileName (name : Text) : Prop := '-' ∈ name ∧ ending <:+ name

instance (name : Text) : Decidable (IsFileName name) := inferInstanceAs (Decidable (_ ∧ _))

/-- An address that a sheet can have if sheets are written to the directory at `gen`. -/
def At (gen a : Address) : Prop := a.dropLast = gen ∧ IsFileName (a.getLastD [])

instance (gen a : Address) : Decidable (At gen a) := inferInstanceAs (Decidable (_ ∧ _))

theorem at_iff {gen a : Address} : At gen a ↔ ∃ name, IsFileName name ∧ a = gen ++ [name] := by
  constructor
  · rintro ⟨rfl, hname⟩
    rcases List.eq_nil_or_concat a with rfl | ⟨b, name, rfl⟩
    · exact absurd hname (by decide)
    · exact ⟨name, by simpa using hname, by simp⟩
  · rintro ⟨name, hname, rfl⟩
    exact ⟨by simp, by simpa using hname⟩

@[simp] theorem at_append {gen b : Address} {name : Text} :
    At gen (b ++ [name]) ↔ b = gen ∧ IsFileName name := by
  simp [At]

end Sheet

/-- A file that is not text. -/
def Node.isPicture : Node → Bool
  | .file content _ => (Text.ofUtf8? content).isNone
  | _ => false

def Node.target? : Node → Option Text
  | .link target => some target
  | _ => none

namespace Tree

open Text Sheet

variable {tree : Tree} {gen : Address}

/-! ### Trees without their sheets -/

/-- The tree without sheets in the directory at `gen`. -/
def bare (gen : Address) (tree : Tree) : Tree :=
  { tree with entries := tree.entries.filter fun e => ¬ Sheet.At gen e.1 }

theorem lookup_filter (p : Address → Bool) (entries : List (Address × Node)) (a : Address) :
    (entries.filter fun e => p e.1).lookup a = if p a then entries.lookup a else none := by
  induction entries with
  | nil => simp
  | cons e entries ih =>
    obtain ⟨b, node⟩ := e
    by_cases hab : a = b
    · subst hab
      cases hp : p a <;> simp [hp, ih]
    · have hne : (a == b) = false := beq_eq_false_iff_ne.2 hab
      cases hp : p b <;> simp [List.lookup_cons, hp, ih, hne]

theorem node?_eq_some {a : Address} {node : Node} (h : tree.node? a = some node) (ha : a ≠ []) :
    (a, node) ∈ tree.entries := by
  rw [node?, if_neg ha] at h
  obtain ⟨l₁, l₂, hentries, -⟩ := List.lookup_eq_some_iff.1 h
  simp [hentries]

theorem node?_bare (tree : Tree) (gen a : Address) :
    (tree.bare gen).node? a = if Sheet.At gen a then none else tree.node? a := by
  unfold node? bare
  by_cases ha : a = []
  · subst ha
    simp [At, IsFileName]
  · rw [if_neg ha, if_neg ha]
    refine (lookup_filter (fun a => decide ¬ Sheet.At gen a) tree.entries a).trans ?_
    by_cases hat : Sheet.At gen a <;> simp [hat]

theorem node?_set {a : Address} (ha : a ≠ []) (node : Node) (b : Address) :
    (tree.set a node).node? b = if b = a then some node else tree.node? b := by
  unfold node? set
  by_cases hb : b = []
  · rw [if_pos hb, if_pos hb, if_neg (hb ▸ ha.symm)]
  · rw [if_neg hb, if_neg hb, List.lookup_cons]
    by_cases hab : b = a
    · simp [hab]
    · have hne : (b == a) = false := beq_eq_false_iff_ne.2 hab
      rw [hne, if_neg hab]
      refine (lookup_filter (fun b => decide (b ≠ a)) tree.entries b).trans ?_
      simp [hab]

theorem bare_set {a : Address} (ha : Sheet.At gen a) (node : Node) :
    (tree.set a node).bare gen = tree.bare gen := by
  simp only [bare, set, List.filter_cons, ha, not_true, decide_false, List.filter_filter]
  congr 1
  refine List.filter_congr fun e _ => ?_
  by_cases he : e.1 = a
  · simp [he, ha]
  · simp [he]

/-- The sheets of the first tree are sheets of the second, and there is no other
difference. -/
structure Within (gen : Address) (tree tree' : Tree) : Prop where
  bare : tree.bare gen = tree'.bare gen
  sheet : ∀ a node, Sheet.At gen a → tree.node? a = some node → tree'.node? a = some node
  picture : ∀ a node, Sheet.At gen a → tree'.node? a = some node → node.isPicture = true

/-- Only pictures have names with the ending of sheets, and no link goes to such a name. -/
structure Orderly (tree : Tree) : Prop where
  picture : ∀ e ∈ tree.entries, ending <:+ e.1.getLastD [] → e.2.isPicture = true
  link : ∀ e ∈ tree.entries, ∀ target ∈ e.2.target?, ¬ ending <:+ target

variable {tree' : Tree} {links n : Nat} {here a : Address} {segments : List Text}

namespace Within

theorem workingDir_eq (h : Within gen tree tree') : tree.workingDir = tree'.workingDir := by
  have hbare := congrArg Tree.workingDir h.bare
  exact hbare

theorem node?_eq (h : Within gen tree tree') (ha : ¬ Sheet.At gen a) :
    tree.node? a = tree'.node? a := by
  have hbare := congrArg (Tree.node? · a) h.bare
  simpa only [node?_bare, if_neg ha] using hbare

theorem node?_mono (h : Within gen tree tree') (a : Address) (node : Node)
    (hnode : tree.node? a = some node) : tree'.node? a = some node := by
  by_cases ha : Sheet.At gen a
  · exact h.sheet a node ha hnode
  · exact h.node?_eq ha ▸ hnode

theorem not_at_of_dir (h : Within gen tree tree') (hdir : tree'.node? a = some .dir) :
    ¬ Sheet.At gen a := by
  intro ha
  exact absurd (h.picture a _ ha hdir) (by decide)

theorem not_at_of_link (h : Within gen tree tree') {target : Text}
    (hlink : tree'.node? a = some (.link target)) : ¬ Sheet.At gen a := by
  intro ha
  exact absurd (h.picture a _ ha hlink) (by simp [Node.isPicture])

end Within

namespace Orderly

variable (ho : (tree.bare gen).Orderly)
include ho

theorem link_of_node? {target : Text} (hlink : tree.node? a = some (.link target))
    (ha : ¬ Sheet.At gen a) : ¬ ending <:+ target := by
  refine ho.link (a, .link target) (node?_eq_some ?_ ?_) target rfl
  · rw [node?_bare, if_neg ha, hlink]
  · rintro rfl
    cases hlink

theorem picture_of_node? {node : Node}
    (hsheet : Sheet.At gen a → tree.node? a = some node → node.isPicture = true)
    (hnode : tree.node? a = some node) (ha : ending <:+ a.getLastD []) :
    node.isPicture = true := by
  by_cases hat : Sheet.At gen a
  · exact hsheet hat hnode
  · refine ho.picture (a, node) (node?_eq_some ?_ ?_) ha
    · rw [node?_bare, if_neg hat, hnode]
    · rintro rfl
      exact absurd ha (by decide)

end Orderly

/-- A path that leads somewhere in the larger tree leads there in the smaller one, unless
it ends in the name of a sheet. -/
theorem Leads.of_within (h : Within gen tree tree') (ho : (tree.bare gen).Orderly)
    (hleads : Leads tree' links here segments a n) :
    Leads tree links here segments a n ∨
      ∃ name, IsFileName name ∧ a = gen ++ [name] ∧ segments.getLast? = some name := by
  have hlast {segment name : Text} {rest : List Text} (hrest : rest.getLast? = some name) :
      (segment :: rest).getLast? = some name := by rw [List.getLast?_cons, hrest]; rfl
  have hdir {b : Address} (hb : tree'.node? b = some .dir) : tree.node? b = some .dir :=
    (h.node?_eq (h.not_at_of_dir hb)).trans hb
  induction hleads with
  | done links here => exact .inl (.done links here)
  | idle dir hidle _ ih =>
    refine ih.imp (.idle (hdir dir) hidle) ?_
    rintro ⟨name, hname, ha, hrest⟩
    exact ⟨name, hname, ha, hlast hrest⟩
  | up dir _ ih =>
    refine ih.imp (.up (hdir dir)) ?_
    rintro ⟨name, hname, ha, hrest⟩
    exact ⟨name, hname, ha, hlast hrest⟩
  | @enter links here segment rest a n node dir hidle hup hshort hfound hlink hleads ih =>
    by_cases hat : Sheet.At gen (here ++ [segment])
    · -- a sheet is a file, so it can only be the last entry of the path
      obtain ⟨rfl, hname⟩ := Sheet.at_append.1 hat
      cases rest with
      | nil =>
        cases hleads
        exact .inr ⟨segment, hname, rfl, rfl⟩
      | cons => exact absurd hat (h.not_at_of_dir (hleads.dir (List.cons_ne_nil _ _)))
    · refine ih.imp (.enter (hdir dir) hidle hup hshort ((h.node?_eq hat).trans hfound) hlink) ?_
      rintro ⟨name, hname, ha, hrest⟩
      exact ⟨name, hname, ha, hlast hrest⟩
  | @link links here segment rest a n target dir hidle hup hshort hfound hempty _ ih =>
    have hlink := (h.node?_eq (h.not_at_of_link hfound)).trans hfound
    refine ih.imp (.link (hdir dir) hidle hup hshort hlink hempty) ?_
    rintro ⟨name, hname, ha, hrest⟩
    refine ⟨name, hname, ha, ?_⟩
    cases rest with
    | nil =>
      rw [List.append_nil] at hrest
      exact absurd (hname.2.trans (suffix_of_getLast?_splitOn hrest))
        (ho.link_of_node? hlink (h.not_at_of_link hfound))
    | cons other rest =>
      rw [List.getLast?_append] at hrest
      simpa [List.getLast?_cons] using hrest

theorem not_ending_of_isIdle {segment : Text} (h : Path.isIdle segment = true) :
    ¬ ending <:+ segment := by
  simp only [Path.isIdle, Bool.or_eq_true, decide_eq_true_eq] at h
  rcases h with rfl | rfl <;> decide

/-- A path that ends in a name with the ending of sheets leads to a picture of this name. -/
theorem Leads.picture (ho : (tree.bare gen).Orderly)
    (hsheet : ∀ a node, Sheet.At gen a → tree.node? a = some node → node.isPicture = true)
    (hleads : Leads tree links here segments a n) {name : Text}
    (hlast : segments.getLast? = some name) (hname : ending <:+ name) :
    ∃ b node, a = b ++ [name] ∧ tree.node? a = some node ∧ node.isPicture = true := by
  induction hleads with
  | done => cases hlast
  | @idle links here segment rest a n dir hidle _ ih =>
    cases rest with
    | nil =>
      cases hlast
      exact absurd hname (not_ending_of_isIdle hidle)
    | cons => exact ih (by simpa [List.getLast?_cons] using hlast)
  | @up links here rest a n dir _ ih =>
    cases rest with
    | nil =>
      cases hlast
      exact absurd hname (by decide)
    | cons => exact ih (by simpa [List.getLast?_cons] using hlast)
  | @enter links here segment rest a n node dir hidle hup hshort hfound hlink hleads ih =>
    cases rest with
    | nil =>
      cases hlast
      cases hleads
      exact ⟨here, node, rfl, hfound, ho.picture_of_node? (hsheet _ _) hfound (by simpa using hname)⟩
    | cons => exact ih (by simpa [List.getLast?_cons] using hlast)
  | @link links here segment rest a n target dir hidle hup hshort hfound hempty _ ih =>
    cases rest with
    | nil =>
      cases hlast
      exact absurd (ho.picture_of_node? (hsheet _ _) hfound (by simpa using hname))
        (by simp [Node.isPicture])
    | cons => exact ih (by simpa [List.getLast?_append, List.getLast?_cons] using hlast)

/-! ### Reading files -/

/-- Every entry is in a directory. -/
def Rooted (tree : Tree) : Prop :=
  ∀ a node, tree.node? a = some node → tree.node? a.dropLast = some .dir

/-- In such a tree there is something wherever a path leads. -/
theorem Rooted.exists_of_leads (hroot : tree.Rooted) (hleads : Leads tree links here segments a n)
    {node : Node} (hhere : tree.node? here = some node) : ∃ node, tree.node? a = some node := by
  induction hleads generalizing node with
  | done => exact ⟨node, hhere⟩
  | idle dir _ _ ih => exact ih dir
  | up dir _ ih => exact ih (hroot _ _ dir)
  | enter _ _ _ _ hfound _ _ ih => exact ih hfound
  | @link links here _ _ _ _ target dir _ _ _ _ _ _ ih =>
    rw [startOf] at ih
    split at ih
    · exact ih (rfl : tree.node? [] = some .dir)
    · exact ih dir

theorem Rooted.exists_of_lookup (hroot : tree.Rooted) {p : Path} (hp : tree.lookup p = .ok a) :
    ∃ node, tree.node? a = some node := by
  obtain ⟨-, n, hleads⟩ := lookup_eq_ok_iff.1 hp
  exact hroot.exists_of_leads hleads (hleads.dir (splitOn_ne_nil _ _))

theorem nodeAt_eq_ok_iff {p : Path} {node : Node} :
    tree.nodeAt p = .ok node ↔ ∃ a, tree.lookup p = .ok a ∧ tree.node? a = some node := by
  unfold nodeAt
  cases tree.lookup p with
  | error e => simp [bind, Except.bind]
  | ok a => cases hnode : tree.node? a <;> simp [bind, Except.bind, pure, Except.pure, hnode]

theorem isFile_iff {p : Path} :
    tree.isFile p = true ↔ ∃ content time, tree.nodeAt p = .ok (.file content time) := by
  unfold isFile
  split <;> simp_all

theorem read_eq_ok_iff {p : Path} {bytes : Bytes} :
    tree.read p = .ok bytes ↔ ∃ time, tree.nodeAt p = .ok (.file bytes time) := by
  unfold read
  cases tree.nodeAt p with
  | error e => simp [bind, Except.bind]
  | ok node => cases node <;> simp [bind, Except.bind, pure, Except.pure]

theorem readText_eq_ok_iff {p : Path} {t : Text} :
    tree.readText p = .ok t ↔ ∃ bytes, tree.read p = .ok bytes ∧ ofUtf8? bytes = some t := by
  unfold readText
  cases tree.read p with
  | error e => simp [bind, Except.bind]
  | ok bytes => cases htext : ofUtf8? bytes <;> simp [bind, Except.bind, pure, Except.pure, htext]

/-- A picture is never read as text. -/
theorem readText_ne_ok_of_picture {p : Path} {node : Node} (hnode : tree.nodeAt p = .ok node)
    (hpicture : node.isPicture = true) (t : Text) : tree.readText p ≠ .ok t := by
  intro h
  obtain ⟨bytes, hread, htext⟩ := readText_eq_ok_iff.1 h
  obtain ⟨time, hfile⟩ := read_eq_ok_iff.1 hread
  obtain rfl := Except.ok.inj (hnode.symm.trans hfile)
  simp [Node.isPicture, htext] at hpicture

theorem readText_ne_ok_of_ending (ho : (tree.bare gen).Orderly)
    (hsheet : ∀ a node, Sheet.At gen a → tree.node? a = some node → node.isPicture = true)
    {p : Path} (hp : ending <:+ p.text) (t : Text) : tree.readText p ≠ .ok t := by
  intro h
  obtain ⟨bytes, hread, -⟩ := readText_eq_ok_iff.1 h
  obtain ⟨time, hfile⟩ := read_eq_ok_iff.1 hread
  obtain ⟨a, hlookup, hnode⟩ := nodeAt_eq_ok_iff.1 hfile
  obtain ⟨-, n, hleads⟩ := lookup_eq_ok_iff.1 hlookup
  obtain ⟨name, hlast⟩ := exists_getLast?_splitOn '/' p.text
  obtain ⟨_, node, -, hnode', hpicture⟩ := hleads.picture ho hsheet hlast
    (suffix_getLast?_splitOn hlast hp (by decide))
  obtain rfl := Option.some.inj (hnode.symm.trans hnode')
  exact readText_ne_ok_of_picture hfile hpicture t h

theorem suffix_pathOf (b : Address) (name : Text) : name <:+ (pathOf (b ++ [name])).text := by
  have hjoin : name <:+ join ['/'] (b ++ [name]) := by
    induction b with
    | nil => exact List.suffix_rfl
    | cons first b ih =>
      obtain ⟨second, others, hb⟩ :=
        List.exists_cons_of_ne_nil (List.append_ne_nil_of_right_ne_nil b (List.cons_ne_nil name []))
      rw [List.cons_append, hb, join, ← hb]
      exact ih.trans (List.suffix_append _ _)
      simp
  exact hjoin.trans (List.suffix_cons _ _)

/-- The ending of sheets is kept by canonical paths. -/
theorem ending_pathOf (ho : (tree.bare gen).Orderly)
    (hsheet : ∀ a node, Sheet.At gen a → tree.node? a = some node → node.isPicture = true)
    {p : Path} (hlookup : tree.lookup p = .ok a) (hp : ending <:+ p.text) :
    ending <:+ (pathOf a).text := by
  obtain ⟨-, n, hleads⟩ := lookup_eq_ok_iff.1 hlookup
  obtain ⟨name, hlast⟩ := exists_getLast?_splitOn '/' p.text
  have hname := suffix_getLast?_splitOn hlast hp (by decide)
  obtain ⟨b, _, rfl, -, -⟩ := hleads.picture ho hsheet hlast hname
  exact hname.trans (suffix_pathOf b name)

namespace Within

variable (h : Within gen tree tree') {p : Path}
include h

theorem picture_left (a : Address) (node : Node) (ha : Sheet.At gen a)
    (hnode : tree.node? a = some node) : node.isPicture = true :=
  h.picture a node ha (h.sheet a node ha hnode)

theorem retains : Retains (fun _ => False) tree tree' where
  workingDir := h.workingDir_eq.symm
  node a node hnode := .inl (h.node?_mono a node hnode)

theorem lookup_mono (hp : tree.lookup p = .ok a) : tree'.lookup p = .ok a := h.retains.lookup hp

theorem nodeAt_mono {node : Node} (hp : tree.nodeAt p = .ok node) : tree'.nodeAt p = .ok node := by
  obtain ⟨a, hlookup, hnode⟩ := nodeAt_eq_ok_iff.1 hp
  exact nodeAt_eq_ok_iff.2 ⟨a, h.lookup_mono hlookup, h.node?_mono a node hnode⟩

theorem read_mono {bytes : Bytes} (hp : tree.read p = .ok bytes) : tree'.read p = .ok bytes := by
  obtain ⟨time, hfile⟩ := read_eq_ok_iff.1 hp
  exact read_eq_ok_iff.2 ⟨time, h.nodeAt_mono hfile⟩

theorem readText_mono {t : Text} (hp : tree.readText p = .ok t) : tree'.readText p = .ok t := by
  obtain ⟨bytes, hread, htext⟩ := readText_eq_ok_iff.1 hp
  exact readText_eq_ok_iff.2 ⟨bytes, h.read_mono hread, htext⟩

theorem isFile_mono (hp : tree.isFile p = true) : tree'.isFile p = true := by
  obtain ⟨content, time, hfile⟩ := isFile_iff.1 hp
  exact isFile_iff.2 ⟨content, time, h.nodeAt_mono hfile⟩

variable (ho : (tree.bare gen).Orderly)
include ho

theorem lookup_reflect (hp : tree'.lookup p = .ok a) :
    tree.lookup p = .ok a ∨
      ∃ name, IsFileName name ∧ a = gen ++ [name] ∧ (splitOn '/' p.text).getLast? = some name := by
  obtain ⟨hcheck, n, hleads⟩ := lookup_eq_ok_iff.1 hp
  rw [← h.workingDir_eq] at hleads
  exact (hleads.of_within h ho).imp_left fun hleads => lookup_eq_ok_iff.2 ⟨hcheck, n, hleads⟩

/-- What a path leads to in the larger tree, it leads to in the smaller one, or else it
ends in the name of a sheet and leads to a picture. -/
theorem nodeAt_reflect (hroot : tree.Rooted) {node : Node} (hp : tree'.nodeAt p = .ok node) :
    tree.nodeAt p = .ok node ∨ node.isPicture = true ∧
      ∃ name, IsFileName name ∧ (splitOn '/' p.text).getLast? = some name := by
  obtain ⟨a, hlookup, hnode⟩ := nodeAt_eq_ok_iff.1 hp
  rcases h.lookup_reflect ho hlookup with hlookup' | ⟨name, hname, rfl, hlast⟩
  · obtain ⟨node', hnode'⟩ := hroot.exists_of_lookup hlookup'
    obtain rfl := Option.some.inj ((h.node?_mono a node' hnode').symm.trans hnode)
    exact .inl (nodeAt_eq_ok_iff.2 ⟨a, hlookup', hnode'⟩)
  · exact .inr ⟨h.picture _ _ (Sheet.at_append.2 ⟨rfl, hname⟩) hnode, name, hname, hlast⟩

end Within

end Tree

end StylePrep
