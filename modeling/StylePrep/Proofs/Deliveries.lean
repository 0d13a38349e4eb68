import Mathlib.Data.List.Nodup
import StylePrep.Command.Build
import StylePrep.Proofs.Sample
import StylePrep.Proofs.Written

/-!
# What a build leaves in the build directory

The style sheets of a build are written one after the other, each to the path that its
input has below the source it was found in. Writing one of them makes directories and puts
one file where its path leads (`Tree.Delivers`). Every other file stays as it is, and every
path that led somewhere leads there still. So along a run of such writes a file holds what
was written to it last (`Tree.DeliversAll.read_last`).

Nothing keeps two inputs from having the same output: the path of an input is taken from
the source it was found in, and two sources can have style sheets of the same name. Then a
build succeeds, but only the last of the style sheets is left (`Build.all_keeps_last`). In a
directory without links, outputs of different names are different files, and all of them are
kept (`Build.all_keeps_of_nodup`).
-/

namespace StylePrep

open Text Step

namespace Tree

variable {tree tree' tree'' : Tree} {a : Address} {links : Nat} {here : Address}
variable {segments : List Text} {p q : Path} {content : Bytes}

/-! ### Writing one file -/

namespace Retains

variable {written written' : Address → Prop}

theorem refl (tree : Tree) : Retains written tree tree := ⟨rfl, fun _ _ => .inl⟩

theorem trans (h : Retains written tree tree') (h' : Retains written tree' tree'') :
    Retains written tree tree'' where
  workingDir := h'.workingDir.trans h.workingDir
  node a node hnode := by
    rcases h.node a node hnode with hnode' | ⟨hwritten, hfile, node', hnode', hfile'⟩
    · exact h'.node a node hnode'
    · rcases h'.node a node' hnode' with hnode'' | ⟨-, -, hnode''⟩
      · exact .inr ⟨hwritten, hfile, node', hnode'', hfile'⟩
      · exact .inr ⟨hwritten, hfile, hnode''⟩

theorem mono (h : Retains written tree tree') (himp : ∀ a, written a → written' a) :
    Retains written' tree tree' :=
  ⟨h.workingDir, fun a node hnode => (h.node a node hnode).imp_right (.imp_left (himp a))⟩

/-- A file in a slot. -/
theorem set (ha : tree.Slot a) {node : Node} (hfile : node.isFile = true) :
    Retains (· = a) tree (tree.set a node) where
  workingDir := rfl
  node b node' hnode := by
    rw [node?_set ha.ne_nil]
    obtain ⟨-, -, -, -, -, hold⟩ := id ha
    by_cases hb : b = a
    · subst hb
      exact .inr ⟨rfl, hold _ hnode, node, if_pos rfl, hfile⟩
    · exact .inl ((if_neg hb).trans hnode)

theorem makeDirs (tree : Tree) (p : Path) : Retains (fun _ => False) tree (tree.makeDirs p).2 := by
  refine makeChain_induction refl (fun _ _ _ => trans) (fun tree tree' p h => ?_) p.ancestors tree
  obtain ⟨a, ha, hnone, rfl⟩ := makeDir_eq_ok h
  refine ⟨rfl, fun b node hnode => .inl ?_⟩
  rw [node?_set ha.ne_nil, if_neg, hnode]
  rintro rfl
  exact absurd (hnone.symm.trans hnode) (by simp)

end Retains

section Target

variable {written : Address → Prop} (hretains : Retains written tree tree') {node : Node}
variable (hnode : tree'.node? a = some node) (hfile : node.isFile = true)
include hretains hnode hfile

theorem leads_of_targetUntil {relink : Nat → Address → List Text → Except Fault Address}
    (hrelink : ∀ links here segments, relink links here segments = .ok a →
      ∃ n, Leads tree' links here segments a n)
    (h : tree.targetUntil relink links here segments = .ok a) :
    ∃ n, Leads tree' links here segments a n := by
  obtain ⟨dir, left, hfront, hdir, hname, hshort, hlast⟩ := targetUntil_eq_ok h
  rcases List.eq_nil_or_concat segments with rfl | ⟨front, name, rfl⟩
  · exact absurd (.inl rfl) hname
  simp only [List.concat_eq_append, List.dropLast_concat, List.getLastD_concat, not_or,
    Bool.not_eq_true] at hfront hname hshort hlast ⊢
  have hfront' := hretains.leads hfront
  have hdir' := hretains.node?_eq hdir rfl
  rcases hlast with ⟨rfl, -⟩ | ⟨path, fewer, rfl, hlink, hempty, hrest⟩
  · refine ⟨left, leads_append.2 ⟨dir, left, hfront', ?_⟩⟩
    refine .enter hdir' hname.1 hname.2 hshort hnode (fun target hlink => ?_) (.done _ _)
    rw [hlink] at hfile
    cases hfile
  · obtain ⟨n, htarget⟩ := hrelink _ _ _ hrest
    have hlink' := hretains.node?_eq hlink rfl
    refine ⟨n, leads_append.2 ⟨dir, fewer + 1, hfront', ?_⟩⟩
    exact .link hdir' hname.1 hname.2 hshort hlink' hempty (by rwa [List.append_nil])

/-- Once there is a file where one is to be written, the path leads there. -/
theorem leads_of_target {hops : Nat} (h : tree.target hops links here segments = .ok a) :
    ∃ n, Leads tree' links here segments a n := by
  induction hops generalizing links here segments with
  | zero => exact leads_of_targetUntil hretains hnode hfile (fun _ _ _ h => by cases h) h
  | succ hops ih => exact leads_of_targetUntil hretains hnode hfile (fun _ _ _ h => ih h) h

end Target

theorem read_congr (h : tree.lookup p = tree.lookup q) : tree.read p = tree.read q := by
  rw [read, read, nodeAt, nodeAt, h]

theorem exists_lookup_of_read {bytes : Bytes} (h : tree.read p = .ok bytes) :
    ∃ a, tree.lookup p = .ok a := by
  obtain ⟨_, hnode⟩ := read_eq_ok_iff.1 h
  obtain ⟨a, hlookup, -⟩ := nodeAt_eq_ok_iff.1 hnode
  exact ⟨a, hlookup⟩

/-- A tree with one more file, which a path leads to. Of the files that were there, it is
the only one that may have changed. -/
structure Delivers (p : Path) (content : Bytes) (tree tree' : Tree) : Prop where
  retains : Retains (fun a => tree'.lookup p = .ok a) tree tree'
  read : tree'.read p = .ok content

theorem delivers_of_write (h : tree.write p content = .ok tree') :
    Delivers p content tree tree' := by
  obtain ⟨hcheck, a, ha, rfl, htarget⟩ := write_eq_ok h
  have hretains : Retains (· = a) tree (tree.set a (.file content tree.clock)) := .set ha rfl
  have hnode : (tree.set a (.file content tree.clock)).node? a = some (.file content tree.clock) := by
    rw [node?_set ha.ne_nil, if_pos rfl]
  have hlookup : (tree.set a (.file content tree.clock)).lookup p = .ok a :=
    lookup_eq_ok_iff.2 ⟨hcheck, leads_of_target hretains hnode rfl htarget⟩
  refine ⟨hretains.mono ?_, read_eq_ok_iff.2 ⟨_, nodeAt_eq_ok_iff.2 ⟨a, hlookup, hnode⟩⟩⟩
  rintro b rfl
  exact hlookup

namespace Delivers

/-- Other files are read as before. -/
theorem read_other (h : Delivers p content tree tree') {bytes : Bytes}
    (hq : tree.read q = .ok bytes) (hne : tree'.lookup p ≠ tree'.lookup q) :
    tree'.read q = .ok bytes := by
  obtain ⟨time, hfile⟩ := read_eq_ok_iff.1 hq
  obtain ⟨b, hlookup, hnode⟩ := nodeAt_eq_ok_iff.1 hfile
  have hlookup' := h.retains.lookup hlookup
  rcases h.retains.node b _ hnode with hnode' | ⟨hwritten, -⟩
  · exact read_eq_ok_iff.2 ⟨time, nodeAt_eq_ok_iff.2 ⟨b, hlookup', hnode'⟩⟩
  · exact absurd (hwritten.trans hlookup'.symm) hne

theorem of_retains (hretains : Retains (fun _ => False) tree tree')
    (h : Delivers p content tree' tree'') : Delivers p content tree tree'' :=
  ⟨(hretains.mono fun _ => False.elim).trans h.retains, h.read⟩

end Delivers

/-! ### Writing files one after the other -/

inductive DeliversAll : List (Path × Bytes) → Tree → Tree → Prop
  | nil (tree : Tree) : DeliversAll [] tree tree
  | cons {p : Path} {content : Bytes} {rest : List (Path × Bytes)} {tree tree' tree'' : Tree} :
      Delivers p content tree tree' → DeliversAll rest tree' tree'' →
        DeliversAll ((p, content) :: rest) tree tree''

namespace DeliversAll

variable {ds before after : List (Path × Bytes)}

theorem lookup (h : DeliversAll ds tree tree') (hq : tree.lookup q = .ok a) :
    tree'.lookup q = .ok a := by
  induction h with
  | nil => exact hq
  | cons hfirst _ ih => exact ih (hfirst.retains.lookup hq)

/-- A file that nothing is written to keeps its contents. -/
theorem read_other (h : DeliversAll ds tree tree') {bytes : Bytes} (hq : tree.read q = .ok bytes)
    (hne : ∀ d ∈ ds, tree'.lookup d.1 ≠ tree'.lookup q) : tree'.read q = .ok bytes := by
  induction h with
  | nil => exact hq
  | @cons p content rest tree tree₁ tree' hfirst hrest ih =>
    refine ih (hfirst.read_other hq fun hsame => ?_) fun d hd => hne d (List.mem_cons_of_mem _ hd)
    -- paths that lead to the same file do so in all later trees
    obtain ⟨a, hp⟩ := exists_lookup_of_read hfirst.read
    refine hne (p, content) List.mem_cons_self ?_
    rw [hrest.lookup hp, hrest.lookup (hsame ▸ hp)]

/-- The last that is written to a file is what it holds. -/
theorem read_last (h : DeliversAll (before ++ (p, content) :: after) tree tree')
    (hafter : ∀ d ∈ after, tree'.lookup d.1 ≠ tree'.lookup p) : tree'.read p = .ok content := by
  induction before generalizing tree with
  | nil =>
    cases h with
    | cons hfirst hrest => exact hrest.read_other hfirst.read hafter
  | cons d before ih =>
    cases h with
    | cons _ hrest => exact ih hrest

/-- A file that is written to holds something that is written to it. -/
theorem exists_read (h : DeliversAll ds tree tree') {d : Path × Bytes} (hd : d ∈ ds) :
    ∃ d' ∈ ds, tree'.lookup d'.1 = tree'.lookup d.1 ∧ tree'.read d.1 = .ok d'.2 := by
  induction h generalizing d with
  | nil => cases hd
  | @cons p content rest tree tree₁ tree' hfirst hrest ih =>
    by_cases hlater : ∃ e ∈ rest, tree'.lookup e.1 = tree'.lookup d.1
    · obtain ⟨e, he, hsame⟩ := hlater
      obtain ⟨d', hd', hlookup, hread⟩ := ih he
      exact ⟨d', List.mem_cons_of_mem _ hd', hlookup.trans hsame, read_congr hsame ▸ hread⟩
    · rcases List.mem_cons.1 hd with rfl | hd
      · exact ⟨_, List.mem_cons_self, rfl,
          hrest.read_other hfirst.read fun e he hsame => hlater ⟨e, he, hsame⟩⟩
      · exact absurd ⟨d, hd, rfl⟩ hlater

/-- Every file holds what was written to it exactly if what is written to the same file is
always the same. -/
theorem read_iff (h : DeliversAll ds tree tree') : (∀ d ∈ ds, tree'.read d.1 = .ok d.2) ↔
    ∀ d ∈ ds, ∀ d' ∈ ds, tree'.lookup d.1 = tree'.lookup d'.1 → d.2 = d'.2 := by
  constructor
  · intro hall d hd d' hd' hsame
    exact Except.ok.inj ((hall d hd).symm.trans ((read_congr hsame).trans (hall d' hd')))
  · intro hagree d hd
    obtain ⟨d', hd', hsame, hread⟩ := h.exists_read hd
    rw [hread, hagree d' hd' d hd hsame]

end DeliversAll

end Tree

/-! ### Files in a directory without links -/

/-- The segments of a path that count. -/
def Path.names (p : Path) : List Text := (splitOn '/' p.text).filter fun segment => !isIdle segment

def Path.IsInner (p : Path) : Prop := p.isAbsolute = false ∧ ['.', '.'] ∉ splitOn '/' p.text

/-- Below a directory without links, paths of different names lead to different entries. -/
theorem Tree.eq_append_of_lookup {tree : Tree} {dir p : Path} {gen a : Address}
    (hdir : tree.lookup dir = .ok gen)
    (hunlinked : ∀ b target, gen <+: b → tree.node? b ≠ some (.link target)) (hp : p.IsInner)
    (h : tree.lookup (dir.join p) = .ok a) : a = gen ++ p.names := by
  obtain ⟨-, n, hgen⟩ := lookup_eq_ok_iff.1 hdir
  obtain ⟨-, m, hleads⟩ := lookup_eq_ok_iff.1 h
  obtain ⟨b, k, hb, hrest⟩ := (leads_join (text_ne_nil_of_lookup hdir) hp.1 _).1 hleads
  obtain ⟨rfl, rfl⟩ := hb.det hgen
  exact hrest.eq_append hp.2 hunlinked

/-- A tree with two directories that have a style sheet of the same name each. -/
def Sample.twins : Tree :=
  ⟨[(["a".toList], .dir), (["a".toList, "app.scss".toList], .file (utf8 "p\n".toList) 0),
    (["b".toList], .dir), (["b".toList, "app.scss".toList], .file (utf8 "q\n".toList) 0)], [], 0⟩

/-! ### Building -/

theorem Step.length_of_mapM {σ α β : Type} {f : α → Step σ β} {xs : List α}
    {s s' : σ} {ys : List β} (h : Returns (xs.mapM f) s ys s') : ys.length = xs.length := by
  induction xs generalizing s s' ys with
  | nil =>
    rw [List.mapM_nil, returns_pure] at h
    rw [h.1]
    rfl
  | cons x xs ih =>
    rw [List.mapM_cons, returns_bind] at h
    obtain ⟨y, s₁, -, h⟩ := h
    obtain ⟨rest, s₂, hrest, h⟩ := returns_bind.1 h
    rw [(returns_pure.1 h).1, List.length_cons, List.length_cons, ih hrest]

namespace Job

variable {desk desk' : Desk}

theorem returns_tree_bind {α : Type} {f : Tree → Job α} {b : α} :
    Returns (Job.tree >>= f) desk b desk' ↔ Returns (f desk.workspace.tree) desk b desk' := by
  rw [Job.tree, bind_assoc, returns_bind]
  simp

theorem returns_setTree_bind {α : Type} {tree : Tree} {f : Unit → Job α} {b : α} :
    Returns (Job.setTree tree >>= f) desk b desk' ↔
      Returns (f ()) { desk with workspace := { desk.workspace with tree } } b desk' := by
  rw [Job.setTree, returns_bind]
  constructor
  · rintro ⟨_, _, hset, h⟩
    rwa [returns_modify.1 hset] at h
  · intro h
    exact ⟨(), _, returns_modify.2 rfl, h⟩

theorem returns_tell {verbosity : Verbosity} {verb : Verb} {message : Text} {error? : Option Error}
    {u : Unit} (h : Returns (Job.tell verbosity verb message error?) desk u desk') :
    desk'.workspace = desk.workspace := by
  unfold Job.tell at h
  split at h
  · rw [returns_modify] at h
    rw [h]
  · rw [returns_pure] at h
    rw [h.2]

end Job

namespace Build

def output (dir : Path) (input : Input) : Path := dir.join input.cssPath

variable {verbosity : Verbosity} {options : Options} {dir : Path} {input : Input}
variable {inputs : List Input} {built : List Built} {desk desk' : Desk}

theorem returns_write {path : Path} {content : Bytes} {error : Fault → Error} {path? : Option Path}
    (h : Returns (do
      match (← Job.tree).write path content with
      | .error fault => return .error (error fault)
      | .ok tree =>
        Job.setTree tree
        return .ok (some path) : Job (Except Error (Option Path))) desk (.ok path?) desk') :
    path? = some path ∧ Tree.Delivers path content desk.workspace.tree desk'.workspace.tree := by
  rw [Job.returns_tree_bind] at h
  cases hwrite : desk.workspace.tree.write path content with
  | error fault => simp [hwrite] at h
  | ok tree =>
    rw [hwrite, Job.returns_setTree_bind, returns_pure] at h
    obtain ⟨hpath, rfl⟩ := h
    exact ⟨Except.ok.inj hpath, Tree.delivers_of_write hwrite⟩

theorem returns_deliver {css : Text} {path? : Option Path}
    (h : Returns (deliver (some dir) input css) desk (.ok path?) desk') :
    path? = some (output dir input) ∧
      Tree.Delivers (output dir input) css.utf8 desk.workspace.tree desk'.workspace.tree := by
  unfold deliver at h
  dsimp only at h
  split at h
  · exact returns_write h
  · rename_i parent _
    rw [Job.returns_tree_bind, Job.returns_setTree_bind] at h
    have hretains := Tree.Retains.makeDirs desk.workspace.tree parent
    generalize desk.workspace.tree.makeDirs parent = made at hretains h
    obtain ⟨_ | _, tree⟩ := made
    · cases (returns_pure.1 h).1
    · obtain ⟨hpath, hdelivers⟩ := returns_write h
      exact ⟨hpath, hdelivers.of_retains hretains⟩

/-- An input is reported as built only if it compiled and its style sheet was delivered. -/
theorem returns_report {result : Except Error Text} {built? : Option Built}
    (h : Returns (report verbosity (some dir) input result) desk built? desk') :
    built? = none ∨ ∃ css, result = .ok css ∧
      built? = some ⟨input.path, some (output dir input)⟩ ∧
      Tree.Delivers (output dir input) css.utf8 desk.workspace.tree desk'.workspace.tree := by
  rw [report, Job.returns_tree_bind] at h
  cases result with
  | error e =>
    obtain ⟨_, _, hfailed, h⟩ := returns_bind.1 h
    obtain ⟨rfl, rfl⟩ := returns_pure.1 hfailed
    obtain ⟨_, _, -, h⟩ := returns_bind.1 h
    exact .inl (returns_pure.1 h).1
  | ok css =>
    obtain ⟨delivered, desk₁, hdeliver, h⟩ := returns_bind.1 h
    cases delivered with
    | error e =>
      obtain ⟨_, _, -, h⟩ := returns_bind.1 h
      exact .inl (returns_pure.1 h).1
    | ok path? =>
      obtain ⟨_, _, htell, h⟩ := returns_bind.1 h
      obtain ⟨rfl, rfl⟩ := returns_pure.1 h
      obtain ⟨rfl, hdelivers⟩ := returns_deliver hdeliver
      exact .inr ⟨css, rfl, rfl, Job.returns_tell htell ▸ hdelivers⟩

/-- If as many inputs were built as there are, each of them compiled, and its style sheet was
delivered. -/
theorem returns_reports {results : List (Input × Except Error Text)}
    (h : Returns (results.filterMapM fun (input, result) => report verbosity (some dir) input result)
      desk built desk') :
    built.length ≤ results.length ∧ (results.length ≤ built.length → ∃ sheets : List (Input × Text),
      results = sheets.map (fun e => (e.1, .ok e.2)) ∧
      built = sheets.map (fun e => ⟨e.1.path, some (output dir e.1)⟩) ∧
      Tree.DeliversAll (sheets.map fun e => (output dir e.1, e.2.utf8)) desk.workspace.tree
        desk'.workspace.tree) := by
  induction results generalizing desk built with
  | nil =>
    rw [List.filterMapM_nil, returns_pure] at h
    obtain ⟨rfl, rfl⟩ := h
    exact ⟨Nat.le_refl 0, fun _ => ⟨[], rfl, rfl, .nil _⟩⟩
  | cons first results ih =>
    obtain ⟨input, result⟩ := first
    rw [List.filterMapM_cons, returns_bind] at h
    obtain ⟨built?, desk₁, hreport, h⟩ := h
    rcases returns_report hreport with rfl | ⟨css, rfl, rfl, hdelivers⟩
    · have hle := (ih h).1
      refine ⟨Nat.le_succ_of_le hle, fun hlong => ?_⟩
      rw [List.length_cons] at hlong
      omega
    · obtain ⟨rest, desk₂, hrest, h⟩ := returns_bind.1 h
      obtain ⟨rfl, rfl⟩ := returns_pure.1 h
      obtain ⟨hle, hall⟩ := ih hrest
      refine ⟨Nat.succ_le_succ hle, fun hlong => ?_⟩
      obtain ⟨sheets, rfl, rfl, hdeliversAll⟩ := hall (Nat.le_of_succ_le_succ hlong)
      exact ⟨(input, css) :: sheets, rfl, rfl, .cons hdelivers hdeliversAll⟩

/-- A build that succeeds has compiled all its inputs, and delivered all their style sheets. -/
theorem all_delivers
    (h : Returns (all verbosity options (some dir) inputs) desk built desk') :
    ∃ (sheets : List (Input × Text)) (desk₁ : Desk), sheets.map Prod.fst = inputs ∧
      Returns (inputs.mapM fun input => Job.attempt (compile options input)) desk
        (sheets.map fun e => .ok e.2) desk₁ ∧
      built = sheets.map (fun e => ⟨e.1.path, some (output dir e.1)⟩) ∧
      Tree.DeliversAll (sheets.map fun e => (output dir e.1, e.2.utf8)) desk₁.workspace.tree
        desk'.workspace.tree := by
  rw [all, returns_bind] at h
  obtain ⟨results, desk₁, hcompile, h⟩ := h
  obtain ⟨built', desk₂, hreports, h⟩ := returns_bind.1 h
  have hlength := length_of_mapM hcompile
  split at h
  · exact absurd h not_returns_throw
  rename_i hlong
  have hall : (inputs.zip results).length ≤ built'.length := by
    rw [List.length_zip, hlength, Nat.min_self]
    exact Nat.le_of_not_lt hlong
  obtain ⟨_, desk₃, hget, hrest⟩ := returns_bind.1 h
  obtain ⟨-, rfl⟩ := returns_get.1 hget
  obtain ⟨_, desk₄, htell, hpure⟩ := returns_bind.1 hrest
  obtain ⟨rfl, rfl⟩ := returns_pure.1 hpure
  obtain ⟨sheets, hsheets, hbuilt, hdelivers⟩ := (returns_reports hreports).2 hall
  have hinputs : inputs = sheets.map Prod.fst := by
    rw [← List.map_fst_zip (Nat.le_of_eq hlength.symm), hsheets, List.map_map]
    rfl
  have hresults : results = sheets.map fun e => .ok e.2 := by
    rw [← List.map_snd_zip (Nat.le_of_eq hlength), hsheets, List.map_map]
    rfl
  refine ⟨sheets, desk₁, hinputs.symm, hresults ▸ hcompile, hbuilt, ?_⟩
  rw [Job.returns_tell htell]
  exact hdelivers

/-- No style sheet is lost if no link is below the build directory and the outputs go there by
different names. -/
theorem all_keeps_of_nodup
    (h : Returns (all verbosity options (some dir) inputs) desk built desk') {gen : Address}
    (hdir : desk'.workspace.tree.lookup dir = .ok gen)
    (hunlinked : ∀ a target, gen <+: a → desk'.workspace.tree.node? a ≠ some (.link target))
    (hinner : ∀ input ∈ inputs, input.cssPath.IsInner)
    (hnodup : (inputs.map fun input => input.cssPath.names).Nodup) :
    ∃ (sheets : List (Input × Text)) (desk₁ : Desk), sheets.map Prod.fst = inputs ∧
      Returns (inputs.mapM fun input => Job.attempt (compile options input)) desk
        (sheets.map fun e => .ok e.2) desk₁ ∧
      built = sheets.map (fun e => ⟨e.1.path, some (output dir e.1)⟩) ∧
      ∀ e ∈ sheets, desk'.workspace.tree.read (output dir e.1) = .ok e.2.utf8 := by
  obtain ⟨sheets, desk₁, rfl, hcompile, hbuilt, hdelivers⟩ := all_delivers h
  refine ⟨sheets, desk₁, rfl, hcompile, hbuilt, ?_⟩
  rw [List.map_map] at hnodup
  have hplace : ∀ e ∈ sheets, desk'.workspace.tree.lookup (output dir e.1) =
      .ok (gen ++ e.1.cssPath.names) := by
    intro e he
    obtain ⟨_, -, -, hread⟩ := hdelivers.exists_read (List.mem_map_of_mem he)
    obtain ⟨a, ha⟩ := Tree.exists_lookup_of_read hread
    rw [ha, Tree.eq_append_of_lookup hdir hunlinked (hinner _ (List.mem_map_of_mem he)) ha]
  refine List.forall_mem_map.1 (hdelivers.read_iff.2 ?_)
  simp only [List.forall_mem_map]
  intro e he e' he' hsame
  rw [hplace e he, hplace e' he', Except.ok.injEq, List.append_cancel_left_eq] at hsame
  rw [List.inj_on_of_nodup_map hnodup he he' hsame]

/-- In a build that succeeds, a file holds the last of the style sheets that go to it. So no
style sheet is lost exactly if inputs whose outputs are the same file have the same one. -/
theorem all_keeps_last
    (h : Returns (all verbosity options (some dir) inputs) desk built desk') :
    ∃ (sheets : List (Input × Text)) (desk₁ : Desk), sheets.map Prod.fst = inputs ∧
      Returns (inputs.mapM fun input => Job.attempt (compile options input)) desk
        (sheets.map fun e => .ok e.2) desk₁ ∧
      built = sheets.map (fun e => ⟨e.1.path, some (output dir e.1)⟩) ∧
      (∀ before input css after, sheets = before ++ (input, css) :: after →
        (∀ e ∈ after, desk'.workspace.tree.lookup (output dir e.1) ≠
          desk'.workspace.tree.lookup (output dir input)) →
        desk'.workspace.tree.read (output dir input) = .ok css.utf8) ∧
      ((∀ e ∈ sheets, desk'.workspace.tree.read (output dir e.1) = .ok e.2.utf8) ↔
        ∀ e ∈ sheets, ∀ e' ∈ sheets, desk'.workspace.tree.lookup (output dir e.1) =
          desk'.workspace.tree.lookup (output dir e'.1) → e.2 = e'.2) := by
  obtain ⟨sheets, desk₁, hinputs, hcompile, hbuilt, hdelivers⟩ := all_delivers h
  refine ⟨sheets, desk₁, hinputs, hcompile, hbuilt, ?_, ?_⟩
  · rintro before input css after rfl hafter
    rw [List.map_append, List.map_cons] at hdelivers
    exact hdelivers.read_last (List.forall_mem_map.2 hafter)
  · have hiff := hdelivers.read_iff
    simp only [List.forall_mem_map] at hiff
    rw [hiff]
    refine forall₂_congr fun e _ => forall₂_congr fun e' _ => imp_congr_right fun _ => ?_
    exact ⟨utf8_injective, congrArg utf8⟩

/-- Two directories with style sheets of the same name: the second style sheet takes the place
of the first. -/
theorem all_keeps_last_twins : ∃ built desk₁ desk',
    Returns (all {} Sample.options (some ⟨"/out".toList⟩)
      (Input.find Sample.twins [] [⟨"a".toList⟩, ⟨"b".toList⟩])) (.ofTree Sample.twins) built desk' ∧
    Returns ((Input.find Sample.twins [] [⟨"a".toList⟩, ⟨"b".toList⟩]).mapM fun input =>
        Job.attempt (compile Sample.options input)) (.ofTree Sample.twins)
      [.ok "p\n".toList, .ok "q\n".toList] desk₁ ∧
    built = [⟨⟨"a/app.scss".toList⟩, some ⟨"/out/app.css".toList⟩⟩,
      ⟨⟨"b/app.scss".toList⟩, some ⟨"/out/app.css".toList⟩⟩] ∧
    desk'.workspace.tree.read ⟨"/out/app.css".toList⟩ = .ok (utf8 "q\n".toList) := by
  have hnamed : [Path.mk "a".toList, ⟨"b".toList⟩].flatMap (Input.named Sample.twins []) =
      [⟨⟨"a/app.scss".toList⟩, ⟨"app.scss".toList⟩⟩, ⟨⟨"b/app.scss".toList⟩, ⟨"app.scss".toList⟩⟩] := by
    decide +kernel
  have hfind : Input.find Sample.twins [] [⟨"a".toList⟩, ⟨"b".toList⟩] =
      [⟨⟨"a/app.scss".toList⟩, ⟨"app.scss".toList⟩⟩, ⟨⟨"b/app.scss".toList⟩, ⟨"app.scss".toList⟩⟩] := by
    rw [Input.find, hnamed, List.mergeSort_of_pairwise (by decide +kernel)]
    decide +kernel
  rw [hfind]
  generalize hinputs : [(⟨⟨"a/app.scss".toList⟩, ⟨"app.scss".toList⟩⟩ : Input),
    ⟨⟨"b/app.scss".toList⟩, ⟨"app.scss".toList⟩⟩] = inputs
  have hbuilt : (exec (all {} Sample.options (some ⟨"/out".toList⟩) inputs)
      (.ofTree Sample.twins)).1.toOption.map (fun _ => ()) = some () := by
    rw [← hinputs]
    decide +kernel
  have hresults : (exec (inputs.mapM fun input => Job.attempt (compile Sample.options input))
      (.ofTree Sample.twins)).1.toOption.map (fun results => results) =
      some [.ok "p\n".toList, .ok "q\n".toList] := by
    rw [← hinputs]
    decide +kernel
  obtain ⟨built, desk', hreturns, -⟩ := exists_returns hbuilt
  obtain ⟨results, desk₁, hcompile, rfl⟩ := exists_returns hresults
  obtain ⟨sheets, desk₂, hsheets, hcompile', rfl, hlast, -⟩ := all_keeps_last hreturns
  have hcss : sheets.map Prod.snd = ["p\n".toList, "q\n".toList] := by
    have hok : (sheets.map Prod.snd).map Except.ok =
        (["p\n".toList, "q\n".toList].map Except.ok : List (Except Error Text)) := by
      rw [List.map_map]
      exact (hcompile.det hcompile').1.symm
    exact (List.map_inj_right fun _ _ => Except.ok.inj).1 hok
  obtain rfl := List.zip_of_prod hsheets hcss
  have hpath : (Path.mk "/out".toList).join (Path.withExtension ⟨"app.scss".toList⟩ "css".toList) =
      ⟨"/out/app.css".toList⟩ := by decide +kernel
  have houtput (path : Path) : output ⟨"/out".toList⟩ ⟨path, ⟨"app.scss".toList⟩⟩ =
      ⟨"/out/app.css".toList⟩ := hpath
  subst hinputs
  have hread := hlast [_] _ _ [] rfl (by simp)
  rw [houtput] at hread
  refine ⟨_, desk₁, desk', hreturns, hcompile, ?_, hread⟩
  simp only [List.zip_cons_cons, List.zip_nil_right, List.map_cons, List.map_nil, houtput]

end Build

end StylePrep
