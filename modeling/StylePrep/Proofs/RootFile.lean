import StylePrep.Proofs.Below
import StylePrep.Proofs.ValueLines

/-!
# The root file

A compilation that starts from a file reads it as it reads every other source: the canonical path
has to lie in one of the permitted directories. Among these is the directory of the path as it is
given, so it matters which links this path leads over. Links on the way to the directory are
followed for both, and make no difference (`Request.inside_of_not_link`). A link in the place of the
file itself is followed for the file only; where it leads out of all permitted directories, the root
is refused (`Request.run_root_permitted`).
-/

namespace StylePrep

open Text Step

/-! ### The directory of a path -/

theorem Text.join_splitOn (c : Char) (t : Text) : join [c] (splitOn c t) = t := by
  induction t with
  | nil => rfl
  | cons d t ih =>
    obtain ⟨first, others, hsplit⟩ := List.exists_cons_of_ne_nil (splitOn_ne_nil c t)
    rw [hsplit] at ih
    by_cases hd : d = c
    · rw [splitOn, if_pos hd, hsplit, join, ih, hd]
      · rfl
      · simp
    · rw [splitOn_cons_of_ne hd hsplit]
      cases others with
      | nil => exact congrArg (d :: ·) ih
      | cons second others => exact congrArg (d :: ·) ih

/-- A front part of a list is joined to a front part. -/
theorem Text.join_isPrefix (sep : Text) {ps qs : List Text} (h : ps <+: qs) :
    join sep ps <+: join sep qs := by
  induction ps generalizing qs with
  | nil => exact List.nil_prefix
  | cons p ps ih =>
    obtain ⟨qs, rfl, hrest⟩ := List.cons_prefix_iff.1 h
    cases ps with
    | nil =>
      cases qs with
      | nil => exact List.prefix_rfl
      | cons q qs => exact (List.prefix_append p sep).trans (List.prefix_append _ _)
    | cons p' ps =>
      obtain ⟨qs, rfl, -⟩ := List.cons_prefix_iff.1 hrest
      exact (List.prefix_append_right_inj _).2 (ih hrest)

namespace Path

theorem exists_idle (body : List Text) :
    ∃ idle, body = trimIdle body ++ idle ∧ ∀ s ∈ idle, isIdle s = true := by
  refine ⟨(body.reverse.takeWhile isIdle).reverse, ?_, fun s hs => ?_⟩
  · rw [trimIdle, ← List.reverse_append, List.takeWhile_append_dropWhile, List.reverse_reverse]
  · exact List.mem_takeWhile_imp (List.mem_reverse.1 hs)

theorem trimIdle_concat {s : Text} (hs : isIdle s = false) (body : List Text) :
    trimIdle (body ++ [s]) = body ++ [s] := by
  simp [trimIdle, hs]

/-- The directory of a path is spelled without what stands for nothing at its end. -/
theorem directory_root {t name : Text} {front : List Text} (h : splitOn '/' t = front ++ [name])
    (hname : isIdle name = false) :
    (Path.mk ('/' :: t)).directory = ⟨'/' :: Text.join ['/'] (trimIdle front)⟩ := by
  have hsegments : (Path.mk ('/' :: t)).segments = (.root, front ++ [name]) := by rw [← h]; rfl
  have hparent : (Path.mk ('/' :: t)).parent? = some ⟨'/' :: Text.join ['/'] (trimIdle front)⟩ := by
    unfold parent?
    rw [hsegments]
    simp only [trimIdle_concat hname]
    split
    · simp_all
    · rw [List.dropLast_concat]
      rfl
  rw [directory, hparent, Option.getD_some]

end Path

namespace Tree

variable {tree : Tree} {links n : Nat} {here a : Address} {segments : List Text}

/-- Segments that stand for nothing lead nowhere else. -/
theorem Leads.eq_of_idle (h : Leads tree links here segments a n)
    (hidle : ∀ s ∈ segments, Path.isIdle s = true) : a = here ∧ n = links := by
  induction h with
  | done => exact ⟨rfl, rfl⟩
  | idle _ _ _ ih => exact ih fun s hs => hidle s (List.mem_cons_of_mem _ hs)
  | up => exact absurd (hidle _ List.mem_cons_self) (by decide)
  | enter _ h | link _ h => exact absurd (hidle _ List.mem_cons_self) (by simp [h])

/-- A path behind the root that can be passed on leads where its segments lead. -/
theorem lookup_root_iff {body : List Text} (hslash : ∀ s ∈ body, '/' ∉ s) :
    tree.lookup ⟨'/' :: join ['/'] body⟩ = .ok a ↔
      checkPath ⟨'/' :: join ['/'] body⟩ = .ok () ∧ ∃ n, Leads tree maxLinks [] body a n := by
  rw [lookup_eq_ok_iff]
  refine and_congr_right fun _ => exists_congr fun n => ?_
  have hstart : startOf tree.workingDir ('/' :: join ['/'] body) = [] := rfl
  have hroot : tree.node? [] = some .dir := rfl
  rw [hstart, show splitOn '/' ('/' :: join ['/'] body) = [[]] ++ splitOn '/' (join ['/'] body) from rfl,
    leads_append]
  simp only [leads_nil_segment, hroot, true_and]
  cases body with
  | nil =>
    simp only [show splitOn '/' (join ['/'] []) = [[]] from rfl, leads_nil_segment]
    constructor
    · rintro ⟨_, _, ⟨rfl, rfl⟩, -, rfl, rfl⟩
      exact .done _ _
    · rintro ⟨⟩
      exact ⟨_, _, ⟨rfl, rfl⟩, hroot, rfl, rfl⟩
  | cons s body =>
    rw [splitOn_join (List.cons_ne_nil _ _) hslash]
    simp

/-- A front part of a path that can be passed on can be passed on. -/
theorem checkPath_of_isPrefix {p q : Path} (hq : q.text ≠ []) (hfront : q.text <+: p.text)
    (h : checkPath p = .ok ()) : checkPath q = .ok () := by
  obtain ⟨hnul, -, hsize⟩ := checkPath_eq_ok_iff.1 h
  obtain ⟨rest, hrest⟩ := hfront
  rw [← hrest] at hnul hsize
  rw [utf8Size_append] at hsize
  exact checkPath_eq_ok_iff.2 ⟨fun h => hnul (List.mem_append_left _ h), hq, by omega⟩

/-- Where a path leads to a file, its directory leads to a directory, and its file name from
there to the file. -/
theorem exists_directory (hrooted : tree.Rooted) {p : Path} (habsolute : p.isAbsolute = true)
    (hlookup : tree.lookup p = .ok a) {bytes : Bytes} {time : Nat}
    (hfile : tree.node? a = some (.file bytes time)) :
    ∃ b name m n, tree.lookup p.directory = .ok b ∧ p.fileName? = some name ∧ Path.IsName name ∧
      Leads tree m b [name] a n := by
  obtain ⟨text⟩ := p
  obtain ⟨t, rfl⟩ := List.head?_eq_some_iff.1 (of_decide_eq_true habsolute)
  obtain ⟨front, name, hbody⟩ : ∃ front name, splitOn '/' t = front ++ [name] :=
    (List.eq_nil_or_concat' _).resolve_left (splitOn_ne_nil '/' t)
  have hslash : ∀ s ∈ front ++ [name], '/' ∉ s := fun s hs => not_mem_of_mem_splitOn (hbody ▸ hs)
  have htext : '/' :: t = '/' :: join ['/'] (front ++ [name]) := by rw [← hbody, join_splitOn]
  rw [htext] at hlookup
  obtain ⟨hcheck, n, hleads⟩ := (lookup_root_iff hslash).1 hlookup
  obtain ⟨b, m, hfront, hlast⟩ := leads_append.1 hleads
  have hname : Path.IsName name := by
    refine ⟨hslash name (by simp), ?_⟩
    cases hlast with
    | idle hdir _ h =>
      cases h
      exact absurd (hdir.symm.trans hfile) (by simp)
    | up hdir h =>
      cases h
      exact absurd ((hrooted _ _ hdir).symm.trans hfile) (by simp)
    | enter _ hidle hup | link _ hidle hup => exact ⟨hidle, hup⟩
  have hfileName : (Path.mk ('/' :: t)).fileName? = some name := by
    have hlastSegment : (splitOn '/' ('/' :: t)).getLast? = some name := by
      rw [splitOn, if_pos rfl, hbody, ← List.cons_append, List.getLast?_concat]
    rw [Path.fileName?_eq hlastSegment hname.2.1, if_neg hname.2.2]
  obtain ⟨idle, hidle, hall⟩ := Path.exists_idle front
  have htrimmed : Path.trimIdle front <+: front ++ [name] :=
    (Path.trimIdle_isPrefix front).trans (List.prefix_append _ _)
  rw [hidle] at hfront
  obtain ⟨b', m', hdir, hrest⟩ := leads_append.1 hfront
  obtain ⟨rfl, rfl⟩ := hrest.eq_of_idle hall
  refine ⟨b, name, m, n, ?_, hfileName, hname, hlast⟩
  rw [Path.directory_root hbody hname.2.1]
  refine (lookup_root_iff fun s hs => hslash s (htrimmed.subset hs)).2 ⟨?_, m, hdir⟩
  exact checkPath_of_isPrefix (by simp) (List.cons_prefix_cons.2 ⟨rfl, join_isPrefix _ htrimmed⟩) hcheck

theorem components_pathOf (hslash : ∀ name ∈ a, '/' ∉ name) :
    (pathOf a).components = .root :: a.filterMap Path.Component.ofSegment? := by
  have hsegments : (pathOf a).segments = (.root, splitOn '/' (join ['/'] a)) := rfl
  rw [Path.components_eq, hsegments]
  cases a with
  | nil => rfl
  | cons name names =>
    rw [splitOn_join (List.cons_ne_nil _ _) hslash]
    rfl

/-- An entry is below the directory that it is in. -/
theorem components_pathOf_isPrefix {name : Text} (hslash : ∀ s ∈ a ++ [name], '/' ∉ s) :
    (pathOf a).components <+: (pathOf (a ++ [name])).components := by
  rw [components_pathOf hslash, components_pathOf fun s hs => hslash s (List.mem_append_left _ hs),
    List.filterMap_append]
  exact List.cons_prefix_cons.2 ⟨rfl, List.prefix_append _ _⟩

theorem isAbsolute_absolute (tree : Tree) (p : Path) : (tree.absolute p).isAbsolute = true := by
  unfold absolute
  split
  · assumption
  case isFalse h =>
    obtain ⟨rest, hrest⟩ := tree.workingPath.prefix_join (Bool.eq_false_iff.2 h)
    exact decide_eq_true (by rw [← hrest]; rfl)

end Tree

/-! ### Errors about source files -/

/-- An error that is not about a source file. -/
def Error.SparesFiles (e : Error) : Prop := ∀ err, e.cause ≠ .file err

theorem Error.sparesFiles_scan (err : ScanError) : SparesFiles (.of (.scan err)) := by
  rintro _ ⟨⟩

/-- What goes wrong in a call is not about a source file. -/
theorem Error.OfCall.sparesFiles {e : Error} {line : Nat} (h : e.OfCall line) : e.SparesFiles := by
  cases h with
  | malformed => exact sparesFiles_scan _
  | sprite he =>
    obtain ⟨cause, rfl⟩ := he
    rintro _ ⟨⟩

namespace Assembly

variable {options : Options}

theorem expandDirectives_sparesFiles (ds : List Directive) :
    FailsWith Error.SparesFiles (expandDirectives options ds) := by
  induction ds with
  | nil => exact .pure _
  | cons d ds ih =>
    rw [expandDirectives_cons]
    refine .bind ?_ fun _ => .bind ih fun _ => .pure _
    exact (expandPiece_ofCall d).mono fun _ => Error.OfCall.sparesFiles

theorem expandValue_sparesFiles (value : Text) (line : Nat) :
    FailsWith Error.SparesFiles (expandValue options value line) := by
  refine .bind (expandDirectives_sparesFiles _) fun piece => ?_
  dsimp only
  split
  · exact .throw (Error.sparesFiles_scan _)
  · exact .pure _

theorem modifyVars_sparesFiles (f : VariableTable → VariableTable) :
    FailsWith Error.SparesFiles (modifyVars f) := by
  intro s e s' h
  cases h

/-- A directive that is no import does not fail because of a source file. -/
theorem addDirective_sparesFiles {loader : Loader} {nested : Importer} {id : FileId} {dir : Path}
    {before : Text} {map : LineMap} {d : Directive} (hkind : ∀ targets, d.kind ≠ .imports targets) :
    FailsWith Error.SparesFiles (addDirective options loader nested id dir before map d) := by
  unfold addDirective
  split
  case h_1 => exact .pure _
  case h_2 targets htargets => exact absurd htargets (hkind targets)
  case h_3 name lead value tail flags _ =>
    refine .bind (expandValue_sparesFiles _ _) fun expanded => ?_
    cases expanded <;> exact .bind (modifyVars_sparesFiles _) fun _ => .pure _
  case h_4 function args binding _ =>
    refine .bind ((expandSprite_ofCall _ _ _).mono fun _ => Error.OfCall.sparesFiles)
      fun expansion => ?_
    cases binding with
    | none => exact .pure _
    | some binding =>
      dsimp only
      cases expansion.sheet? with
      | none => exact .pure _
      | some sheet => exact .bind (modifyVars_sparesFiles _) fun _ => .pure _
  case h_5 name args _ =>
    exact .bind ((normalizeCall_ofCall _ _ _).mono fun _ => Error.OfCall.sparesFiles) fun _ => .pure _

/-- A file raises an error about a source file only if that cannot be loaded. -/
theorem Raises.exists_load {loader : Loader} {v : Visit} {err : FileError} {line : Nat}
    (h : Raises options loader v (.file err) line) : ∃ tree p, loader.load tree p = .error err := by
  cases h with
  | directive _ hkind hfails => exact absurd rfl (addDirective_sparesFiles hkind _ _ _ hfails err)
  | target _ _ _ hrefuses =>
    cases hrefuses with
    | unloaded _ _ hload => exact ⟨_, _, hload⟩

end Assembly

/-- What a loader refuses it does not permit. -/
theorem Loader.permits_eq_false_of_load {loader : Loader} {tree : Tree} {p q : Path}
    (h : loader.load tree p = .error (.notPermitted q)) : loader.permits q = false := by
  cases hlookup : tree.lookup p with
  | error fault =>
    rw [load_of_fault hlookup] at h
    cases fault <;> cases h
  | ok a =>
    rw [load_of_lookup hlookup] at h
    split at h
    · cases htext : tree.readText (Tree.pathOf a) with
      | error fault =>
        rw [htext] at h
        cases fault <;> cases h
      | ok t =>
        rw [htext] at h
        cases h
    · rename_i hpermits
      cases h
      exact Bool.eq_false_iff.2 hpermits

/-! ### Roots -/

namespace Preprocess.Request

variable {options : Options} {w : Workspace} {p q : Path} {t : Text}

theorem permits_iff_inside {tree : Tree} :
    ((Request.file p).loader options tree).permits q = true ↔
      tree.Inside ((Request.file p).dirs options tree) q :=
  Loader.permits_ofDirs_iff

/-- A root that is permitted is read. -/
theorem root_of_inside {tree : Tree} (hq : tree.canonical (tree.absolute p) = .ok q)
    (ht : tree.readText q = .ok t) (hinside : tree.Inside ((Request.file p).dirs options tree) q) :
    (Request.file p).root options tree = .ok (⟨q, t.normalizeNewlines, none⟩, q.directory) := by
  obtain ⟨a, hlookup, rfl⟩ := Tree.canonical_eq_ok_iff.1 hq
  have hload : ((Request.file p).loader options tree).load tree (tree.absolute p) =
      .ok (Tree.pathOf a, t.normalizeNewlines) :=
    Loader.load_eq_ok_iff.2 ⟨a, t, hlookup, rfl, permits_iff_inside.2 hinside, ht, rfl⟩
  dsimp only [loader] at hload
  dsimp only [root]
  rw [hload]

/-- A root that is not permitted is refused. -/
theorem root_of_not_inside {tree : Tree} (hq : tree.canonical (tree.absolute p) = .ok q)
    (hinside : ¬ tree.Inside ((Request.file p).dirs options tree) q) :
    (Request.file p).root options tree = .error (.notPermitted q) := by
  obtain ⟨a, hlookup, rfl⟩ := Tree.canonical_eq_ok_iff.1 hq
  have hpermits : ((Request.file p).loader options tree).permits (Tree.pathOf a) = false :=
    Bool.eq_false_iff.2 fun h => hinside (permits_iff_inside.1 h)
  dsimp only [loader] at hpermits
  dsimp only [root]
  rw [Loader.load_of_lookup hlookup, hpermits]
  rfl

/-- A root whose own entry is no link is permitted, whatever links lead to its directory. -/
theorem inside_of_not_link {tree : Tree} (hproper : tree.Proper)
    (hq : tree.canonical (tree.absolute p) = .ok q) (ht : tree.readText q = .ok t)
    (hlink : ∀ b name target, tree.lookup (tree.absolute p).directory = .ok b →
      (tree.absolute p).fileName? = some name → tree.node? (b ++ [name]) ≠ some (.link target)) :
    tree.Inside ((Request.file p).dirs options tree) q := by
  obtain ⟨a, hlookup, rfl⟩ := Tree.canonical_eq_ok_iff.1 hq
  obtain ⟨a', bytes, time, hlookup', hfile, -⟩ := Tree.readText_iff_file.1 ht
  obtain ⟨rfl, -⟩ := (Tree.lookup_pathOf_iff hproper
    (Tree.solid_of_lookup hproper.isRooted hlookup)).1 hlookup'
  obtain ⟨b, name, m, n, hdirectory, hfileName, hname, hleads⟩ :=
    Tree.exists_directory hproper.isRooted (tree.isAbsolute_absolute p) hlookup hfile
  obtain ⟨-, -, -, rfl, -⟩ := (Tree.leads_name hname (hlink b name · hdirectory hfileName)).1 hleads
  exact ⟨(tree.absolute p).directory, List.mem_append_right _ (List.mem_singleton.2 rfl),
    Tree.pathOf b, Tree.canonical_eq_ok_iff.2 ⟨b, hdirectory, rfl⟩,
    Tree.components_pathOf_isPrefix fun s hs => (hproper.isName hfile hs).1⟩

/-- A root file is read exactly if its canonical path lies in an include path or in the directory
of the path that it is given by; otherwise it is refused, and nothing else happens. -/
theorem run_root_permitted (options : Options) {w : Workspace} (hproper : w.tree.Proper) {p q : Path}
    {t : Text} (hq : w.tree.canonical (w.tree.absolute p) = .ok q) (ht : w.tree.readText q = .ok t) :
    -- permitted
    (w.tree.Inside ((Request.file p).dirs options w.tree) q →
      (Request.file p).root options w.tree = .ok (⟨q, t.normalizeNewlines, none⟩, q.directory) ∧
      (∀ c w', Returns ((Request.file p).run options) w c w' →
        c.files[0]? = some ⟨q, t.normalizeNewlines, none⟩) ∧
      ∀ e, (exec ((Request.file p).run options) w).1 = .error e → e.cause ≠ .file (.notPermitted q)) ∧
    -- not permitted
    (¬ w.tree.Inside ((Request.file p).dirs options w.tree) q →
      exec ((Request.file p).run options) w = (.error (.of (.file (.notPermitted q))), w)) ∧
    -- only a link can lead out of the directory
    ((∀ b name target, w.tree.lookup (w.tree.absolute p).directory = .ok b →
      (w.tree.absolute p).fileName? = some name → w.tree.node? (b ++ [name]) ≠ some (.link target)) →
      w.tree.Inside ((Request.file p).dirs options w.tree) q) := by
  refine ⟨fun hinside => ?_, fun hinside => ?_, inside_of_not_link hproper hq ht⟩
  · have hroot := root_of_inside hq ht hinside
    refine ⟨hroot, fun c w' h => ?_, fun e he hcause => ?_⟩
    · rw [Returns, exec_run, hroot] at h
      obtain ⟨s, hreads, hfiles⟩ := Assembly.reads_of_assembleRoot hproper h
      rw [hfiles, ← List.head?_eq_getElem?]
      exact hreads.first
    · rw [exec_run, hroot] at he
      obtain ⟨s, hfails⟩ := Assembly.exec_assembleRoot_eq_error.1 he
      obtain ⟨n, v, cause, line, -, hraises, rfl⟩ :=
        Assembly.Visits.root.exists_raises hproper (Nat.le_add_left _ _) hfails
      obtain rfl : cause = .file (.notPermitted q) := hcause
      obtain ⟨tree, p', hload⟩ := hraises.exists_load
      have hpermits := permits_iff_inside.2 hinside
      rw [Loader.permits_eq_false_of_load hload] at hpermits
      cases hpermits
  · rw [exec_run, root_of_not_inside hq hinside]

/-- A style sheet, and a link to it in another directory. -/
def linked : Workspace :=
  .ofTree ⟨[(["in".toList], .dir), (["in".toList, "r.scss".toList], .link "../out/r.scss".toList),
    (["out".toList], .dir), (["out".toList, "r.scss".toList], .file (utf8 "a { b: c; }\n".toList) 0)], [], 0⟩

/-- Given by the link, the root is refused; given by its own path, it is read. -/
theorem run_root_permitted_linked :
    exec ((Request.file ⟨"/in/r.scss".toList⟩).run Sample.options) linked =
        (.error (.of (.file (.notPermitted ⟨"/out/r.scss".toList⟩))), linked) ∧
      (Request.file ⟨"/out/r.scss".toList⟩).root Sample.options linked.tree =
        .ok (⟨⟨"/out/r.scss".toList⟩, "a { b: c; }\n".toList, none⟩, ⟨"/out".toList⟩) := by
  have hproper : linked.tree.Proper := by decide +kernel
  have ht : linked.tree.readText ⟨"/out/r.scss".toList⟩ = .ok "a { b: c; }\n".toList := by decide +kernel
  have hoverlink : linked.tree.canonical (linked.tree.absolute ⟨"/in/r.scss".toList⟩) =
      .ok ⟨"/out/r.scss".toList⟩ := by decide +kernel
  have hdirect : linked.tree.canonical (linked.tree.absolute ⟨"/out/r.scss".toList⟩) =
      .ok ⟨"/out/r.scss".toList⟩ := by decide +kernel
  obtain ⟨-, hrefused, -⟩ := run_root_permitted Sample.options hproper hoverlink ht
  obtain ⟨hread, -, -⟩ := run_root_permitted Sample.options hproper hdirect ht
  refine ⟨hrefused ?_, (hread ?_).1⟩
  · rw [← permits_iff_inside]
    decide +kernel
  · rw [← permits_iff_inside]
    decide +kernel

/-- A root can be a file with text and not be read. -/
theorem root_refused_over_link :
    linked.tree.canonical (linked.tree.absolute ⟨"/in/r.scss".toList⟩) = .ok ⟨"/out/r.scss".toList⟩ ∧
      linked.tree.readText (linked.tree.absolute ⟨"/in/r.scss".toList⟩) = .ok "a { b: c; }\n".toList ∧
      (exec ((Request.file ⟨"/in/r.scss".toList⟩).run Sample.options) linked).1 =
        .error (.of (.file (.notPermitted ⟨"/out/r.scss".toList⟩))) := by
  decide +kernel

end Preprocess.Request

end StylePrep
