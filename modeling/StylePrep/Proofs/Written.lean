import StylePrep.Proofs.Canonical
import StylePrep.Proofs.Remains

/-!
# What a compilation writes

A compilation makes directories and writes sheets, and it may write a sheet over a file that
is there. Each time one entry is put into a directory, in a place that is free or has a file
(`Slot`). So the tree stays proper, and a file that is found later on is a file of the tree
that the compilation started from, or it is a picture (`Tree.Stems`).

A picture is not text. So what a loader reads in the later tree under a canonical path it
reads in the first tree too (`Stems.load_eq_ok`): whatever happens to the tree, the texts of
a compilation are those of the tree it started from.
-/

namespace StylePrep

open Text Step

namespace Tree

variable {tree tree' tree'' : Tree} {a : Address} {links : Nat} {here : Address}
variable {segments : List Text} {p : Path}

/-- An address in a directory that an entry can be put at. -/
def Slot (tree : Tree) (a : Address) : Prop :=
  ∃ dir name, a = dir ++ [name] ∧ tree.node? dir = some .dir ∧ Path.IsName name ∧
    ∀ node, tree.node? a = some node → node.isFile = true

/-- A tree that stems from another by making directories and writing pictures. -/
structure Stems (tree tree' : Tree) : Prop where
  proper : tree.Proper → tree'.Proper
  file : ∀ a content time, tree'.node? a = some (.file content time) →
    tree.node? a = some (.file content time) ∨ (Node.file content time).isPicture = true

theorem Slot.ne_nil (h : tree.Slot a) : a ≠ [] := by
  obtain ⟨dir, name, rfl, -⟩ := h
  simp

/-- An entry that is put into a directory leaves all other entries in theirs. -/
theorem Proper.set (h : tree.Proper) (ha : tree.Slot a) (node : Node) :
    (tree.set a node).Proper := by
  have hdir {b : Address} (hb : tree.node? b = some .dir) :
      (tree.set a node).node? b = some .dir := by
    obtain ⟨dir, name, -, -, -, hfile⟩ := id ha
    rw [node?_set ha.ne_nil, if_neg, hb]
    rintro rfl
    cases hfile _ hb
  have hold {e : Address × Node} (he : e ∈ tree.entries.filter (·.1 ≠ a)) : e ∈ tree.entries :=
    (List.mem_filter.1 he).1
  obtain ⟨dir, name, rfl, hparent, hname, -⟩ := id ha
  refine ⟨fun e he => ?_, fun e he n hn => ?_, hdir h.working⟩ <;> rcases List.mem_cons.1 he with rfl | he
  · simpa using hdir hparent
  · exact hdir (h.rooted e (hold he))
  · rcases List.mem_append.1 hn with hn | hn
    · exact h.isName hparent hn
    · exact List.mem_singleton.1 hn ▸ hname
  · exact h.named e (hold he) n hn

namespace Stems

theorem refl (tree : Tree) : Stems tree tree := ⟨id, fun _ _ _ => .inl⟩

theorem trans (h : Stems tree tree') (h' : Stems tree' tree'') : Stems tree tree'' where
  proper := h'.proper ∘ h.proper
  file a content time hfile := (h'.file a content time hfile).elim (h.file a content time) .inr

/-- Putting a directory or a picture into a slot. -/
theorem set (ha : tree.Slot a) {node : Node}
    (hnode : ∀ content time, node = .file content time → node.isPicture = true) :
    Stems tree (tree.set a node) where
  proper h := h.set ha node
  file b content time hfile := by
    rw [node?_set ha.ne_nil] at hfile
    split at hfile
    · obtain rfl := Option.some.inj hfile
      exact .inr (hnode content time rfl)
    · exact .inl hfile

end Stems

/-! ### Where files are written and directories are made -/

theorem isName_getLastD (hsegments : ∀ s ∈ segments, '/' ∉ s)
    (h : ¬ (Path.isIdle (segments.getLastD []) = true ∨ segments.getLastD [] = ['.', '.'])) :
    Path.IsName (segments.getLastD []) := by
  rw [not_or, Bool.not_eq_true] at h
  refine ⟨?_, h.1, h.2⟩
  rcases List.eq_nil_or_concat segments with rfl | ⟨front, last, rfl⟩
  · simp
  · simpa using hsegments last (by simp)

/-- A file is written into a directory that is there, or where a link in it leads. -/
theorem targetUntil_eq_ok {relink : Nat → Address → List Text → Except Fault Address}
    (h : tree.targetUntil relink links here segments = .ok a) :
    ∃ dir left, Leads tree links here segments.dropLast dir left ∧ tree.node? dir = some .dir ∧
      ¬ (Path.isIdle (segments.getLastD []) = true ∨ segments.getLastD [] = ['.', '.']) ∧
      (segments.getLastD []).utf8Size ≤ maxNameSize ∧
      ((a = dir ++ [segments.getLastD []] ∧ ∀ node, tree.node? a = some node → node.isFile = true) ∨
        ∃ path fewer, left = fewer + 1 ∧
          tree.node? (dir ++ [segments.getLastD []]) = some (.link path) ∧ path ≠ [] ∧
          relink fewer (startOf dir path) (splitOn '/' path) = .ok a) := by
  unfold targetUntil at h
  cases hfollow : tree.follow links here segments.dropLast with
  | error e =>
    rw [hfollow] at h
    cases h
  | ok found =>
    obtain ⟨dir, left⟩ := found
    simp only [hfollow, bind, Except.bind] at h
    split at h
    · cases h
    split at h
    · cases h
    split at h
    · cases h
    rename_i hdir hname hshort
    refine ⟨dir, left, follow_eq_ok_iff.1 hfollow, Decidable.not_not.1 hdir, hname,
      Nat.le_of_not_lt hshort, ?_⟩
    split at h
    · cases h
    · rename_i path hlink
      split at h
      · cases h
      · rename_i fewer
        split at h
        · cases h
        · rename_i hempty
          exact .inr ⟨path, fewer, rfl, hlink, hempty, h⟩
    · rename_i hnot hlink
      obtain rfl := Except.ok.inj h
      refine .inl ⟨rfl, fun node hnode => ?_⟩
      cases node with
      | file content time => rfl
      | dir => exact absurd hnode hnot
      | link path => exact absurd hnode (hlink path)

theorem slot_of_targetUntil {relink : Nat → Address → List Text → Except Fault Address}
    (hrelink : ∀ links here segments, (∀ s ∈ segments, '/' ∉ s) →
      relink links here segments = .ok a → tree.Slot a)
    (hsegments : ∀ s ∈ segments, '/' ∉ s)
    (h : tree.targetUntil relink links here segments = .ok a) : tree.Slot a := by
  obtain ⟨dir, left, -, hdir, hname, -, ⟨rfl, hfile⟩ | ⟨path, fewer, -, -, -, hrest⟩⟩ :=
    targetUntil_eq_ok h
  · exact ⟨dir, _, rfl, hdir, isName_getLastD hsegments hname, hfile⟩
  · exact hrelink _ _ _ (fun s hs => not_mem_of_mem_splitOn hs) hrest

theorem slot_of_target {hops : Nat} (hsegments : ∀ s ∈ segments, '/' ∉ s)
    (h : tree.target hops links here segments = .ok a) : tree.Slot a := by
  induction hops generalizing links here segments with
  | zero => exact slot_of_targetUntil (fun _ _ _ _ h => by cases h) hsegments h
  | succ hops ih =>
    exact slot_of_targetUntil (fun _ _ _ hsegments h => ih hsegments h) hsegments h

/-- Writing puts a file where the path of the file leads. -/
theorem write_eq_ok {content : Bytes} (h : tree.write p content = .ok tree') :
    checkPath p = .ok () ∧ ∃ a, tree.Slot a ∧ tree' = tree.set a (.file content tree.clock) ∧
      tree.target maxLinks maxLinks (startOf tree.workingDir p.text) (splitOn '/' p.text) =
        .ok a := by
  unfold write at h
  cases hcheck : checkPath p with
  | error e =>
    rw [hcheck] at h
    cases h
  | ok u =>
    cases htarget : tree.target maxLinks maxLinks (startOf tree.workingDir p.text)
        (splitOn '/' p.text) with
    | error e =>
      rw [hcheck, htarget] at h
      cases h
    | ok a =>
      rw [hcheck, htarget] at h
      exact ⟨rfl, a, slot_of_target (fun s hs => not_mem_of_mem_splitOn hs) htarget,
        (Except.ok.inj h).symm, rfl⟩

/-- A directory is made where nothing is. -/
theorem makeDir_eq_ok (h : tree.makeDir p = .ok tree') :
    ∃ a, tree.Slot a ∧ tree.node? a = none ∧ tree' = tree.set a .dir := by
  have hsegments : ∀ s ∈ ((splitOn '/' p.text).reverse.dropWhile (· = [])).reverse, '/' ∉ s := by
    intro s hs
    have hmem := (List.dropWhile_suffix _).subset (List.mem_reverse.1 hs)
    exact not_mem_of_mem_splitOn (List.mem_reverse.1 hmem)
  unfold makeDir at h
  generalize ((splitOn '/' p.text).reverse.dropWhile (· = [])).reverse = segments at hsegments h
  cases hcheck : checkPath p with
  | error e =>
    rw [hcheck] at h
    cases h
  | ok u =>
    cases hfollow : tree.follow maxLinks (startOf tree.workingDir p.text) segments.dropLast with
    | error e =>
      rw [hcheck] at h
      simp only [hfollow, bind, Except.bind] at h
      cases h
    | ok found =>
      obtain ⟨dir, left⟩ := found
      rw [hcheck] at h
      simp only [hfollow, bind, Except.bind] at h
      split at h
      · cases h
      split at h
      · cases h
      split at h
      · cases h
      split at h
      · cases h
      rename_i hdir hname _ hnone
      rw [Bool.not_eq_true, Option.isSome_eq_false_iff, Option.isNone_iff_eq_none] at hnone
      refine ⟨_, ⟨dir, _, rfl, Decidable.not_not.1 hdir, isName_getLastD hsegments hname, ?_⟩,
        hnone, (Except.ok.inj h).symm⟩
      intro node hnode
      rw [hnone] at hnode
      cases hnode

/-- What holds when one directory is made holds when a chain of them is made, also if one of
them cannot be made. -/
theorem makeChain_induction {R : Tree → Tree → Prop} (refl : ∀ tree, R tree tree)
    (trans : ∀ tree tree' tree'', R tree tree' → R tree' tree'' → R tree tree'')
    (make : ∀ tree tree' p, tree.makeDir p = .ok tree' → R tree tree') (ps : List Path)
    (tree : Tree) : R tree (makeChain ps tree).2 := by
  induction ps generalizing tree with
  | nil => exact refl tree
  | cons p outer ih =>
    unfold makeChain
    dsimp only
    split
    · exact refl tree
    split
    · rename_i hmake
      exact make _ _ p hmake
    · have houter := ih tree
      revert houter
      obtain ⟨_ | _, tree₁⟩ := makeChain outer tree <;> intro houter
      · exact houter
      · dsimp only
        split
        · rename_i hmake
          exact trans _ _ _ houter (make _ _ p hmake)
        · exact houter
    · exact refl tree

/-- Making directories keeps the files. -/
theorem stems_makeDirs (p : Path) (tree : Tree) : Stems tree (tree.makeDirs p).2 := by
  refine makeChain_induction .refl (fun _ _ _ => .trans) (fun tree tree' p h => ?_) p.ancestors tree
  obtain ⟨a, ha, -, rfl⟩ := makeDir_eq_ok h
  exact .set ha fun _ _ h => by cases h

end Tree

/-! ### Sheets -/

theorem Sheet.stems_pack (sources : List SpriteSource) (options : PackOptions) (tree : Tree) :
    tree.Stems (pack sources options tree).2 := by
  unfold pack
  split
  · exact .refl tree
  · have hdirs := Tree.stems_makeDirs options.outDir tree
    dsimp only
    revert hdirs
    obtain ⟨_ | _, tree₁⟩ := tree.makeDirs options.outDir <;> intro hdirs
    · exact hdirs
    · dsimp only
      cases hsave : Image.save? tree₁ (options.outDir.join ⟨options.stem ++ ".png".toList⟩) _ with
      | none => exact hdirs
      | some tree₂ =>
        rw [Image.save?_eq] at hsave
        split at hsave
        · cases hwrite : tree₁.write (options.outDir.join ⟨options.stem ++ ".png".toList⟩) _ with
          | error e =>
            rw [hwrite] at hsave
            cases hsave
          | ok tree₃ =>
            rw [hwrite] at hsave
            obtain rfl := Option.some.inj hsave
            obtain ⟨-, a, ha, rfl, -⟩ := Tree.write_eq_ok hwrite
            exact hdirs.trans (.set ha fun _ _ _ => Png.isPicture_encode _ _)
        · cases hsave

/-- The tree of a workspace stems from that of another. -/
def Workspace.Stems (w w' : Workspace) : Prop := w.tree.Stems w'.tree

theorem Expand.stems_spriteMap (config : SpriteConfig) (pattern : Text) (spacing : Nat) :
    Advances Workspace.Stems (spriteMap config pattern spacing) := by
  intro w
  rw [exec_spriteMap]
  split
  · exact .refl _
  · dsimp only
    split
    · exact .refl _
    · unfold SheetCache.getOrPack
      split
      · exact .refl _
      · rename_i glob _ _ _ _
        have hpack := Sheet.stems_pack (collectImages config glob w.tree)
          (packOptions config pattern spacing (Fingerprint.fingerprint w.tree pattern
            (collectImages config glob w.tree) spacing config.genDir)) w.tree
        revert hpack
        obtain ⟨_ | sheet, tree⟩ := Sheet.pack _ _ _ <;> exact id

theorem Assembly.builds_stems (options : Options) :
    Assembly.Builds options fun x _ => Assembly.Advances Workspace.Stems x :=
  builds_advances (fun _ => .refl _) (fun _ _ _ => .trans) (Expand.stems_spriteMap _)

/-! ### Reading what was there before -/

/-- What is read under the canonical path of an entry has this path, and it was there from
the start. -/
theorem Tree.Stems.load_eq_ok {tree tree' : Tree} (h : tree.Stems tree') (hproper : tree.Proper)
    {a : Address} (ha : tree'.Solid a) {loader : Loader} {q : Path} {t : Text}
    (hload : loader.load tree' (pathOf a) = .ok (q, t)) :
    q = pathOf a ∧ loader.load tree (pathOf a) = .ok (pathOf a, t) ∧
      ∃ content time, tree.node? a = some (.file content time) := by
  obtain ⟨b, u, hlookup, rfl, hpermits, htext, rfl⟩ := Loader.load_eq_ok_iff.1 hload
  obtain ⟨rfl, hshort⟩ := (lookup_pathOf_iff (h.proper hproper) ha).1 hlookup
  obtain ⟨b', bytes, time, hlookup', hnode', hbytes⟩ := readText_iff_file.1 htext
  obtain rfl := Except.ok.inj (hlookup.symm.trans hlookup')
  have hnode : tree.node? b = some (.file bytes time) :=
    (h.file b bytes time hnode').resolve_right (by simp [Node.isPicture, hbytes])
  have hlookup₀ : tree.lookup (pathOf b) = .ok b :=
    (lookup_pathOf_iff hproper ⟨_, hnode, rfl⟩).2 ⟨rfl, hshort⟩
  refine ⟨rfl, Loader.load_eq_ok_iff.2 ⟨b, u, hlookup₀, rfl, hpermits, ?_, rfl⟩, bytes, time, hnode⟩
  exact readText_iff_file.2 ⟨b, bytes, time, hlookup₀, hnode, hbytes⟩

end StylePrep
