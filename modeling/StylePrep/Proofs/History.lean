import Mathlib.Data.List.Basic
import Mathlib.Data.List.TakeWhile
import StylePrep.Proofs.Remains
import StylePrep.Proofs.Sample

/-!
# Independence of history

A compilation reads the tree and the cache, and earlier compilations have added sheets to
both. This makes no difference as long as the settings keep the sheets apart from what is
read: a file that compiles in the original tree compiles to the same after any sequence of
compilations (`Preprocess.file_after`).

The two runs are compared step by step. The second has all sheets that the first has, and
maybe more (`Beside`). What the first run reads is there for the second as well, and a sheet
that the first has to pack is the one the second finds in its cache. In the other direction
there is one difference: a generated sheet that a call names as an image is missing in
the original tree. So a run that fails is followed only if it does not fail on a sprite
(`Step.Follows`).

That the second run may import more deeply than the first, because it counts more files, is
of no use to it. The files being read are files of the original tree and all different, and
there are no more of them than that tree has files (`Tree.Distinct.length_le`).
-/

namespace StylePrep

open Text Step

def Error.isSprite (e : Error) : Bool :=
  match e.cause with
  | .sprite _ => true
  | _ => false

theorem Error.isSprite_locate (e : Error) (place : Text) :
    (e.locate place).isSprite = e.isSprite := by
  unfold Error.locate
  split <;> rfl

/-! ### One run following another -/

/-- A step is followed by another from related states. It advances along `L`, and if it ends
within `B`, the other returns the same or, unless it failed on a sprite, fails as well. -/
structure Step.Follows {σ α : Type} (L : σ → σ → Prop) (B : σ → Prop) (R : σ → σ → Prop)
    (x y : Step σ α) : Prop where
  advances : Advances L x
  returns : ∀ s t a s', R s t → Returns x s a s' → B s' → ∃ t', Returns y t a t' ∧ R s' t'
  fails : ∀ s t e s', R s t → exec x s = (.error e, s') → B s' →
    e.isSprite = true ∨ ∀ b t', ¬ Returns y t b t'

namespace Step.Follows

variable {σ α β : Type} {L : σ → σ → Prop} {B : σ → Prop} {R : σ → σ → Prop}

/-- A step that fails at most on sprites needs no more than that it is followed if it
returns. -/
theorem of_returns {x y : Step σ α} (advances : Advances L x)
    (sprite : ∀ s e s', exec x s = (.error e, s') → e.isSprite = true)
    (returns : ∀ s t a s', R s t → Returns x s a s' → B s' → ∃ t', Returns y t a t' ∧ R s' t') :
    Follows L B R x y :=
  ⟨advances, returns, fun s _ e s' _ hx _ => .inl (sprite s e s' hx)⟩

theorem bind (trans : ∀ s s' s'', L s s' → L s' s'' → L s s'')
    (within : ∀ s s', L s s' → B s' → B s) {x y : Step σ α} {f g : α → Step σ β}
    (hx : Follows L B R x y) (hf : ∀ a, Follows L B R (f a) (g a)) :
    Follows L B R (x >>= f) (y >>= g) where
  advances := .bind trans hx.advances fun a => (hf a).advances
  returns s t b s' hR hreturns hB := by
    obtain ⟨a, s₁, hfirst, hrest⟩ := returns_bind.1 hreturns
    have hlast : L s₁ s' := by simpa only [show exec (f a) s₁ = _ from hrest] using (hf a).advances s₁
    obtain ⟨t₁, hfirst', hR₁⟩ := hx.returns s t a s₁ hR hfirst (within _ _ hlast hB)
    obtain ⟨t', hrest', hR'⟩ := (hf a).returns s₁ t₁ b s' hR₁ hrest hB
    exact ⟨t', returns_bind.2 ⟨a, t₁, hfirst', hrest'⟩, hR'⟩
  fails s t e s' hR hfails hB := by
    rw [exec_bind] at hfails
    match hfirst : exec x s with
    | (.error e₁, s₁) =>
      rw [hfirst] at hfails
      cases hfails
      refine (hx.fails s t e s' hR hfirst hB).imp_right fun hy b t' hreturns => ?_
      obtain ⟨a, t₁, hfirst', -⟩ := returns_bind.1 hreturns
      exact hy a t₁ hfirst'
    | (.ok a, s₁) =>
      rw [hfirst] at hfails
      have hlast : L s₁ s' := by simpa only [hfails] using (hf a).advances s₁
      obtain ⟨t₁, hfirst', hR₁⟩ := hx.returns s t a s₁ hR hfirst (within _ _ hlast hB)
      refine ((hf a).fails s₁ t₁ e s' hR₁ hfails hB).imp_right fun hg b t' hreturns => ?_
      obtain ⟨a', t₁', hfirst'', hrest⟩ := returns_bind.1 hreturns
      obtain ⟨rfl, rfl⟩ := hfirst'.det hfirst''
      exact hg b t' hrest

theorem congruence (refl : ∀ s, L s s) (trans : ∀ s s' s'', L s s' → L s' s'' → L s s'')
    (within : ∀ s s', L s s' → B s' → B s) : Congruence (Follows L B R) where
  pure a := ⟨refl, fun s t b s' hR hreturns _ => by
    obtain ⟨rfl, rfl⟩ := returns_pure.1 hreturns
    exact ⟨t, rfl, hR⟩, fun s t e s' _ hfails => by cases hfails⟩
  throw e e' := ⟨refl, fun s t b s' _ hreturns => absurd hreturns not_returns_throw,
    fun s t e s' _ _ _ => .inr fun b t' => not_returns_throw⟩
  bind := bind trans within

end Step.Follows

/-! ### Expansions -/

theorem SheetCache.mem_of_get? {cache : SheetCache} {key : Text} {sheet : Sheet}
    (h : cache.get? key = some sheet) : (key, sheet) ∈ cache.sheets := by
  obtain ⟨l₁, l₂, hsheets, -⟩ := List.lookup_eq_some_iff.1 h
  simp [hsheets]

theorem SheetCache.exists_get? {cache : SheetCache} {key : Text} {sheet : Sheet}
    (h : (key, sheet) ∈ cache.sheets) : ∃ sheet', cache.get? key = some sheet' := by
  cases hget : cache.get? key with
  | some sheet' => exact ⟨sheet', rfl⟩
  | none => simpa using List.lookup_eq_none_iff.1 hget (key, sheet) h

/-- Two workspaces that have the same files and, of the sheets in question, the second has
those of the first. -/
structure Beside (dir : Path) (gen : Address) (tree : Tree) (sheets : List (Text × Sheet))
    (w v : Workspace) : Prop where
  left : Kept dir gen tree w
  right : Kept dir gen tree v
  subset : w.cache.sheets ⊆ v.cache.sheets
  among : v.cache.sheets ⊆ sheets

theorem Beside.within {dir : Path} {gen : Address} {tree : Tree} {sheets : List (Text × Sheet)}
    {w v : Workspace} (h : Beside dir gen tree sheets w v) : Tree.Within gen w.tree v.tree :=
  h.left.within h.right h.subset

/-- The sheet of a key that is in the cache of the second workspace, given one that is or
comes to be in that of the first. -/
theorem Beside.get?_eq {dir : Path} {gen : Address} {tree : Tree} {sheets : List (Text × Sheet)}
    {w v : Workspace} (h : Beside dir gen tree sheets w v) (hsheets : Unambiguous sheets)
    {key : Text} {sheet sheet' : Sheet} (hsheet : (key, sheet) ∈ sheets)
    (hget : v.cache.get? key = some sheet') : sheet' = sheet :=
  hsheets (key, sheet') (h.among (SheetCache.mem_of_get? hget)) (key, sheet) hsheet (.inl rfl)

/-- What is read from a tree, and is there for the second run if it is for the first. -/
theorem follows_reading {dir : Path} {gen : Address} {tree : Tree} {sheets : List (Text × Sheet)}
    {α : Type} {x : Task α} {read : Tree → Except Error α}
    (hx : ∀ w, exec x w = (read w.tree, w))
    (sprite : ∀ t e, read t = .error e → e.isSprite = true)
    (mono : ∀ t t', Tree.Within gen t t' → ∀ a, read t = .ok a → read t' = .ok a) :
    Follows (Later dir gen tree sheets) (·.cache.sheets ⊆ sheets) (Beside dir gen tree sheets)
      x x := by
  refine .of_returns (fun w => ?_) (fun w e w' hfails => ?_) fun w v a w' hR hreturns _ => ?_
  · rw [hx]
    exact .refl w
  · rw [hx] at hfails
    exact sprite _ _ (congrArg Prod.fst hfails)
  · obtain ⟨hread, rfl⟩ := Prod.mk.inj ((hx w).symm.trans hreturns)
    exact ⟨v, (hx v).trans (by rw [mono _ _ hR.within a hread]), hR⟩

theorem Expand.isSprite_spriteMap {config : SpriteConfig} {pattern : Text} {spacing : Nat}
    {w w' : Workspace} {e : Error}
    (h : exec (spriteMap config pattern spacing) w = (.error e, w')) : e.isSprite = true := by
  rw [exec_spriteMap] at h
  split at h
  · cases h
    rfl
  · dsimp only at h
    split at h
    · cases h
      rfl
    · revert h
      obtain ⟨_ | sheet, cache, tree⟩ := SheetCache.getOrPack _ _ _ w.tree <;> intro h <;> cases h
      rfl

theorem Tree.Within.size?_mono {gen : Address} {tree tree' : Tree} (h : Within gen tree tree')
    {p : Path} {size : Size} (hsize : Image.size? tree p = some size) :
    Image.size? tree' p = some size := by
  unfold Image.size? at hsize ⊢
  cases hread : tree.read p with
  | error e => simp [hread, Except.toOption] at hsize
  | ok bytes => simpa [hread, h.read_mono hread, Except.toOption] using hsize

namespace Apart

variable {options : Options} {tree : Tree} {image gen : Address} {sheets : List (Text × Sheet)}
variable (h : Apart options tree image gen) (hsheets : Unambiguous sheets)
include h hsheets

/-- A sprite map that is made in one workspace is made in the other. -/
theorem returns_spriteMap {pattern : Text} {spacing : Nat} {w v w' : Workspace} {sheet : Sheet}
    (hR : Beside options.sprites.genDir gen tree sheets w v)
    (hw : Returns (Expand.spriteMap options.sprites pattern spacing) w sheet w')
    (hsub : w'.cache.sheets ⊆ sheets) :
    ∃ v', Returns (Expand.spriteMap options.sprites pattern spacing) v sheet v' ∧
      Beside options.sprites.genDir gen tree sheets w' v' := by
  have hkept {u u' : Workspace} (hu : Kept options.sprites.genDir gen tree u)
      (hreturns : Returns (Expand.spriteMap options.sprites pattern spacing) u sheet u')
      (hsub : u'.cache.sheets ⊆ sheets) : Kept options.sprites.genDir gen tree u' := by
    have hlater := h.later_spriteMap hsheets pattern spacing u
    rw [hreturns] at hlater
    exact hlater.keeps hu hsub
  obtain ⟨key, made, hplan, hcase⟩ := (h.returns_spriteMap_iff hR.left).1 hw
  have hfound (hmem : (key, sheet) ∈ v.cache.sheets) : v.cache.get? key = some sheet := by
    obtain ⟨sheet', hget⟩ := SheetCache.exists_get? hmem
    rw [hget, hR.get?_eq hsheets (hR.among hmem) hget]
  rcases hcase with ⟨hget, rfl⟩ | ⟨-, hmade, rfl⟩
  · have hget' := hfound (hR.subset (SheetCache.mem_of_get? hget))
    exact ⟨v, (h.returns_spriteMap_iff hR.right).2 ⟨key, made, hplan, .inl ⟨hget', rfl⟩⟩, hR⟩
  · have hmem : (key, sheet) ∈ sheets := hsub (List.mem_append_right _ (List.mem_singleton.2 rfl))
    cases hget' : v.cache.get? key with
    | some sheet' =>
      obtain rfl := hR.get?_eq hsheets hmem hget'
      refine ⟨v, (h.returns_spriteMap_iff hR.right).2 ⟨key, made, hplan, .inl ⟨hget', rfl⟩⟩,
        hkept hR.left hw hsub, hR.right, ?_, hR.among⟩
      exact List.append_subset.2 ⟨hR.subset, by simpa using SheetCache.mem_of_get? hget'⟩
    | none =>
      have hreturns := (h.returns_spriteMap_iff hR.right).2
        ⟨key, made, hplan, .inr ⟨hget', hmade, rfl⟩⟩
      have hamong : v.cache.sheets ++ [(key, sheet)] ⊆ sheets :=
        List.append_subset.2 ⟨hR.among, by simpa using hmem⟩
      refine ⟨_, hreturns, hkept hR.left hw hsub, hkept hR.right hreturns hamong, ?_, hamong⟩
      exact List.append_subset.2 ⟨List.Subset.trans hR.subset (List.subset_append_left _ _),
        List.subset_append_right _ _⟩

/-- Everything that an expansion does in one workspace is followed in the other. -/
theorem accesses_follows : Expand.Accesses options.sprites
    (Follows (Later options.sprites.genDir gen tree sheets) (·.cache.sheets ⊆ sheets)
      (Beside options.sprites.genDir gen tree sheets)) where
  toCongruence := Follows.congruence .refl (fun _ _ _ => .trans) fun _ _ hlater =>
    List.Subset.trans hlater.grows
  map pattern spacing := .of_returns (h.later_spriteMap hsheets pattern spacing)
    (fun _ _ _ => Expand.isSprite_spriteMap) fun _ _ _ _ => h.returns_spriteMap hsheets
  size name := by
    refine follows_reading (Expand.exec_sizeOf _ name) (fun t e hread => ?_)
      fun t t' hwithin size hread => ?_ <;> unfold Expand.sizeIn at *
    · split at hread
      · split at hread <;> cases hread
        rfl
      · cases hread
        rfl
    · split at hread
      · rename_i hfile
        split at hread <;> cases hread
        rename_i hsize
        rw [if_pos (hwithin.isFile_mono hfile), hwithin.size?_mono hsize]
      · cases hread
  content name := by
    refine follows_reading (Expand.exec_contentOf _ name) (fun t e hread => ?_)
      fun t t' hwithin bytes hread => ?_ <;> unfold Expand.contentIn at *
    · split at hread <;> cases hread
      rfl
    · split at hread <;> cases hread
      rename_i hbytes
      rw [hwithin.read_mono hbytes]

end Apart

/-! ### Assemblies -/

/-- Two sessions that differ in their workspaces alone, and in which these files are being
read. -/
structure Session.Beside (dir : Path) (gen : Address) (tree : Tree) (sheets : List (Text × Sheet))
    (stack : ImportStack) (s t : Session) : Prop where
  stack_eq : s.stack = stack
  same : t = { s with workspace := t.workspace }
  workspace : StylePrep.Beside dir gen tree sheets s.workspace t.workspace

/-- Reading one more file in both sessions. -/
theorem Session.Beside.enter {dir : Path} {gen : Address} {tree : Tree}
    {sheets : List (Text × Sheet)} {stack : ImportStack} {s t : Session}
    (h : Session.Beside dir gen tree sheets stack s t) (stack' : ImportStack) (file : SourceFile) :
    Session.Beside dir gen tree sheets stack'
      { s with stack := stack', files := s.files ++ [file] }
      { t with stack := stack', files := t.files ++ [file] } :=
  ⟨rfl, by rw [h.same], h.workspace⟩

/-- A step of a compilation is followed by another. -/
abbrev Assembly.IsFollowed {α : Type} (dir : Path) (gen : Address) (tree : Tree)
    (sheets : List (Text × Sheet)) (stack : ImportStack) (x y : Assembly α) : Prop :=
  Step.Follows (Session.Later dir gen tree sheets) (·.workspace.cache.sheets ⊆ sheets)
    (Session.Beside dir gen tree sheets stack) x y

namespace Assembly.IsFollowed

variable {dir : Path} {gen : Address} {tree : Tree} {sheets : List (Text × Sheet)}
variable {stack : ImportStack} {α : Type}

theorem task {x y : Task α} (h : Step.Follows (Later dir gen tree sheets)
      (·.cache.sheets ⊆ sheets) (StylePrep.Beside dir gen tree sheets) x y) :
    Assembly.IsFollowed dir gen tree sheets stack (Assembly.task x) (Assembly.task y) where
  advances s := by
    rw [exec_task]
    exact h.advances s.workspace
  returns s t a s' hR hreturns hsub := by
    obtain ⟨w, hw, rfl⟩ := returns_task.1 hreturns
    obtain ⟨v, hv, hR'⟩ := h.returns _ _ a w hR.workspace hw hsub
    refine ⟨{ t with workspace := v }, returns_task.2 ⟨v, hv, rfl⟩, hR.stack_eq, ?_, hR'⟩
    rw [hR.same]
  fails s t e s' hR hfails hsub := by
    rw [exec_task] at hfails
    obtain ⟨hfirst, rfl⟩ := Prod.mk.inj hfails
    refine (h.fails _ _ e _ hR.workspace (Prod.ext hfirst rfl) hsub).imp_right fun hy b t' ht => ?_
    obtain ⟨v, hv, -⟩ := returns_task.1 ht
    exact hy b v hv

theorem locating {x y : Assembly α} (place : Text)
    (h : Assembly.IsFollowed dir gen tree sheets stack x y) :
    Assembly.IsFollowed dir gen tree sheets stack (Assembly.locating place x)
      (Assembly.locating place y) where
  advances s := by
    have hstep := h.advances s
    rw [exec_locating]
    revert hstep
    obtain ⟨_ | a, s'⟩ := exec x s <;> exact id
  returns s t a s' hR hreturns hsub := by
    obtain ⟨t', hy, hR'⟩ := h.returns s t a s' hR (returns_locating.1 hreturns) hsub
    exact ⟨t', returns_locating.2 hy, hR'⟩
  fails s t e s' hR hfails hsub := by
    rw [exec_locating] at hfails
    split at hfails <;> cases hfails
    rename_i e hx
    rw [Error.isSprite_locate]
    refine (h.fails s t e s' hR hx hsub).imp_right fun hy b t' ht => ?_
    exact hy b t' (returns_locating.1 ht)

/-- Steps that go on with the same in both sessions. -/
theorem reading {β : Type} (read : Session → β) {f g : β → Assembly α}
    (hread : ∀ s w, read { s with workspace := w } = read s)
    (h : ∀ b, Assembly.IsFollowed dir gen tree sheets stack (f b) (g b)) {x y : Assembly α}
    (hx : ∀ s, exec x s = exec (f (read s)) s) (hy : ∀ s, exec y s = exec (g (read s)) s) :
    Assembly.IsFollowed dir gen tree sheets stack x y where
  advances s := by
    rw [hx]
    exact (h (read s)).advances s
  returns s t a s' hR hreturns hsub := by
    have hsame : read t = read s := by rw [hR.same, hread]
    unfold Returns at hreturns ⊢
    rw [hx] at hreturns
    rw [hy, hsame]
    exact (h (read s)).returns s t a s' hR hreturns hsub
  fails s t e s' hR hfails hsub := by
    have hsame : read t = read s := by rw [hR.same, hread]
    unfold Returns
    rw [hx] at hfails
    rw [hy, hsame]
    exact (h (read s)).fails s t e s' hR hfails hsub

end Assembly.IsFollowed

namespace Apart

variable {options : Options} {tree : Tree} {image gen : Address} {sheets : List (Text × Sheet)}
variable (h : Apart options tree image gen) (hsheets : Unambiguous sheets)
include h hsheets

/-- Everything that the assembly of a file does in one session is followed in the other,
apart from imports. -/
theorem builds_follows (stack : ImportStack) : Assembly.Builds options
    (Assembly.IsFollowed options.sprites.genDir gen tree sheets stack) where
  toCongruence := Step.Follows.congruence (fun _ => .refl _) Session.Later.trans
    fun _ _ hlater => List.Subset.trans hlater.grows
  locating place := .locating place
  modifyVars f := by
    refine ⟨fun s => .refl _, fun s t a s' hR hreturns _ => ?_, fun s t e s' _ hfails => ?_⟩
    · obtain rfl := Assembly.returns_modifyVars.1 hreturns
      refine ⟨_, Assembly.returns_modifyVars.2 rfl, hR.stack_eq, ?_, hR.workspace⟩
      rw [hR.same]
    · cases hfails
  source id hf := .reading (fun s => ((s.files[id]?).getD ⟨⟨[]⟩, [], none⟩, s.vars))
    (fun _ _ => rfl) (fun b => hf b.1 b.2) (fun _ => rfl) fun _ => rfl
  sprite function args line indent := by
    have hsprite (s : Session) : exec (Assembly.expandSprite options function args line indent) s =
        exec (Assembly.task (Expand.expand options.sprites s.vars ⟨function.name, args, line⟩
          indent)) s := by
      unfold Assembly.expandSprite
      rw [exec_bind, exec_get]
    have hexpand (vars : VariableTable) :
        Assembly.IsFollowed options.sprites.genDir gen tree sheets stack
          (Assembly.task (Expand.expand options.sprites vars ⟨function.name, args, line⟩ indent))
          (Assembly.task (Expand.expand options.sprites vars ⟨function.name, args, line⟩ indent)) :=
      .task (Expand.expand_congr (h.accesses_follows hsheets) (fun _ => rfl) function.name args
        indent)
    exact .reading Session.vars (fun _ _ => rfl) hexpand hsprite hsprite

end Apart

/-! ### Imports -/

theorem ImportStack.push_eq_ok_iff {stack stack' : ImportStack} {p : Path} :
    stack.push p = .ok stack' ↔
      (∀ q ∈ stack.paths, q.same p = false) ∧ stack' = ⟨stack.paths ++ [p]⟩ := by
  have hnil := List.dropWhile_eq_nil_iff (p := fun q : Path => !q.same p) (l := stack.paths)
  unfold push
  split
  · rename_i hdrop
    have hall : ∀ q ∈ stack.paths, q.same p = false := by simpa using hnil.1 hdrop
    exact ⟨fun h => ⟨hall, (Except.ok.inj h).symm⟩, fun h => h.2 ▸ rfl⟩
  · rename_i hdrop
    constructor
    · intro h
      cases h
    · rintro ⟨hall, -⟩
      exact absurd (hnil.2 (by simpa using hall)) hdrop

/-- Files of a tree that are all different. -/
structure Tree.Distinct (tree : Tree) (files : List Address) : Prop where
  nodup : files.Nodup
  file : ∀ a ∈ files, ∃ content time, tree.node? a = some (.file content time)

theorem Tree.Distinct.add {tree : Tree} {files : List Address} (h : tree.Distinct files) {a : Address}
    (hnew : a ∉ files) (hfile : ∃ content time, tree.node? a = some (.file content time)) :
    tree.Distinct (files ++ [a]) where
  nodup := by
    refine List.nodup_append.2 ⟨h.nodup, by simp, fun b hb c hc => ?_⟩
    obtain rfl := List.mem_singleton.1 hc
    exact fun heq => hnew (heq ▸ hb)
  file b hb := by
    rcases List.mem_append.1 hb with hb | hb
    · exact h.file b hb
    · exact List.mem_singleton.1 hb ▸ hfile

/-- They are no more than the tree has. -/
theorem Tree.Distinct.length_le {tree : Tree} {files : List Address} (h : tree.Distinct files) :
    files.length ≤ tree.fileCount := by
  rw [fileCount, List.countP_eq_length_filter, ← List.length_map (f := Prod.fst)]
  refine h.nodup.length_le_of_subset fun a ha => ?_
  obtain ⟨content, time, hnode⟩ := h.file a ha
  have hne : a ≠ [] := by
    rintro rfl
    exact absurd hnode (by simp [node?])
  exact List.mem_map.2 ⟨_, List.mem_filter.2 ⟨node?_eq_some hnode hne, rfl⟩, rfl⟩

namespace Assembly

/-- The front of an import: its target is found, put on the stack and read. -/
def Opens (options : Options) (loader : Loader) (dir : Path) (target : Text) (s : Session)
    (stack : ImportStack) (path : Path) (text : Text) : Prop :=
  ∃ p, Import.resolve s.workspace.tree target dir options.includePaths = .ok p ∧
    s.stack.push p = .ok stack ∧ loader.load s.workspace.tree p = .ok (path, text)

variable {options : Options} {loader : Loader} {nested : Importer} {file : FileId} {dir : Path}
variable {target : Text} {s s' : Session}

theorem exec_importTarget_of_opens {stack : ImportStack} {path : Path} {text : Text}
    (h : Opens options loader dir target s stack path text) :
    exec (importTarget options loader nested file dir target) s =
      match exec (nested s.files.length path.directory)
        { s with stack, files := s.files ++ [⟨path, text, some file⟩] } with
      | (.ok map, s') => (.ok map, { s' with stack := s'.stack.pop })
      | (.error e, s') => (.error e, s') := by
  obtain ⟨p, hresolve, hpush, hload⟩ := h
  have hexec := exec_importTarget options loader nested file dir target s
  simp only [hresolve, hpush, hload] at hexec
  exact hexec

theorem opens_of_returns {map : LineMap}
    (h : Returns (importTarget options loader nested file dir target) s map s') :
    ∃ stack path text, Opens options loader dir target s stack path text := by
  rw [Returns, exec_importTarget] at h
  split at h
  · cases h
  · rename_i p hresolve
    split at h
    · cases h
    · rename_i stack hpush
      split at h
      · cases h
      · rename_i path text hload
        exact ⟨stack, path, text, p, hresolve, hpush, hload⟩

end Assembly

/-- The files being read, and the root that imports the first of them. -/
def ImportStack.below (root : Path) (files : List Address) : ImportStack :=
  ⟨root :: files.map Tree.pathOf⟩

theorem ImportStack.pop_below (root : Path) (files : List Address) (a : Address) :
    (below root (files ++ [a])).pop = below root files := by
  rw [below, pop, List.map_append, ← List.cons_append, List.map_singleton, List.dropLast_concat,
    below]

namespace Apart

variable {options : Options} {tree : Tree} {image gen : Address} {sheets : List (Text × Sheet)}
variable {w : Workspace} {loader : Loader} {dir : Path} {target : Text} {root : Path}
variable {files : List Address}
variable (h : Apart options tree image gen)
include h

theorem rooted_of_kept (hw : Kept options.sprites.genDir gen tree w) : w.tree.Rooted := by
  have hmono := (h.within hw).node?_mono
  intro a node hnode
  by_cases hat : Sheet.At gen a
  · exact hat.1 ▸ hmono _ _ h.dir_gen
  · by_cases ha : a = []
    · subst ha
      rfl
    · rw [← (h.within hw).node?_eq hat] at hnode
      exact hmono _ _ (h.rooted _ (Tree.node?_eq_some hnode ha))

theorem orderly_bare (hw : Kept options.sprites.genDir gen tree w) : (w.tree.bare gen).Orderly :=
  hw.bare.symm ▸ h.orderly

/-- The front of an import is the same in both sessions. -/
theorem opens_iff {stack stack' : ImportStack} {s t : Session} {path : Path} {text : Text}
    (hR : Session.Beside options.sprites.genDir gen tree sheets stack s t) :
    Assembly.Opens options loader dir target s stack' path text ↔
      Assembly.Opens options loader dir target t stack' path text := by
  have hwithin := hR.workspace.within
  have ho := h.orderly_bare hR.workspace.left
  have hrooted := h.rooted_of_kept hR.workspace.left
  have hstack : t.stack = s.stack := by rw [hR.same]
  unfold Assembly.Opens
  rw [hstack]
  rcases hwithin.resolve ho hrooted target dir options.includePaths with hresolve | hneither
  · simp only [hresolve, hwithin.load_iff ho hrooted loader]
  · constructor
    · rintro ⟨p, hp, -, hload⟩
      exact absurd hload ((hneither loader _).1 p hp)
    · rintro ⟨p, hp, -, hload⟩
      exact absurd hload ((hneither loader _).2 p hp)

/-- A file that is imported is one of the original tree, and it is not being read. -/
theorem stack_eq_of_opens {stack : ImportStack} {s : Session} {path : Path} {text : Text}
    (hw : Kept options.sprites.genDir gen tree s.workspace)
    (hstack : s.stack = .below root files)
    (hopens : Assembly.Opens options loader dir target s stack path text) :
    ∃ a, a ∉ files ∧ (∃ content time, tree.node? a = some (.file content time)) ∧
      stack = .below root (files ++ [a]) := by
  obtain ⟨p, hresolve, hpush, hload⟩ := hopens
  obtain ⟨q, a, -, hfile, hlookup, rfl⟩ := Tree.resolve_eq_ok hresolve
  obtain ⟨hnew, rfl⟩ := ImportStack.push_eq_ok_iff.1 hpush
  obtain ⟨content, time, hnodeAt⟩ := Tree.isFile_iff.1 hfile
  obtain ⟨a', hlookup', hnode⟩ := Tree.nodeAt_eq_ok_iff.1 hnodeAt
  obtain rfl := Except.ok.inj (hlookup.symm.trans hlookup')
  refine ⟨a, fun ha => ?_, ⟨content, time, ?_⟩, ?_⟩
  · have hsame := hnew (Tree.pathOf a)
      (by rw [hstack]; exact List.mem_cons_of_mem _ (List.mem_map_of_mem ha))
    simp [Path.same] at hsame
  · have hat : ¬ Sheet.At gen a := by
      intro hat
      obtain ⟨name, hname, rfl⟩ := Sheet.at_iff.1 hat
      exact Tree.load_ne_ok_of_ending (h.orderly_bare hw) (h.within hw).picture
        (hname.2.trans (Tree.suffix_pathOf gen name)) loader _ hload
    rw [(h.within hw).node?_eq hat, hnode]
  · rw [hstack]
    simp [ImportStack.below]

/-- An import in one session is followed in the other if the assembly of the imported file
is. -/
theorem importTarget_follows {nested nested' : Assembly.Importer}
    (hadvances : ∀ file dir,
      Advances (Session.Later options.sprites.genDir gen tree sheets) (nested file dir))
    (hnested : ∀ a, a ∉ files → (∃ content time, tree.node? a = some (.file content time)) →
      ∀ file dir, Assembly.IsFollowed options.sprites.genDir gen tree sheets
        (.below root (files ++ [a])) (nested file dir) (nested' file dir))
    (file : FileId) (dir : Path) (target : Text) :
    Assembly.IsFollowed options.sprites.genDir gen tree sheets (.below root files)
      (Assembly.importTarget options loader nested file dir target)
      (Assembly.importTarget options loader nested' file dir target) where
  advances := Assembly.advances_importTarget .refl hadvances file dir target
  returns s t map s' hR hreturns hsub := by
    obtain ⟨v, rfl⟩ : ∃ v, t = { s with workspace := v } := ⟨_, hR.same⟩
    obtain ⟨stack, path, text, hopens⟩ := Assembly.opens_of_returns hreturns
    have hopens' := (h.opens_iff hR).1 hopens
    obtain ⟨a, hnew, hfile, rfl⟩ := h.stack_eq_of_opens hR.workspace.left hR.stack_eq hopens
    unfold Returns at hreturns ⊢
    rw [Assembly.exec_importTarget_of_opens hopens] at hreturns
    rw [Assembly.exec_importTarget_of_opens hopens']
    split at hreturns <;> cases hreturns
    rename_i s₁ hs₁
    obtain ⟨t₁, ht₁, hR₁⟩ := (hnested a hnew hfile s.files.length path.directory).returns _ _ map s₁
      (hR.enter _ _) hs₁ hsub
    obtain ⟨v₁, rfl⟩ : ∃ v₁, t₁ = { s₁ with workspace := v₁ } := ⟨_, hR₁.same⟩
    refine ⟨{ s₁ with workspace := v₁, stack := s₁.stack.pop }, ?_, ?_, rfl, hR₁.workspace⟩
    · rw [show exec (nested' s.files.length path.directory) _ = _ from ht₁]
    · rw [hR₁.stack_eq, ImportStack.pop_below]
  fails s t e s' hR hfails hsub := by
    obtain ⟨v, rfl⟩ : ∃ v, t = { s with workspace := v } := ⟨_, hR.same⟩
    refine Classical.or_iff_not_imp_right.2 fun hnot => ?_
    obtain ⟨map, t', hreturns⟩ : ∃ map t', Returns
        (Assembly.importTarget options loader nested' file dir target)
        { s with workspace := v } map t' := by simpa using hnot
    obtain ⟨stack, path, text, hopens'⟩ := Assembly.opens_of_returns hreturns
    have hopens := (h.opens_iff hR).2 hopens'
    obtain ⟨a, hnew, hfile, rfl⟩ := h.stack_eq_of_opens hR.workspace.left hR.stack_eq hopens
    rw [Assembly.exec_importTarget_of_opens hopens] at hfails
    rw [Returns, Assembly.exec_importTarget_of_opens hopens'] at hreturns
    split at hfails <;> cases hfails
    rename_i hs'
    split at hreturns <;> cases hreturns
    rename_i t₁ ht₁
    exact ((hnested a hnew hfile s.files.length path.directory).fails _ _ e s'
      (hR.enter _ _) hs' hsub).resolve_right fun hno => hno map t₁ ht₁

/-- The assembly of a file in one session is followed in the other, whose imports may be
nested as deeply or more so. `files` are being read, and there can be no more than `depth`
imports on top of them. -/
theorem assemble_follows (hsheets : Unambiguous sheets) {depth depth' : Nat}
    (hdepth : depth ≤ depth') (hfiles : tree.Distinct files)
    (hcount : files.length + depth = tree.fileCount) (file : FileId) (dir : Path) :
    Assembly.IsFollowed options.sprites.genDir gen tree sheets (.below root files)
      (Assembly.assemble options loader depth file dir)
      (Assembly.assemble options loader depth' file dir) := by
  induction depth generalizing depth' files file dir with
  | zero =>
    -- one more file would be more than the tree has
    have hnone {a : Address} (hnew : a ∉ files)
        (hfile : ∃ content time, tree.node? a = some (.file content time)) : False := by
      have hle := (hfiles.add hnew hfile).length_le
      rw [List.length_append, List.length_singleton] at hle
      omega
    have himport (nested : Assembly.Importer) :
        Assembly.IsFollowed options.sprites.genDir gen tree sheets (.below root files)
          (Assembly.assemble options loader 0 file dir)
          (Assembly.assembleFile options loader nested file dir) :=
      Assembly.assembleFile_congr (h.builds_follows hsheets _)
        (h.importTarget_follows (fun _ _ => .still fun _ => rfl)
          (fun a hnew hfile => (hnone hnew hfile).elim) file dir)
    cases depth' with
    | zero => exact himport _
    | succ depth' => exact himport _
  | succ depth ih =>
    obtain _ | depth' := depth'
    · omega
    refine Assembly.assembleFile_congr (h.builds_follows hsheets _)
      (h.importTarget_follows (fun file dir => h.later_assemble hsheets loader depth file dir)
        (fun a hnew hfile file dir => ?_) file dir)
    refine ih (by omega) (hfiles.add hnew hfile) ?_ file dir
    rw [List.length_append, List.length_singleton]
    omega

end Apart

/-! ### Compilations -/

theorem Tree.Within.canonical_eq_ok_iff {gen : Address} {tree tree' : Tree}
    (h : Within gen tree tree') (ho : (tree.bare gen).Orderly) {p q : Path}
    (hp : ¬ Sheet.ending <:+ p.text) : tree.canonical p = .ok q ↔ tree'.canonical p = .ok q := by
  have hlookup (a : Address) : tree.lookup p = .ok a ↔ tree'.lookup p = .ok a := by
    refine ⟨h.lookup_mono, fun ha => ?_⟩
    rcases h.lookup_reflect ho ha with ha | ⟨name, hname, -, hlast⟩
    · exact ha
    · exact absurd (hname.2.trans (suffix_of_getLast?_splitOn hlast)) hp
  have hcanonical (t : Tree) : t.canonical p = .ok q ↔ ∃ a, t.lookup p = .ok a ∧ pathOf a = q := by
    unfold canonical
    cases t.lookup p <;> simp [Except.map]
  rw [hcanonical, hcanonical]
  exact exists_congr fun a => and_congr_left' (hlookup a)

/-- The same directories are permitted in both trees if none has the name of a sheet. -/
theorem Tree.Within.ofDirs_eq {gen : Address} {tree tree' : Tree} (h : Within gen tree tree')
    (ho : (tree.bare gen).Orderly) {dirs : List Path}
    (hdirs : ∀ dir ∈ dirs, ¬ Sheet.ending <:+ dir.text) :
    Loader.ofDirs tree dirs = Loader.ofDirs tree' dirs := by
  unfold Loader.ofDirs
  refine congrArg Loader.mk (List.foldl_ext _ _ _ fun permitted dir hdir => ?_)
  have hiff (q : Path) := h.canonical_eq_ok_iff ho (q := q) (hdirs dir hdir)
  cases hcanonical : tree.canonical dir with
  | ok q => simp only [(hiff q).1 hcanonical]
  | error e =>
    cases hcanonical' : tree'.canonical dir with
    | ok q => exact absurd (hcanonical.symm.trans ((hiff q).2 hcanonical')) (by simp)
    | error e' => rfl

theorem Kept.fileCount_le {dir : Path} {gen : Address} {tree : Tree} {w : Workspace}
    (h : Kept dir gen tree w) : tree.fileCount ≤ w.tree.fileCount := by
  conv => lhs; rw [← h.bare]
  exact List.filter_sublist.countP_le

namespace Apart

variable {options : Options} {tree : Tree} {image gen : Address} {sheets : List (Text × Sheet)}
variable (h : Apart options tree image gen) (hsheets : Unambiguous sheets)
include h hsheets

/-- A compilation of a file gives the same in a workspace that has more sheets than the
original tree, and it fails there if it fails in the original tree other than on a sprite. -/
theorem file_eq {root : Path} (hroot : ¬ Sheet.ending <:+ (tree.absolute root).directory.text)
    {w v : Workspace} (hw : w.tree = tree) (hR : Beside options.sprites.genDir gen tree sheets w v)
    (hsub : (exec (Preprocess.file options root) w).2.cache.sheets ⊆ sheets)
    (hsprite : ∀ e, (exec (Preprocess.file options root) w).1 = .error e → e.isSprite = false) :
    (exec (Preprocess.file options root) v).1.toOption =
      (exec (Preprocess.file options root) w).1.toOption := by
  have hwithin := hR.within
  have ho := h.orderly_bare hR.left
  have hrooted := h.rooted_of_kept hR.left
  have habsolute : v.tree.absolute root = w.tree.absolute root := by
    unfold Tree.absolute Tree.workingPath
    rw [hwithin.workingDir_eq]
  have hloader : Preprocess.loaderFor options v.tree (w.tree.absolute root).directory =
      Preprocess.loaderFor options w.tree (w.tree.absolute root).directory := by
    refine (hwithin.ofDirs_eq ho fun dir hdir => ?_).symm
    rcases List.mem_append.1 hdir with hdir | hdir
    · exact h.included dir hdir
    · rw [hw] at hdir
      exact List.mem_singleton.1 hdir ▸ hroot
  rw [Preprocess.exec_file] at hsub hsprite ⊢
  rw [Preprocess.exec_file, habsolute]
  dsimp only at hsub hsprite ⊢
  rw [hloader]
  generalize Preprocess.loaderFor options w.tree (w.tree.absolute root).directory = loader at *
  have hload (r : Path × Text) :
      loader.load w.tree (w.tree.absolute root) = .ok r ↔
        loader.load v.tree (w.tree.absolute root) = .ok r := hwithin.load_iff ho hrooted loader
  cases hfresh : loader.load w.tree (w.tree.absolute root) with
  | error e =>
    cases hlater : loader.load v.tree (w.tree.absolute root) with
    | error e' => rfl
    | ok r => exact absurd (hfresh.symm.trans ((hload r).2 hlater)) (by simp)
  | ok r =>
    obtain ⟨path, text⟩ := r
    simp only [hfresh] at hsub hsprite
    simp only [(hload _).1 hfresh]
    have hfollows : Assembly.IsFollowed options.sprites.genDir gen tree sheets (.below path [])
        (Assembly.assemble options loader tree.fileCount 0 path.directory)
        (Assembly.assemble options loader v.tree.fileCount 0 path.directory) :=
      h.assemble_follows hsheets hR.right.fileCount_le ⟨List.nodup_nil, by simp⟩ (by simp) 0 _
    have hstart : Session.Beside options.sprites.genDir gen tree sheets (.below path [])
        (Assembly.start w path text) (Assembly.start v path text) := ⟨rfl, rfl, hR⟩
    rw [hw] at hsub hsprite ⊢
    match hexec : exec (Assembly.assemble options loader tree.fileCount 0 path.directory)
        (Assembly.start w path text) with
    | (.ok map, s) =>
      rw [hexec] at hsub
      obtain ⟨t, ht, hR'⟩ := hfollows.returns _ _ map s hstart hexec hsub
      rw [show exec _ (Assembly.start v path text) = _ from ht, hR'.same]
    | (.error e, s) =>
      rw [hexec] at hsub hsprite
      have hfails := (hfollows.fails _ _ e s hstart hexec hsub).resolve_left
        (by simp [hsprite e rfl])
      match hlater : exec (Assembly.assemble options loader v.tree.fileCount 0 path.directory)
          (Assembly.start v path text) with
      | (.ok map, t) => exact absurd hlater (hfails map t)
      | (.error e', t) => rfl

end Apart

/-- A compilation does not depend on the compilations before it. -/
theorem Preprocess.file_after {options : Options} {tree : Tree} {image gen : Address}
    (h : Apart options tree image gen) (history : List Path) (root : Path)
    (hroot : ¬ Sheet.ending <:+ (tree.absolute root).directory.text)
    (hsheets : Unambiguous
      ((exec (Preprocess.file options root) (.ofTree tree)).2.cache.sheets ++
        (Preprocess.after options history (.ofTree tree)).cache.sheets))
    (hsprite : ∀ e, (exec (Preprocess.file options root) (.ofTree tree)).1 = .error e →
      e.isSprite = false) :
    (exec (Preprocess.file options root) (Preprocess.after options history (.ofTree tree))).1.toOption =
      (exec (Preprocess.file options root) (.ofTree tree)).1.toOption := by
  have hlater := h.later_after hsheets history (.ofTree tree)
  refine h.file_eq hsheets hroot rfl ⟨h.kept_ofTree, ?_, hlater.grows, ?_⟩ ?_ hsprite
  · exact hlater.keeps h.kept_ofTree (List.subset_append_right _ _)
  · exact List.subset_append_right _ _
  · exact List.subset_append_left _ _

/-- A tree with an image of one pixel, a directory for sheets, and a style sheet that makes a
sprite map. -/
def Sample.gallery : Tree :=
  ⟨[(["images".toList], .dir),
    (["images".toList, "a.png".toList],
      .file (Png.encode ⟨⟨1, 1⟩, fun _ _ => ⟨255, 0, 0, 255⟩⟩) 0),
    (["sheets".toList], .dir),
    (["r.scss".toList], .file (utf8 "$m: sprite-map(\"*.png\");\n".toList) 0)], [], 0⟩

theorem Sample.apart_gallery : Apart options gallery ["images".toList] ["sheets".toList] where
  imageDir := by decide +kernel
  dir_image := by decide
  genDir := by decide +kernel
  dir_gen := by decide
  vacant := by decide +kernel
  separate := ⟨by decide, by decide, by decide⟩
  orderly := ⟨by decide +kernel, by decide⟩
  rooted := by decide
  included := by decide

/-- The sheet is packed in the first compilation and found in the second. -/
theorem Preprocess.file_after_gallery :
    (exec (Preprocess.file Sample.options ⟨"/r.scss".toList⟩)
      (Preprocess.after Sample.options [⟨"/r.scss".toList⟩] (.ofTree Sample.gallery))).1.toOption.map
        Compilation.output = some "$m: \"sheets/sprite-34eb94.png\";\n".toList := by
  have hfresh : (exec (Preprocess.file Sample.options ⟨"/r.scss".toList⟩)
      (.ofTree Sample.gallery)).1.toOption.map Compilation.output =
        some "$m: \"sheets/sprite-34eb94.png\";\n".toList := by
    decide +kernel
  have hsprite (e : Error) (he : (exec (Preprocess.file Sample.options ⟨"/r.scss".toList⟩)
      (.ofTree Sample.gallery)).1 = .error e) : e.isSprite = false := by
    rw [he] at hfresh
    cases hfresh
  rw [Preprocess.file_after Sample.apart_gallery [⟨"/r.scss".toList⟩] ⟨"/r.scss".toList⟩ (by decide)
    (by decide +kernel) hsprite]
  exact hfresh

def Sample.merged : Options :=
  { options with sprites := ⟨⟨"/images".toList⟩, ⟨"/images".toList⟩, ⟨"/".toList⟩, 0⟩ }

def Sample.dot : Bytes := Png.encode ⟨⟨1, 1⟩, fun _ _ => ⟨255, 0, 0, 255⟩⟩

/-- A tree with an image of one pixel, a style sheet that makes a sprite map, and one that asks
for the width of the sheet of that map. -/
def Sample.collage : Tree :=
  ⟨[(["images".toList], .dir),
    (["images".toList, "a.png".toList], .file dot 0),
    (["r.scss".toList], .file (utf8 "$m: sprite-map(\"*.png\");\n".toList) 0),
    (["s.scss".toList],
      .file (utf8 "a \x7b b: image-width(\"sprite-ac3cb5.png\"); \x7d\n".toList) 0)], [], 0⟩

/-- The tree `collage` with the sheet among its images. -/
def Sample.pasted : Workspace :=
  ⟨collage.set ["images".toList, "sprite-ac3cb5.png".toList] (.file dot 0),
    ⟨[("ac3cb5b3259f2b35fb74c812e652ac1e53b050f8bfa3fdb8dbadc5acfb109bee".toList,
      ⟨⟨"/images/sprite-ac3cb5.png".toList⟩, ⟨1, 1⟩,
        [⟨⟨"a".toList, ⟨"/images/a.png".toList⟩⟩, ⟨0, 0⟩, ⟨1, 1⟩⟩]⟩)]⟩⟩

/-- Where sheets are written among the images, a style sheet that names one as an image fails in
the original tree and compiles after the compilation that makes it. -/
theorem Preprocess.file_after_merged :
    (exec (Preprocess.file Sample.merged ⟨"/s.scss".toList⟩) (.ofTree Sample.collage)).1.toOption.map
        Compilation.output = none ∧
      (exec (Preprocess.file Sample.merged ⟨"/s.scss".toList⟩)
        (Preprocess.after Sample.merged [⟨"/r.scss".toList⟩] (.ofTree Sample.collage))).1.toOption.map
          Compilation.output = some "a \x7b b: 1px; \x7d\n".toList := by
  have hafter : Preprocess.after Sample.merged [⟨"/r.scss".toList⟩] (.ofTree Sample.collage) =
      Sample.pasted := by
    decide +kernel
  rw [hafter]
  constructor <;> decide +kernel

end StylePrep
