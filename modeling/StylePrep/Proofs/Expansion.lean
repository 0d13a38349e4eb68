import StylePrep.Proofs.Congruence

/-!
# What an expansion depends on

The expansion of a sprite or image function reads the variables only by looking up
names, and uses its line only in complaints. So it does not change when the table
is replaced by one with the same look-ups and the line by another one, except for
the wording of its errors.

Only `sprite-map` changes the workspace, and it needs an image to do so. In a tree
without files it fails, so such a tree stays as it is whatever is expanded there.
Both facts are instances of one statement, in which the property of workspaces that
is to be kept is left open.
-/

namespace StylePrep

variable {σ α β : Type}

namespace Step

/-- Two steps do the same from every state with a property, but for the errors they
raise, and keep the property. -/
def Alike (I : σ → Prop) (x y : Step σ α) : Prop :=
  ∀ s, I s → Agree (fun a s' b t' => b = a ∧ t' = s' ∧ I s') x y s s

namespace Alike

variable {I : σ → Prop}

theorem pure (a : α) : Alike I (Pure.pure a) (Pure.pure a) := fun _ hs => ⟨rfl, rfl, hs⟩

theorem throw (e e' : Error) : Alike I (MonadExcept.throw e : Step σ α) (MonadExcept.throw e') :=
  fun _ _ => trivial

theorem bind {x y : Step σ α} {f g : α → Step σ β} (first : Alike I x y)
    (rest : ∀ a, Alike I (f a) (g a)) : Alike I (x >>= f) (y >>= g) := by
  intro s hs
  refine .bind (first s hs) ?_
  rintro _ _ a s' ⟨rfl, rfl, hs'⟩
  exact rest a s' hs'

theorem refl (x : Step σ α) : Alike (fun _ => True) x x := by
  intro s _
  unfold Agree
  obtain ⟨_ | a, s'⟩ := exec x s
  · trivial
  · exact ⟨rfl, rfl, trivial⟩

theorem get : Alike I (MonadState.get : Step σ σ) MonadState.get := fun _ hs => ⟨rfl, rfl, hs⟩

end Alike

end Step

namespace Expand

open Step

variable {I : Workspace → Prop} {config : SpriteConfig} {line line' : Nat}

theorem tree_alike : Alike I Task.tree Task.tree := .bind .get fun _ => .pure _

/-- Looking at an image changes nothing, so packing is all that matters. -/
theorem accesses_alike (hmap : ∀ pattern spacing,
    Alike I (spriteMap config pattern spacing) (spriteMap config pattern spacing)) :
    Accesses config (Alike I) where
  pure := .pure
  throw _ _ := .throw _ _
  bind := .bind
  map := hmap
  size name := by
    refine .bind tree_alike fun tree => ?_
    split
    · cases Image.size? tree _ with
      | none => exact .throw _ _
      | some size => exact .pure _
    · exact .throw _ _
  content name := by
    refine .bind tree_alike fun tree => ?_
    cases tree.read _ with
    | error e => exact .throw _ _
    | ok bytes => exact .pure _

/-- An expansion depends on the look-ups of the table, and on its line only for its
errors. -/
theorem expand_alike (hmap : ∀ pattern spacing,
      Alike I (spriteMap config pattern spacing) (spriteMap config pattern spacing))
    {vars vars' : VariableTable} (hvars : ∀ name, vars'.get? name = vars.get? name)
    (name : Text) (args : List Text) (indent : Text) :
    Alike I (expand config vars ⟨name, args, line⟩ indent)
      (expand config vars' ⟨name, args, line'⟩ indent) :=
  expand_congr (accesses_alike hmap) hvars name args indent

end Expand

/-! ### Trees without files -/

namespace Tree

variable {tree : Tree} (h : tree.fileCount = 0)
include h

theorem not_file_of_mem {a : Address} {node : Node} (hmem : (a, node) ∈ tree.entries) :
    ∀ content time, node ≠ .file content time := by
  rintro content time rfl
  exact absurd (List.countP_eq_zero.1 h _ hmem) (by simp)

theorem node?_not_file (a : Address) (content : Bytes) (time : Nat) :
    tree.node? a ≠ some (.file content time) := by
  unfold node?
  split
  · simp
  · intro hlookup
    obtain ⟨l₁, l₂, hentries, -⟩ := List.lookup_eq_some_iff.1 hlookup
    exact not_file_of_mem h (a := a) (by rw [hentries]; simp) content time rfl

theorem filesBelow_eq_nil (fuel : Nat) (walked : List Address) (path : Path) (here : Address) :
    tree.filesBelow fuel walked path here = [] := by
  induction fuel generalizing walked path here with
  | zero => rfl
  | succ fuel ih =>
    rw [filesBelow, List.flatMap_eq_nil_iff]
    rintro ⟨name, node⟩ hchild
    have hmem : ∃ a, (a, node) ∈ tree.entries := by
      rw [children, List.mem_mergeSort] at hchild
      obtain ⟨⟨a, node'⟩, ha, heq⟩ := List.mem_filterMap.1 hchild
      dsimp only at heq
      split at heq
      · cases heq
        exact ⟨a, ha⟩
      · cases heq
    obtain ⟨a, hmem⟩ := hmem
    cases node with
    | file content time => exact absurd rfl (not_file_of_mem h hmem content time)
    | dir => exact ih _ _ _
    | link target =>
      dsimp only
      cases tree.lookup (path.join ⟨name⟩) with
      | error e => rfl
      | ok a =>
        dsimp only
        cases hnode : tree.node? a with
        | none => rfl
        | some node =>
          cases node with
          | file content time => exact absurd hnode (node?_not_file h a content time)
          | dir =>
            dsimp only
            split
            · rfl
            · exact ih _ _ _
          | link target => rfl

theorem walk_eq_nil (root : Path) : tree.walk root = [] := by
  unfold walk
  cases tree.lookup root with
  | error e => rfl
  | ok a =>
    dsimp only
    cases hnode : tree.node? a with
    | none => rfl
    | some node =>
      cases node with
      | file content time => exact absurd hnode (node?_not_file h a content time)
      | dir => exact filesBelow_eq_nil h _ _ _ _
      | link target => rfl

theorem isFile_eq_false (p : Path) : tree.isFile p = false := by
  unfold isFile nodeAt
  cases tree.lookup p with
  | error e => rfl
  | ok a =>
    cases hnode : tree.node? a with
    | none => simp [hnode, bind, Except.bind]
    | some node =>
      cases node with
      | file content time => exact absurd hnode (node?_not_file h a content time)
      | dir => simp [hnode, bind, Except.bind, pure, Except.pure]
      | link target => simp [hnode, bind, Except.bind, pure, Except.pure]

end Tree

namespace Expand

open Step

/-- Without files there is no image to pack. -/
theorem spriteMap_fileless (config : SpriteConfig) (pattern : Text) (spacing : Nat) :
    Alike (fun w => w.tree.fileCount = 0) (spriteMap config pattern spacing)
      (spriteMap config pattern spacing) := by
  intro w hw
  have hsources (glob : Glob) : collectImages config glob w.tree = [] := by
    rw [collectImages, Tree.walk_eq_nil hw]
    rfl
  unfold spriteMap
  cases Glob.parse .withinName pattern with
  | error e => trivial
  | ok glob =>
    refine .bind_same fun _ w₁ h₁ => ?_
    obtain ⟨rfl, rfl⟩ := returns_pure.1 h₁
    refine .bind_same fun tree w₂ h₂ => ?_
    obtain ⟨rfl, rfl⟩ : tree = w₁.tree ∧ w₂ = w₁ := by
      cases h₂
      exact ⟨rfl, rfl⟩
    rw [hsources, if_pos rfl]
    exact .throw _ _

end Expand

end StylePrep
