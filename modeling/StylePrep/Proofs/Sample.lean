import StylePrep.Preprocess
import StylePrep.Proofs.Agreement

/-!
# Small workspaces

A workspace given by the names and the texts of a few files in its root directory,
and plain settings for it. Compilations in such workspaces run inside the logic, so
a statement about all compilations can be seen at work in one of them.
-/

namespace StylePrep

namespace Sample

def options : Options :=
  { includePaths := [], functions := .empty
    sprites := ⟨⟨"/images".toList⟩, ⟨"/sheets".toList⟩, ⟨"/".toList⟩, 0⟩ }

def tree (files : List (String × String)) : Tree :=
  ⟨files.map fun (name, text) => ([name.toList], .file (Text.utf8 text.toList) 0), [], 0⟩

def workspace (files : List (String × String)) : Workspace := .ofTree (tree files)

/-- The output for a text compiled among these files; nothing if it fails. -/
def output? (files : List (String × String)) (text : String) : Option Text :=
  (Step.exec (Preprocess.source options "-".toList text.toList) (workspace files)).1.toOption.map
    Compilation.output

end Sample

/-- A step whose result is known up to a function returns. -/
theorem Step.exists_returns {σ α β : Type} {x : Step σ α} {s : σ} {f : α → β} {b : β}
    (h : (exec x s).1.toOption.map f = some b) : ∃ a s', Returns x s a s' ∧ f a = b := by
  obtain ⟨a, ha, hb⟩ := Option.map_eq_some_iff.1 h
  revert ha
  unfold Returns
  obtain ⟨_ | a', s'⟩ := exec x s <;> intro ha
  · cases ha
  · cases ha
    exact ⟨a, s', rfl, hb⟩

end StylePrep
