import StylePrep.Proofs.Mirror
import StylePrep.Proofs.Rewriting

/-!
# Outputs without calls

Where the files that a compilation reads are orderly, no call of a sprite function starts at a
lexeme of the output (`silent_of_assembleRoot`). In the assembly of a file the output is kept
without calls directive by directive. An import is replaced by a whole output on lines of its
own, which has no calls either: this is the induction on how deeply imports may be nested.
-/

namespace StylePrep

open Text Scan Directive Step

namespace Assembly

variable {options : Options} {loader : Loader}

/-- A call in the file of a visit, or in the value of one of its assignments, is expanded to `e`. -/
inductive Expands (options : Options) (loader : Loader) (v : Visit) : Expansion → Prop
  | call {depth : Nat} {before : Text} {map : LineMap} {d : Directive} {ds : List Directive} {s s' : Session}
      {f : SpriteFunction} {args : List Text} {binding : Option Binding} {e : Expansion} :
      Comes options loader depth v before map (d :: ds) s → d.kind = .sprite f args binding →
      Returns (expandSprite options f args d.line (lineIndent before)) (v.synced d s) e s' →
      Expands options loader v e
  | value {depth : Nat} {before : Text} {map : LineMap} {d : Directive} {ds : List Directive} {s : Session}
      {name lead value tail : Text} {flags : AssignFlags} {e : Expansion} :
      Comes options loader depth v before map (d :: ds) s → d.kind = .assign name lead value tail flags →
      Replaces options (scanText options.functions .expression d.line value).directives (v.synced d s) e →
      Expands options loader v e

/-- A sheet in which what is put out for all directives stands for itself, sprite functions apart. -/
structure OrderlySheet (functions : FunctionTable) (t : Text) : Prop where
  spaced : Spaced (scan functions t).directives
  orderly : ∀ d ∈ (scan functions t).directives, Orderly functions d

instance (functions : FunctionTable) (t : Text) : Decidable (OrderlySheet functions t) :=
  decidable_of_iff (Spaced (scan functions t).directives ∧
      ∀ d ∈ (scan functions t).directives, Orderly functions d)
    ⟨fun ⟨spaced, orderly⟩ => ⟨spaced, orderly⟩, fun ⟨spaced, orderly⟩ => ⟨spaced, orderly⟩⟩

section Files

variable {depth : Nat} {v : Visit} {before out : Text} {map map' : LineMap} {s s' : Session}
variable (hnested : ∀ v' map' s', Enters options loader v v' →
  Returns (importerAt options loader depth v'.file v'.dir) v'.session map' s' →
    ∃ t, map'.Has t ∧ Silent t)
include hnested

/-- Imports put whole outputs on lines of their own. -/
theorem landed_of_importAll {targets : List Text} (hasks : Asks options loader depth v targets map s)
    (hmap : map.Has out) (hout : Landed out)
    (h : Returns (importAll options loader (importerAt options loader depth) v.file v.dir targets map) s
      map' s') : ∃ out', map'.Has out' ∧ Landed out' := by
  induction targets generalizing out map s with
  | nil =>
    obtain ⟨rfl, -⟩ := returns_pure.1 h
    exact ⟨out, hmap, hout⟩
  | cons target targets ih =>
    obtain ⟨child, s₁, hchild, hrest⟩ := returns_bind.1 h
    obtain ⟨stack, path, text, hopens⟩ := opens_of_returns hchild
    obtain ⟨u, hu, hsilent⟩ : ∃ u, child.Has u ∧ Silent u := by
      have hassemble := hchild
      rw [Returns, exec_importTarget_of_opens hopens] at hassemble
      split at hassemble <;> cases hassemble
      rename_i s₂ hs₂
      exact hnested _ _ s₂ ⟨depth, target, targets, map, s, stack, path, text, hasks, hopens, rfl⟩ hs₂
    exact ih (hasks.next hchild) (hmap.splice hu) (hout.spliced hsilent) hrest

/-- The directives of a file are put out without calls. -/
theorem silent_of_addDirectives {ds : List Directive} {word statement : Bool}
    (hcomes : Comes options loader depth v before map ds s)
    (hstrung : Strung options.functions word statement ds) (hspaced : Spaced ds)
    (horderly : ∀ d ∈ ds, Orderly options.functions d)
    (hquotes : ∀ e, Expands options loader v e → Expand.WellQuoted e.text) (hmap : map.Has out)
    (habreast : Abreast out word statement (texts ds))
    (h : Returns (addDirectives options loader (importerAt options loader depth) v.file v.source.path v.dir
      v.session.vars.innermost before map ds) s map' s') : ∃ out', map'.Has out' ∧ Silent out' := by
  induction ds generalizing before map s out word statement with
  | nil =>
    obtain ⟨rfl, -⟩ := returns_pure.1 h
    exact ⟨out, hmap, habreast.silent⟩
  | cons d ds ih =>
    obtain ⟨map₁, s₁, hadd, hrest⟩ := returns_addDirectives_cons.1 h
    have hnext := hcomes.next hadd
    suffices hstep : ∃ out₁ word₁ statement₁, map₁.Has out₁ ∧ Strung options.functions word₁ statement₁ ds ∧
        Abreast out₁ word₁ statement₁ (texts ds) by
      obtain ⟨out₁, word₁, statement₁, hmap₁, hstrung₁, habreast₁⟩ := hstep
      exact ih hnext hstrung₁ (List.isChain_of_isChain_cons hspaced)
        (fun e he => horderly e (List.mem_cons_of_mem _ he)) hmap₁ habreast₁ hrest
    by_cases himports : ∃ targets, d.kind = .imports targets
    · obtain ⟨targets, htargets⟩ := himports
      rw [addDirective, htargets] at hadd
      cases hstrung with
      | plain hkind =>
        rw [hkind] at htargets
        cases htargets
      | @act _ _ _ _ c found indent hkind hraw hadmits hindent hothers hform more =>
        have hfound : found.kind = .imports targets := hkind ▸ htargets
        obtain rfl := (hform.eq_of_imports hfound).1
        obtain rfl : statement = true := by simpa using hadmits
        obtain ⟨b, hb, hblank⟩ : ∃ b, d.raw.head? = some b ∧ (b = '@' ∨ isBlank b = true) := by
          cases indent with
          | nil => exact ⟨'@', by rw [hraw]; rfl, .inl rfl⟩
          | cons b indent => exact ⟨b, by rw [hraw]; rfl, .inr (hindent b List.mem_cons_self)⟩
        have hlanded := habreast.landed (by rw [texts_cons, List.head?_append, hb]; rfl) hblank
        obtain ⟨out₁, hmap₁, hout₁⟩ := landed_of_importAll hnested (.first hcomes htargets) hmap hlanded hadd
        have hlast := List.getLast?_eq_some_getLast (List.cons_ne_nil '@' found.tail)
        rw [endsWord_of_isEnd hlast (hform.getLast?_imports hfound hlast)] at more
        exact ⟨out₁, false, found.atStatement, hmap₁, more, hout₁.abreast _ _⟩
    · rw [not_exists] at himports
      have hagree := @addDirective_replacement options loader (importerAt options loader depth) v.file v.dir
        before map out hmap d himports (v.synced d s)
      obtain ⟨text, s₂, hreplacement⟩ := hagree.returns_iff.1 ⟨map₁, s₁, hadd⟩
      obtain ⟨hmap₁, -⟩ := hagree.related hadd hreplacement
      have hindent : ∀ c ∈ lineIndent before, isBlank c = true := fun c => of_mem_takeWhile
      obtain ⟨word₁, statement₁, hstrung₁, habreast₁⟩ := habreast.directive hstrung hspaced
        (horderly d List.mem_cons_self) himports hindent
        (fun f args b e s' hkind he => hquotes e (.call hcomes hkind he))
        (fun name lead value tail flags hkind e he => hquotes e (.value hcomes hkind he)) hreplacement
      exact ⟨out ++ text, word₁, statement₁, hmap₁, hstrung₁, habreast₁⟩

end Files

/-- In the assemblies that a compilation gets to, outputs have no calls. -/
theorem Visits.silent {path dir : Path} {text : Text} {w : Workspace} {n depth : Nat} {v : Visit}
    {map : LineMap} {s' : Session}
    (hfiles : ∀ n v, Visits options loader path dir text w n v → OrderlySheet options.functions v.source.text)
    (hquotes : ∀ n v e, Visits options loader path dir text w n v → Expands options loader v e →
      Expand.WellQuoted e.text)
    (hv : Visits options loader path dir text w n v)
    (h : Returns (importerAt options loader depth v.file v.dir) v.session map s') :
    ∃ t, map.Has t ∧ Silent t := by
  induction depth generalizing n v map s' with
  | zero => exact absurd h not_returns_importerAt_zero
  | succ depth ih =>
    rw [importerAt, assemble_eq, Returns, exec_assembleFile] at h
    split at h
    · cases h
    · rename_i map₁ s₁ hadd
      split at h <;> cases h
      rename_i herror
      have hsheet := hfiles n v hv
      exact silent_of_addDirectives (fun v' map' s' henters => ih (hv.enter henters)) .start
        (strung_of_scanText herror) hsheet.spaced hsheet.orderly (fun e => hquotes n v e hv) .empty
        (.start _ _) hadd

/-- No call of a sprite function starts at a lexeme of the output. -/
theorem silent_of_assembleRoot {path dir : Path} {text : Text} {w w' : Workspace} {c : Compilation}
    (hfiles : ∀ n v, Visits options loader path dir text w n v → OrderlySheet options.functions v.source.text)
    (hquotes : ∀ n v e, Visits options loader path dir text w n v → Expands options loader v e →
      Expand.WellQuoted e.text)
    (h : Returns (assembleRoot options loader path text dir) w c w') : Silent c.output := by
  obtain ⟨s, hs, -⟩ := returns_assembleRoot.1 h
  obtain ⟨t, ht, hsilent⟩ := @Visits.silent _ _ _ _ _ _ _ (w.tree.fileCount + 1) _ _ _ hfiles hquotes .root hs
  have houtput : c.output = t := ht.buffer
  rwa [houtput]

end Assembly

end StylePrep
