import StylePrep.Proofs.Cover
import StylePrep.Proofs.Scopes

/-!
# Blocks are entered once

A scan numbers the blocks of a text in the order in which they open, and a directive
carries the numbers of the blocks that are open where it stands. From one directive to the
next, some of the outermost blocks stay open, and every other block is new (`Moves`). So a
block that was left is never entered again: whatever had its scope in front of a directive
and still has it behind, had it at the directive as well (`Moves.isPrefix`).
-/

namespace StylePrep

/-- Scopes `p` and `q` of a text, `q` behind `p`, if blocks were numbered below `n` at `p`:
the blocks that both have in common are the outermost of `p`, and all others are new. -/
def Moves (n : Nat) (p q : List Nat) : Prop :=
  ∃ kept fresh, kept <+: p ∧ q = kept ++ fresh ∧ ∀ x ∈ fresh, n ≤ x

namespace Moves

variable {n : Nat} {p q r : List Nat}

theorem refl (n : Nat) (p : List Nat) : Moves n p p := ⟨p, [], List.prefix_rfl, by simp, by simp⟩

/-- A block opens. -/
theorem concat (h : Moves n p q) {m : Nat} (hm : n ≤ m) : Moves n p (q ++ [m]) := by
  obtain ⟨kept, fresh, hkept, rfl, hfresh⟩ := h
  refine ⟨kept, fresh ++ [m], hkept, by simp, fun x hx => ?_⟩
  rcases List.mem_append.1 hx with hx | hx
  · exact hfresh x hx
  · rwa [List.mem_singleton.1 hx]

/-- The innermost block closes. -/
theorem dropLast (h : Moves n p q) : Moves n p q.dropLast := by
  obtain ⟨kept, fresh, hkept, rfl, hfresh⟩ := h
  rcases List.eq_nil_or_concat fresh with rfl | ⟨fresh, m, rfl⟩
  · refine ⟨kept.dropLast, [], (List.dropLast_prefix kept).trans hkept, by simp, by simp⟩
  · refine ⟨kept, fresh, hkept, ?_, fun x hx => hfresh x (by simp [hx])⟩
    rw [List.concat_eq_append, ← List.append_assoc, List.dropLast_concat]

/-- An old scope that is open behind a move was open in front of it. -/
theorem isPrefix (h : Moves n p q) (hr : r <+: q) (hold : ∀ x ∈ r, x < n) : r <+: p := by
  obtain ⟨kept, fresh, hkept, rfl, hfresh⟩ := h
  obtain ⟨s, hs⟩ := hr
  rcases List.append_eq_append_iff.1 hs with ⟨a, rfl, -⟩ | ⟨a, rfl, rfl⟩
  · exact (List.prefix_append _ _).trans hkept
  · have hnil : a = [] := by
      refine List.eq_nil_iff_forall_not_mem.2 fun x hx => ?_
      have hlt := hold x (List.mem_append_right _ hx)
      have hle := hfresh x (List.mem_append_left _ hx)
      omega
    rwa [hnil, List.append_nil]

end Moves

/-- What two scopes both start with, they have in common. -/
theorem length_le_common {r p q : List Nat} (hp : r <+: p) (hq : r <+: q) : r.length ≤ common p q := by
  induction r generalizing p q with
  | nil => exact Nat.zero_le _
  | cons x r ih =>
    obtain ⟨p, rfl, hp'⟩ := List.cons_prefix_iff.1 hp
    obtain ⟨q, rfl, hq'⟩ := List.cons_prefix_iff.1 hq
    rw [common, if_pos rfl, List.length_cons]
    exact Nat.succ_le_succ (ih hp' hq')

namespace Scan

open Text

variable {functions : FunctionTable}

/-- The scopes of directives one after another, behind the scope `p`, blocks being numbered
below `n` there. -/
def Descends : Nat → List Nat → List Directive → Prop
  | _, _, [] => True
  | n, p, d :: ds => Moves n p d.scope ∧
    ∃ m, n ≤ m ∧ (∀ x ∈ d.scope, x < m) ∧ Descends m d.scope ds

/-- A run has the scope it starts in. -/
theorem Descends.flush {n : Nat} {run : Run} {ds : List Directive} (h : Descends n run.scope ds)
    (hold : ∀ x ∈ run.scope, x < n) : Descends n run.scope (run.flush ++ ds) := by
  unfold Run.flush
  split
  · exact h
  · exact ⟨.refl n _, n, Nat.le_refl n, hold, h⟩

/-- A token keeps the open blocks, opens a new one or closes the innermost one. -/
theorem Effect.result?_cases {effect : Effect} {context next : Context}
    (h : effect.result? context = some next) :
    (next.blocks = context.blocks ∧ next.nextBlock = context.nextBlock) ∨
    (next.blocks = context.nextBlock :: context.blocks ∧ next.nextBlock = context.nextBlock + 1) ∨
    (∃ block, context.blocks = block :: next.blocks ∧ next.nextBlock = context.nextBlock) := by
  cases effect with
  | keeps => cases h; exact .inl ⟨rfl, rfl⟩
  | enters => cases h; exact .inl ⟨rfl, rfl⟩
  | ends => cases h; exact .inl ⟨rfl, rfl⟩
  | opens => cases h; exact .inr (.inl ⟨rfl, rfl⟩)
  | closes =>
    cases hblocks : context.blocks with
    | nil => simp [Effect.result?, hblocks] at h
    | cons block blocks =>
      simp only [Effect.result?, hblocks, Option.some.injEq] at h
      subst h
      exact .inr (.inr ⟨block, rfl, rfl⟩)

/-- The scopes that a scan reports, `n` being the number of blocks at the start of the run. -/
theorem scanFrom_descends {cur : Cursor} {run : Run} {t : Text} {n : Nat}
    (hmoves : Moves n run.scope cur.scope) (hn : n ≤ cur.context.nextBlock)
    (hrun : ∀ x ∈ run.scope, x < n) (hcur : ∀ x ∈ cur.context.blocks, x < cur.context.nextBlock) :
    Descends n run.scope (scanFrom functions cur run t).directives := by
  fun_induction scanFrom functions cur run t generalizing n with
  | case1 cur run =>
    have hend : Descends n run.scope [] := trivial
    simpa using hend.flush hrun
  | case2 => trivial
  | case3 cur run c t found h next =>
    rename_i ih
    obtain ⟨u, indent, span, -, hcomplete, -⟩ := complete_eq cur run c found
    have hscope : ∀ x ∈ cur.scope, x < cur.context.nextBlock :=
      fun x hx => hcur x (List.mem_reverse.1 hx)
    have hrest := ih (.refl cur.context.nextBlock _) (Nat.le_refl _) hscope hcur
    simp only [Outcome.prepend, hcomplete, List.append_assoc]
    have hfound : Descends n run.scope (⟨found.kind, span, indent ++ c :: found.tail, cur.scope⟩ :: _) :=
      ⟨hmoves, cur.context.nextBlock, hn, hscope, hrest⟩
    exact @Descends.flush n { run with text := u } _ hfound hrun
  | case4 => trivial
  | case5 cur run c t h tail context hskip ih =>
    obtain ⟨effect, -, hresult⟩ := skip_eq_ok_iff.1 hskip
    have hscope : (cur.step c tail context).scope = context.blocks.reverse := rfl
    refine ih ?_ ?_ hrun ?_
    · rw [hscope]
      obtain ⟨hblocks, -⟩ | ⟨hblocks, -⟩ | ⟨block, hblocks, -⟩ := Effect.result?_cases hresult
      · rw [hblocks]
        exact hmoves
      · rw [hblocks, List.reverse_cons]
        exact hmoves.concat hn
      · have hclosed := hmoves.dropLast
        rwa [Cursor.scope, hblocks, List.reverse_cons, List.dropLast_concat] at hclosed
    · obtain ⟨-, hnext⟩ | ⟨-, hnext⟩ | ⟨-, -, hnext⟩ := Effect.result?_cases hresult
      all_goals
        change n ≤ context.nextBlock
        omega
    · intro x hx
      change x ∈ context.blocks at hx
      change x < context.nextBlock
      obtain ⟨hblocks, hnext⟩ | ⟨hblocks, hnext⟩ | ⟨block, hblocks, hnext⟩ := Effect.result?_cases hresult
      · rw [hnext]
        exact hcur x (hblocks ▸ hx)
      · rw [hnext]
        rcases List.mem_cons.1 (hblocks ▸ hx) with rfl | hx
        · exact Nat.lt_succ_self _
        · exact Nat.lt_succ_of_lt (hcur x hx)
      · rw [hnext]
        exact hcur x (hblocks ▸ List.mem_cons_of_mem _ hx)

/-- The scopes that the directives of a sheet stand in. -/
theorem scan_descends (functions : FunctionTable) (t : Text) :
    Descends 0 [] (scan functions t).directives :=
  @scanFrom_descends functions (.start .sheet 1) (.fresh (.start .sheet 1)) t 0 (.refl 0 [])
    (Nat.le_refl 0) (by simp [Run.fresh, Cursor.scope, Cursor.start]) (by simp [Cursor.start])

end Scan

end StylePrep
