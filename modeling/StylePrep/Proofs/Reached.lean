import StylePrep.Proofs.Pieces

/-!
# The way to a directive

A directive that a scan reports is a piece of the text, unless it is plain text, and the scan has
gone over the pieces in front of it (`exists_reached`). So what is known of walks can be used for
each directive that comes out of a scan.

An import owns the blanks in front of it. These have been collected in the run with all other text
since the last directive, so the run is taken apart when the import is found (`Reached.reports`).
-/

namespace StylePrep

namespace Scan

open Text Delimited

variable {functions : FunctionTable}

/-- What a scan has reported and collected along pieces is their text. -/
theorem texts_trail {ps : List Piece} {cur cur' : Cursor} {run run' : Run} {ds : List Directive}
    (h : trail cur run ps = some (ds, cur', run')) :
    Directive.texts ds ++ run'.text = run.text ++ Piece.texts ps := by
  induction ps generalizing cur run ds with
  | nil =>
    cases h
    simp
  | cons p ps ih =>
    cases p with
    | act c found =>
      obtain ⟨⟨ds', cur'', run''⟩, htrail, heq⟩ := Option.map_eq_some_iff.1 h
      cases heq
      have hrest := ih htrail
      rw [Run.fresh, List.nil_append] at hrest
      rw [Directive.texts_append, texts_complete, List.append_assoc, hrest, Piece.texts_cons,
        Piece.text, List.append_assoc]
    | token c tail effect =>
      obtain ⟨context, hcontext, htrail⟩ := Option.bind_eq_some_iff.1 h
      have hrest := ih htrail
      rw [hrest, Run.extend, Piece.texts_cons, Piece.text, List.append_assoc]

theorem Run.isBlank_of_mem_indent {run : Run} {c : Char} (h : c ∈ run.indent) : isBlank c = true := by
  unfold Run.indent at h
  simp only at h
  split at h
  case isTrue hall => exact List.all_eq_true.1 hall.1 c h
  case isFalse => cases h

theorem Run.kind_of_mem_flush {run : Run} {d : Directive} (h : d ∈ run.flush) : d.kind = .plain := by
  unfold Run.flush at h
  split at h
  · cases h
  · rw [List.mem_singleton.1 h]

/-- A directive that a scan reports is a piece of the text, unless it is plain text: `ps`
are the pieces in front of it, and `ds` is reported along with them. -/
structure Reached (functions : FunctionTable) (cur : Cursor) (run : Run) (t : Text)
    (ds : List Directive) (d : Directive) (u : Text) (ps : List Piece) (cur' : Cursor) (run' : Run)
    (c : Char) (found : Found) (rest : Text) : Prop where
  text : t = u ++ c :: (found.tail ++ rest)
  walk : Walk functions (c :: (found.tail ++ rest)) cur.followsWord cur.context.atStatement u ps
    cur'.followsWord cur'.context.atStatement
  trail : ∃ ds₀, Scan.trail cur run ps = some (ds₀, cur', run') ∧
    ds ++ [d] = ds₀ ++ complete cur' run' c found
  piece : piece? functions cur'.followsWord cur'.context.atStatement c (found.tail ++ rest) =
    some (.act c found)

theorem recognize_probe {cur : Cursor} {c : Char} {t : Text} {found? : Option Found}
    (h : recognize functions cur c t = .ok found?) :
    recognize functions (probe cur.followsWord cur.context.atStatement) c t = .ok found? := by
  have hshows : Shows cur cur.followsWord cur.context.atStatement := ⟨rfl, rfl⟩
  rw [← toOption_eq_some_iff, ← hshows.recognize_toOption, toOption_eq_some_iff, h]

theorem piece?_of_recognize {cur : Cursor} {c : Char} {t : Text} {found : Found}
    (h : recognize functions cur c t = .ok (some found)) :
    piece? functions cur.followsWord cur.context.atStatement c t = some (.act c found) :=
  piece?_eq_act_iff.2 ⟨rfl, recognize_probe h⟩

namespace Reached

variable {cur cur' : Cursor} {run run' : Run} {t u : Text} {ds : List Directive} {d : Directive}
variable {ps : List Piece} {c e : Char} {found : Found} {rest : Text}

/-- A directive in front. -/
theorem act (run : Run) {first : Found}
    (hp : piece? functions cur.followsWord cur.context.atStatement e (first.tail ++ t) =
      some (.act e first))
    (h : Reached functions
      (cur.step e first.tail { cur.context with atStatement := first.atStatement })
      (.fresh (cur.step e first.tail { cur.context with atStatement := first.atStatement }))
      t ds d u ps cur' run' c found rest) :
    Reached functions cur run (e :: (first.tail ++ t)) (complete cur run e first ++ ds) d
      (e :: (first.tail ++ u)) (.act e first :: ps) cur' run' c found rest where
  text := by rw [h.text]; simp
  walk := by
    have hwalk := h.walk
    rw [followsWord_step] at hwalk
    exact .step (by rw [← h.text]; exact hp) rfl hwalk
  trail := by
    obtain ⟨ds₀, htrail, hds⟩ := h.trail
    refine ⟨complete cur run e first ++ ds₀, by rw [Scan.trail, htrail]; rfl, ?_⟩
    rw [List.append_assoc, hds, List.append_assoc]
  piece := h.piece

/-- A token in front. -/
theorem token {tail : Text} {effect : Effect} {context : Context}
    (hp : piece? functions cur.followsWord cur.context.atStatement e (tail ++ t) =
      some (.token e tail effect)) (hcontext : effect.result? cur.context = some context)
    (h : Reached functions (cur.step e tail context) (run.extend (e :: tail)) t ds d u ps cur' run' c
      found rest) :
    Reached functions cur run (e :: (tail ++ t)) ds d (e :: (tail ++ u)) (.token e tail effect :: ps)
      cur' run' c found rest where
  text := by rw [h.text]; simp
  walk := by
    have hwalk := h.walk
    rw [followsWord_step, show (cur.step e tail context).context.atStatement = context.atStatement
      from rfl, atStatement_result? hcontext] at hwalk
    exact .step (by rw [← h.text]; exact hp) rfl hwalk
  trail := by
    obtain ⟨ds₀, htrail, hds⟩ := h.trail
    exact ⟨ds₀, by rw [Scan.trail, hcontext]; exact htrail, hds⟩
  piece := h.piece

end Reached

/-- All that is completed with a directive is plain text, but for the directive at the end. -/
theorem eq_nil_of_complete {cur : Cursor} {run : Run} {c : Char} {found : Found}
    {ds ds' : List Directive} {d : Directive} (h : complete cur run c found = ds ++ d :: ds')
    (hd : d.kind ≠ .plain) : ds' = [] := by
  obtain ⟨v, indent, span, -, hcomplete, -, -⟩ := complete_eq cur run c found
  rcases List.eq_nil_or_concat ds' with rfl | ⟨init, last, rfl⟩
  · rfl
  · rw [hcomplete, List.concat_eq_append, ← List.cons_append, ← List.append_assoc] at h
    obtain ⟨hflush, -⟩ := List.append_inj' h rfl
    exact absurd (Run.kind_of_mem_flush (by rw [hflush]; simp)) hd

/-- Every directive that a scan reports is reached. -/
theorem exists_reached {cur : Cursor} {run : Run} {t : Text} {ds ds' : List Directive} {d : Directive}
    (h : (scanFrom functions cur run t).directives = ds ++ d :: ds') (hd : d.kind ≠ .plain) :
    ∃ u ps cur' run' c found rest, Reached functions cur run t ds d u ps cur' run' c found rest := by
  fun_induction scanFrom functions cur run t generalizing ds with
  | case1 cur run =>
    have hmem : d ∈ run.flush := by
      change run.flush = _ at h
      rw [h]
      simp
    exact absurd (Run.kind_of_mem_flush hmem) hd
  | case2 => cases ds <;> cases h
  | case3 cur run c t found hfound next =>
    rename_i ih
    obtain ⟨-, rest, rfl, -⟩ := recognize_eq_some_iff.1 hfound
    have hp := piece?_of_recognize hfound
    rw [List.drop_left] at h ih
    change complete cur run c found ++ (scanFrom functions next (.fresh next) rest).directives = _ at h
    rcases List.append_eq_append_iff.1 h with ⟨x, rfl, hx⟩ | ⟨x, hfront, hx⟩
    · obtain ⟨u, ps, cur', run', c', found', rest', hr⟩ := ih hx
      exact ⟨_, _, _, _, _, _, _, hr.act run hp⟩
    · cases x with
      | nil =>
        have hx' : (scanFrom functions next (.fresh next) rest).directives = [] ++ d :: ds' := hx.symm
        obtain ⟨u, ps, cur', run', c', found', rest', hr⟩ := ih hx'
        have hact := hr.act run hp
        rw [List.append_nil] at hfront hact
        exact ⟨_, _, _, _, _, _, _, hfront ▸ hact⟩
      | cons e x =>
        obtain ⟨rfl, -⟩ := List.cons.inj hx
        obtain rfl := eq_nil_of_complete hfront hd
        exact ⟨[], [], cur, run, c, found, rest, rfl, .done _ _, ⟨[], rfl, hfront.symm⟩, hp⟩
  | case4 => cases ds <;> cases h
  | case5 cur run c t hnone tail context hskip ih =>
    obtain ⟨effect, htoken, hcontext⟩ := skip_eq_ok_iff.1 hskip
    obtain ⟨rest, rfl, -⟩ := token?_eq_some_iff.1 htoken
    rw [List.drop_left] at h ih
    obtain ⟨u, ps, cur', run', c', found', rest', hr⟩ := ih h
    exact ⟨_, _, _, _, _, _, _, hr.token (piece?_eq_token_iff.2 ⟨rfl, recognize_probe hnone, htoken⟩) hcontext⟩

/-- What is reported where a directive is reached. It takes an indentation off the run in front of
it, and what is left of the run, `v`, comes out as plain text. -/
structure Reports (functions : FunctionTable) (cur : Cursor) (run : Run) (ds : List Directive)
    (d : Directive) (u : Text) (ps : List Piece) (cur' : Cursor) (run' : Run) (c : Char) (found : Found)
    (rest : Text) (ds₀ : List Directive) (v indent : Text) : Prop where
  trail : Scan.trail cur run ps = some (ds₀, cur', run')
  front : ds = ds₀ ++ ({ run' with text := v } : Run).flush
  collected : run'.text = v ++ indent
  kind : d.kind = found.kind
  raw : d.raw = indent ++ c :: found.tail
  scope : d.scope = cur'.scope
  before : Directive.texts ds ++ indent = run.text ++ u
  blank : ∀ e ∈ indent, isBlank e = true
  imports : ∀ targets, d.kind = .imports targets → indent = run'.indent
  others : (∀ targets, d.kind ≠ .imports targets) → indent = []
  admits : Admits cur' c
  form : Form functions c found rest

theorem Reached.reports {cur cur' : Cursor} {run run' : Run} {t u : Text} {ds : List Directive}
    {d : Directive} {ps : List Piece} {c : Char} {found : Found} {rest : Text}
    (h : Reached functions cur run t ds d u ps cur' run' c found rest) :
    ∃ ds₀ v indent, Reports functions cur run ds d u ps cur' run' c found rest ds₀ v indent := by
  obtain ⟨ds₀, htrail, hlast⟩ := h.trail
  obtain ⟨v, indent, span, hrun, hcomplete, himports, hothers⟩ := complete_eq cur' run' c found
  rw [hcomplete, ← List.append_assoc] at hlast
  obtain ⟨rfl, hd⟩ := List.append_inj' hlast rfl
  obtain rfl := (List.cons.inj hd).1
  obtain ⟨hadmits, rest', hrest, hform⟩ := recognize_eq_some_iff.1 (piece?_eq_act_iff.1 h.piece).2
  obtain rfl := List.append_cancel_left hrest
  refine ⟨ds₀, v, indent, htrail, rfl, hrun, rfl, rfl, rfl, ?_, ?_, himports, hothers, ?_, hform⟩
  · have htexts := texts_trail htrail
    rw [h.walk.texts_eq, hrun, ← List.append_assoc] at htexts
    rwa [Directive.texts_append, Run.texts_flush]
  · intro e he
    by_cases hkind : ∃ targets, found.kind = .imports targets
    · obtain ⟨targets, hkind⟩ := hkind
      rw [himports targets hkind] at he
      exact Run.isBlank_of_mem_indent he
    · rw [hothers fun targets htargets => hkind ⟨targets, htargets⟩] at he
      cases he
  · simpa [Admits] using hadmits

end Scan

end StylePrep
