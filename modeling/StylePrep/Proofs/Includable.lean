import StylePrep.Proofs.ImportLine
import StylePrep.Proofs.Similar

/-!
# Texts that can stand for their import

A text that stands in place of an import is scanned with what comes behind it, and not up
to its own end. For the texts described here (`Includable`) this makes no difference: they
end their last line where a statement can start, and behind their last directive there is
plain text. Their pieces are the same wherever they stand (`Includable.inclusion`).
-/

namespace StylePrep

namespace Scan

open Text Delimited

variable {functions : FunctionTable}

/-! ### Directives and their pieces -/

theorem trail_append (ps qs : List Piece) (cur : Cursor) (run : Run) :
    trail cur run (ps ++ qs) = (trail cur run ps).bind fun (ds, cur', run') =>
      (trail cur' run' qs).map fun (ds', cur'', run'') => (ds ++ ds', cur'', run'') := by
  induction ps generalizing cur run with
  | nil => simp [trail]
  | cons p ps ih =>
    cases p with
    | act c found =>
      rw [List.cons_append, trail, trail, ih]
      cases trail _ _ ps with
      | none => rfl
      | some result => simp [Function.comp_def]
    | token c tail effect =>
      rw [List.cons_append, trail, trail]
      cases effect.result? cur.context with
      | none => rfl
      | some context => exact ih _ _

/-- Every directive among the pieces is reported. -/
theorem exists_mem_of_trail {ps : List Piece} {cur cur' : Cursor} {run run' : Run} {ds : List Directive}
    (h : trail cur run ps = some (ds, cur', run')) {c : Char} {found : Found}
    (hmem : .act c found ∈ ps) : ∃ d ∈ ds, d.kind = found.kind ∧
      ((∀ targets, found.kind ≠ .imports targets) → d.raw = c :: found.tail) := by
  obtain ⟨qs, rs, rfl⟩ := List.append_of_mem hmem
  rw [trail_append] at h
  obtain ⟨⟨ds₁, cur₁, run₁⟩, -, h⟩ := Option.bind_eq_some_iff.1 h
  obtain ⟨⟨ds₂, cur₂, run₂⟩, hact, heq⟩ := Option.map_eq_some_iff.1 h
  cases heq
  obtain ⟨⟨ds₃, cur₃, run₃⟩, -, heq⟩ := Option.map_eq_some_iff.1 hact
  cases heq
  obtain ⟨u, indent, span, -, hcomplete, -, hindent⟩ := complete_eq cur₁ run₁ c found
  refine ⟨⟨found.kind, span, indent ++ c :: found.tail, cur₁.scope⟩, ?_, rfl, fun hkind => ?_⟩
  · rw [hcomplete]
    simp
  · rw [hindent hkind, List.nil_append]

/-- A directive at the end is reported last. -/
theorem getLast?_of_trail {ps : List Piece} {cur cur' : Cursor} {run run' : Run} {ds : List Directive}
    (h : trail cur run ps = some (ds, cur', run')) {c : Char} {found : Found}
    (hlast : ps.getLast? = some (.act c found)) :
    ∃ d, (ds ++ run'.flush).getLast? = some d ∧ d.kind = found.kind := by
  obtain ⟨qs, rfl⟩ := List.getLast?_eq_some_iff.1 hlast
  rw [trail_append] at h
  obtain ⟨⟨ds₁, cur₁, run₁⟩, -, h⟩ := Option.bind_eq_some_iff.1 h
  obtain ⟨⟨ds₂, cur₂, run₂⟩, hact, heq⟩ := Option.map_eq_some_iff.1 h
  cases heq
  cases hact
  obtain ⟨u, indent, span, -, hcomplete, -⟩ := complete_eq cur₁ run₁ c found
  refine ⟨⟨found.kind, span, indent ++ c :: found.tail, cur₁.scope⟩, ?_, rfl⟩
  rw [hcomplete]
  simp [Run.flush, Run.fresh]

/-- Along a text that is scanned without an error, all pieces are taken. -/
theorem exists_trail {t : Text} (h : (scan functions t).error? = none) :
    (lex functions false true t).2 = true ∧ ∃ word' statement' ds cur run,
      Walk functions [] false true t (lex functions false true t).1 word' statement' ∧
      trail (.start .sheet 1) (.fresh (.start .sheet 1)) (lex functions false true t).1 =
        some (ds, cur, run) ∧
      (scan functions t).directives = ds ++ run.flush := by
  obtain ⟨u, v, word', statement', htext, hwalk, hend⟩ := exists_walk functions false true t
  have hshows : Shows (Cursor.start .sheet 1) false true := ⟨rfl, rfl⟩
  obtain ⟨hsome, hnone⟩ := hwalk.scanFrom_eq hshows (.fresh (.start .sheet 1))
  rw [← htext] at hsome hnone
  cases htrail : trail (.start .sheet 1) (.fresh (.start .sheet 1)) (lex functions false true t).1 with
  | none => exact absurd h (hnone htrail)
  | some result =>
    obtain ⟨ds, cur, run⟩ := result
    obtain ⟨hcur, hscan⟩ := hsome ds cur run htrail
    change scan functions t = _ at hscan
    split at hend
    case isFalse =>
      obtain ⟨e, he⟩ := scanFrom_stuck hcur run hend
      rw [hscan, he] at h
      cases h
    case isTrue hcomplete =>
      subst hend
      rw [List.append_nil] at htext
      refine ⟨hcomplete, word', statement', ds, cur, run, htext ▸ hwalk, rfl, ?_⟩
      rw [hscan, scanFrom]
      rfl

/-! ### The end of a walk -/

namespace Walk

variable {s u : Text} {word statement word' statement' : Bool} {ps : List Piece}

/-- No word continues behind a line end. -/
theorem word_of_newline (h : Walk functions s word statement u ps word' statement')
    (hu : u.getLast? = some '\n') : word' = false := by
  induction h with
  | done => cases hu
  | @step word statement word' statement' c tail u p ps hp htext more ih =>
    rw [← List.cons_append] at hu
    rcases getLast?_append_cases hu with ⟨rfl, hlast⟩ | hlast
    · cases more
      rw [htext]
      exact endsWord_of_newline hlast
    · exact ih hlast

/-- The pieces of a walk are taken from its text. -/
theorem form_of_mem (h : Walk functions s word statement u ps word' statement') {c : Char}
    {found : Found} (hmem : .act c found ∈ ps) : ∃ rest, Form functions c found rest := by
  induction h with
  | done => cases hmem
  | @step word statement word' statement' d tail u p ps hp htext more ih =>
    rcases List.mem_cons.1 hmem with rfl | hmem
    · obtain ⟨rfl, hfound⟩ := piece?_eq_act_iff.1 hp
      obtain ⟨-, rest, -, hform⟩ := recognize_eq_some_iff.1 hfound
      exact ⟨rest, hform⟩
    · exact ih hmem

end Walk

namespace Piece

/-- Whether a piece is neither white space nor a comment. -/
def isCode : Piece → Bool
  | token _ _ .keeps => false
  | _ => true

/-- Whether a piece is a semicolon, a closing brace, or a directive that ends in a
semicolon. -/
def endsStatement : Piece → Bool
  | act _ found => found.tail.getLast? = some ';'
  | token _ _ effect => effect = .ends ∨ effect = .closes

/-- The last piece that is neither white space nor a comment. -/
def lastCode? (ps : List Piece) : Option Piece := ps.reverse.find? isCode

theorem lastCode?_cons (p : Piece) (ps : List Piece) :
    lastCode? (p :: ps) = (lastCode? ps).or (if p.isCode then some p else none) := by
  rw [lastCode?, List.reverse_cons, List.find?_append, List.find?_singleton]
  rfl

theorem statement_of_isCode (p : Piece) (h : p.isCode = true) (a b : Bool) :
    p.statement a = p.statement b := by
  cases p with
  | act => rfl
  | token c tail effect => cases effect <;> first | rfl | cases h

theorem statement_of_not_isCode (p : Piece) (h : ¬ p.isCode = true) (a : Bool) : p.statement a = a := by
  cases p with
  | act => exact absurd rfl h
  | token c tail effect => cases effect <;> first | rfl | exact absurd rfl h

end Piece

/-- Whether a statement can start behind a walk is decided by its last code. -/
theorem Walk.statement_eq {s u : Text} {word statement word' statement' : Bool} {ps : List Piece}
    (h : Walk functions s word statement u ps word' statement') :
    statement' = (Piece.lastCode? ps).elim statement (·.statement statement) := by
  induction h with
  | done => rfl
  | @step word statement word' statement' c tail u p ps hp htext more ih =>
    rw [Piece.lastCode?_cons, ih]
    cases hlast : Piece.lastCode? ps with
    | some q => exact q.statement_of_isCode (List.find?_some hlast) _ _
    | none =>
      by_cases hcode : p.isCode = true
      · rw [if_pos hcode]
        rfl
      · rw [if_neg hcode]
        exact p.statement_of_not_isCode hcode statement

/-- A directive that ends in a semicolon ends a statement. -/
theorem Form.atStatement {c : Char} {found : Found} {rest : Text} (h : Form functions c found rest)
    (hlast : found.tail.getLast? = some ';') : found.atStatement = true := by
  cases h with
  | imports => rfl
  | assign => rfl
  | call _ _ _ hbody _ =>
    have hparen := bracketTail_getLast? hbody
    simp [List.getLast?_append, List.getLast?_cons, hparen] at hlast

/-- A text that can stand in place of its import. -/
structure Includable (functions : FunctionTable) (t : Text) : Prop where
  error : (scan functions t).error? = none
  imports : ∀ d ∈ (scan functions t).directives, ∀ targets, d.kind ≠ .imports targets
  plain : (scan functions t).directives.getLast?.map Directive.kind = some .plain
  blocks : Piece.blocksAfter? 0 (lex functions false true t).1 = some 0
  code : ∀ p, Piece.lastCode? (lex functions false true t).1 = some p → p.endsStatement = true
  lineEnd : t.getLast? = some '\n'

def importsNothing : DirectiveKind → Bool
  | .imports _ => false
  | _ => true

theorem importsNothing_iff {kind : DirectiveKind} :
    importsNothing kind = true ↔ ∀ targets, kind ≠ .imports targets := by
  cases kind <;> simp [importsNothing]

instance (kind : DirectiveKind) : Decidable (∀ targets, kind ≠ .imports targets) :=
  decidable_of_iff _ importsNothing_iff

instance {t : Text} : Decidable (Includable functions t) :=
  decidable_of_iff ((scan functions t).error? = none ∧
      (∀ d ∈ (scan functions t).directives, ∀ targets, d.kind ≠ .imports targets) ∧
      (scan functions t).directives.getLast?.map Directive.kind = some .plain ∧
      Piece.blocksAfter? 0 (lex functions false true t).1 = some 0 ∧
      (Piece.lastCode? (lex functions false true t).1).all Piece.endsStatement = true ∧
      t.getLast? = some '\n')
    ⟨fun ⟨error, imports, plain, blocks, code, lineEnd⟩ =>
        ⟨error, imports, plain, blocks, fun p hp => by simpa [hp] using code, lineEnd⟩,
      fun h => ⟨h.error, h.imports, h.plain, h.blocks, by
        cases hp : Piece.lastCode? (lex functions false true t).1 with
        | none => rfl
        | some p => exact h.code p hp, h.lineEnd⟩⟩

/-- The pieces `ps` of a text, wherever it stands. -/
structure Inclusion (functions : FunctionTable) (t : Text) (ps : List Piece) : Prop where
  lex_eq : lex functions false true t = (ps, true)
  walk : ∀ s, Walk functions s false true t ps false true
  imports : ∀ p ∈ ps, ¬ p.Imports
  blocks : Piece.blocksAfter? 0 ps = some 0
  last : t = [] ∨ t.getLast? = some '\n' ∧ ∃ qs c tail effect, ps = qs ++ [.token c tail effect]

theorem Inclusion.nil : Inclusion functions [] [] :=
  ⟨by rw [lex], fun _ => .done _ _, nofun, rfl, .inl rfl⟩

theorem Includable.inclusion {t : Text} (h : Includable functions t) :
    Inclusion functions t (lex functions false true t).1 := by
  obtain ⟨hcomplete, word', statement', ds, cur, run, hwalk, htrail, hds⟩ := exists_trail h.error
  set ps := (lex functions false true t).1
  have hlast (c : Char) (found : Found) : ps.getLast? ≠ some (.act c found) := by
    intro hact
    obtain ⟨d, hd, hkind⟩ := getLast?_of_trail htrail hact
    obtain ⟨rest, hform⟩ := hwalk.form_of_mem (List.mem_of_getLast? hact)
    have hplain := h.plain
    rw [hds, hd] at hplain
    exact hform.kind_ne_plain (hkind.symm.trans (Option.some.inj hplain))
  have hstatement : statement' = true := by
    rw [hwalk.statement_eq]
    cases hcode : Piece.lastCode? ps with
    | none => rfl
    | some p =>
      have hends := h.code p hcode
      have hmem : p ∈ ps := List.mem_reverse.1 (List.mem_of_find?_eq_some hcode)
      cases p with
      | act c found =>
        obtain ⟨rest, hform⟩ := hwalk.form_of_mem hmem
        exact hform.atStatement (by simpa [Piece.endsStatement] using hends)
      | token c tail effect => cases effect <;> first | rfl | cases hends
  subst hstatement
  obtain rfl := hwalk.word_of_newline h.lineEnd
  refine ⟨Prod.ext rfl hcomplete, ?_, ?_, h.blocks, .inr ⟨h.lineEnd, ?_⟩⟩
  · exact hwalk.congr (.inr h.lineEnd) nofun fun _ => hlast
  · intro p hp himports
    cases p with
    | token => exact himports
    | act c found =>
      obtain ⟨targets, hkind⟩ := himports
      obtain ⟨d, hd, hkind', -⟩ := exists_mem_of_trail htrail hp
      exact h.imports d (by rw [hds]; simp [hd]) targets (hkind'.trans hkind)
  · rcases List.eq_nil_or_concat ps with hnil | ⟨qs, p, hconcat⟩
    · have htexts := hwalk.texts_eq
      rw [hnil] at htexts
      rw [← htexts] at h
      cases h.lineEnd
    · rw [List.concat_eq_append] at hconcat
      cases p with
      | act c found => exact absurd (by simp [hconcat]) (hlast c found)
      | token c tail effect => exact ⟨qs, c, tail, effect, hconcat⟩

end Scan

end StylePrep
