import StylePrep.Proofs.Includable
import StylePrep.Proofs.Values

/-!
# Statements in expressions

Imports and assignments belong into a sheet, not into a value. A scan of an expression starts where
no statement can, and with that it passes by any statement at the beginning. But semicolons and
braces make room for a statement wherever they stand, and a value can have them in its brackets. So
an expression has statements exactly where a semicolon or a brace of plain text comes before one
(`expression_statements_iff`), and an assignment can have such a value
(`scan_statement_in_value`).
-/

namespace StylePrep

/-- Kinds of directives that are statements: imports, and assignments of all kinds. -/
def DirectiveKind.isStatement : DirectiveKind → Bool
  | .imports _ => true
  | .sprite _ _ (some _) => true
  | .assign .. => true
  | _ => false

namespace Scan

open Text Delimited

variable {functions : FunctionTable}

/-- Whether a piece is plain text behind which a statement can start: a semicolon or a brace. -/
def Piece.makesRoom : Piece → Bool
  | .token _ _ effect => effect = .opens ∨ effect = .closes ∨ effect = .ends
  | .act _ _ => false

/-- A statement in an expression, `ps` being the pieces in front of it: they close no block that they
do not open, none of them is a statement, and the last of them that is neither white space nor a
comment makes room. -/
structure Exposed (functions : FunctionTable) (t : Text) (ps : List Piece) (c : Char)
    (found : Found) (rest : Text) : Prop where
  text : t = Piece.texts ps ++ c :: (found.tail ++ rest)
  walk : ∃ word statement, Walk functions (c :: (found.tail ++ rest)) false false (Piece.texts ps)
    ps word statement
  blocks : Piece.blocksAfter? 0 ps ≠ none
  first : ∀ c found, .act c found ∈ ps → found.kind.isStatement = false
  code : ∃ p, Piece.lastCode? ps = some p ∧ p.makesRoom = true
  form : Form functions c found rest
  statement : found.kind.isStatement = true

/-! ### Forms of statements -/

/-- Statements are what a statement can follow. -/
theorem Form.isStatement_eq {c : Char} {found : Found} {rest : Text}
    (h : Form functions c found rest) : found.kind.isStatement = found.atStatement := by
  cases h with
  | imports => rfl
  | assign =>
    rcases assignment_cases _ _ _ _ _ with hkind | ⟨args, hkind⟩ <;> rw [hkind] <;> rfl
  | call _ _ _ _ hkind =>
    rcases callKind?_cases hkind with ⟨f, args, rfl⟩ | ⟨args, rfl⟩ <;> rfl

theorem Form.sign_of_isStatement {c : Char} {found : Found} {rest : Text}
    (h : Form functions c found rest) (hstatement : found.kind.isStatement = true) :
    c = '@' ∨ c = '$' := by
  cases h with
  | imports => exact .inl rfl
  | assign => exact .inr rfl
  | call _ _ _ _ hkind =>
    rcases callKind?_cases hkind with ⟨f, args, rfl⟩ | ⟨args, rfl⟩ <;> cases hstatement

theorem Piece.makesRoom_of_statement {p : Piece} (h : p.statement false = true)
    (hact : ∀ c found, p = .act c found → found.atStatement = false) : p.makesRoom = true := by
  cases p with
  | act c found => exact absurd h (by simp [Piece.statement, hact c found rfl])
  | token c tail effect => cases effect <;> first | rfl | cases h

theorem Piece.statement_of_makesRoom {p : Piece} (h : p.makesRoom = true) (a : Bool) :
    p.statement a = true := by
  cases p with
  | act => cases h
  | token c tail effect => cases effect <;> first | rfl | cases h

/-! ### Blocks along a trail -/

/-- A trail ends early exactly if its pieces close a block that is not open. -/
theorem trail_eq_none_iff (ps : List Piece) (cur : Cursor) (run : Run) :
    trail cur run ps = none ↔ Piece.blocksAfter? cur.context.blocks.length ps = none := by
  induction ps generalizing cur run with
  | nil => simp [trail, Piece.blocksAfter?]
  | cons p ps ih =>
    cases p with
    | act c found =>
      rw [trail, Option.map_eq_none_iff, ih]
      rfl
    | token c tail effect =>
      have hrest (context : Context) (hresult : effect.result? cur.context = some context) :
          trail cur run (.token c tail effect :: ps) = none ↔
            Piece.blocksAfter? context.blocks.length ps = none := by
        rw [trail, hresult]
        exact ih _ _
      cases effect with
      | keeps => exact hrest _ rfl
      | enters => exact hrest { cur.context with atStatement := false } rfl
      | opens =>
        exact hrest ⟨cur.context.nextBlock :: cur.context.blocks, cur.context.nextBlock + 1, true⟩ rfl
      | ends => exact hrest { cur.context with atStatement := true } rfl
      | closes =>
        cases hblocks : cur.context.blocks with
        | nil => simp [trail, Effect.result?, hblocks, Piece.blocksAfter?]
        | cons block blocks =>
          rw [hrest { cur.context with blocks, atStatement := true } (by rw [Effect.result?, hblocks])]
          rfl

/-! ### Statements in expressions -/

section Expression

variable {line : Nat} {t : Text}

/-- The first statement that an expression has. -/
theorem exists_exposed {d : Directive} (hd : d ∈ (scanText functions .expression line t).directives)
    (hstatement : d.kind.isStatement = true) :
    ∃ ps c found rest, Exposed functions t ps c found rest := by
  obtain ⟨d, hfind⟩ := Option.isSome_iff_exists.1
    (List.find?_isSome (p := fun d => d.kind.isStatement).2 ⟨d, hd, hstatement⟩)
  obtain ⟨hstatement, ds, ds', hds, hfirst⟩ := List.find?_eq_some_iff_append.1 hfind
  have hplain : d.kind ≠ .plain := by
    intro hkind
    rw [hkind] at hstatement
    cases hstatement
  obtain ⟨u, ps, cur, run, c, found, rest, hr⟩ := exists_reached hds hplain
  obtain ⟨ds₀, v, indent, hreports⟩ := hr.reports
  rw [hreports.kind] at hstatement
  have hforms {c : Char} {found : Found} (hmem : .act c found ∈ ps) :
      found.kind.isStatement = false := by
    obtain ⟨e, he, hkind, -⟩ := exists_mem_of_trail hreports.trail hmem
    have hnot := hfirst e (hreports.front ▸ List.mem_append_left _ he)
    rw [← hkind]
    simpa using hnot
  have htexts := hr.walk.texts_eq
  subst htexts
  refine ⟨ps, c, found, rest, hr.text, ⟨_, _, hr.walk⟩, ?_, fun c found => hforms, ?_, hreports.form,
    hstatement⟩
  · intro hnone
    have htrail := hreports.trail
    rw [(trail_eq_none_iff ps (.start .expression line) _).2 hnone] at htrail
    cases htrail
  · -- a statement is looked for only where one can start
    have hat : cur.context.atStatement = true := by
      have hsign := hreports.form.sign_of_isStatement hstatement
      have hadmits := hreports.admits
      rwa [Admits, if_pos hsign] at hadmits
    have hcode := hr.walk.statement_eq
    rw [hat] at hcode
    cases hlastCode : Piece.lastCode? ps with
    | none =>
      rw [hlastCode] at hcode
      cases hcode
    | some p =>
      rw [hlastCode] at hcode
      have hmem : p ∈ ps := List.mem_reverse.1 (List.mem_of_find?_eq_some hlastCode)
      refine ⟨p, rfl, Piece.makesRoom_of_statement hcode.symm ?_⟩
      rintro c found rfl
      obtain ⟨rest, hform⟩ := hr.walk.form_of_mem hmem
      rw [← hform.isStatement_eq]
      exact hforms hmem

/-- What an expression is scanned to in front of a statement. -/
theorem Exposed.exists_mem {ps : List Piece} {c : Char} {found : Found} {rest : Text}
    (h : Exposed functions t ps c found rest) :
    ∃ d ∈ (scanText functions .expression line t).directives, d.kind = found.kind := by
  obtain ⟨word, statement, hwalk⟩ := h.walk
  have hstart : Shows (Cursor.start .expression line) false false := ⟨rfl, rfl⟩
  obtain ⟨hsome, -⟩ := hwalk.scanFrom_eq hstart (.fresh (.start .expression line))
  cases htrail : trail (Cursor.start .expression line) (.fresh (.start .expression line)) ps with
  | none => exact absurd ((trail_eq_none_iff _ _ _).1 htrail) h.blocks
  | some result =>
    obtain ⟨ds, cur, run⟩ := result
    obtain ⟨hcur, hscan⟩ := hsome ds cur run htrail
    have hstatement : statement = true := by
      obtain ⟨p, hp, hroom⟩ := h.code
      rw [hwalk.statement_eq, hp]
      exact p.statement_of_makesRoom hroom false
    have hadmits : Admits cur c := by
      rw [Admits, if_pos (h.form.sign_of_isStatement h.statement), hcur.statement, hstatement]
    have hfound : recognize functions cur c (found.tail ++ rest) = .ok (some found) :=
      recognize_eq_some_iff.2 ⟨hadmits, rest, rfl, h.form⟩
    obtain ⟨u, indent, span, -, hcomplete, -⟩ := complete_eq cur run c found
    refine ⟨⟨found.kind, span, indent ++ c :: found.tail, cur.scope⟩, ?_, rfl⟩
    rw [scanText, h.text, hscan, scanFrom, hfound]
    simp [Outcome.prepend, hcomplete]

end Expression

/-- An expression has statements exactly where a semicolon or a brace of plain text makes room for
one. -/
theorem expression_statements_iff (functions : FunctionTable) (line : Nat) (t : Text) :
    (∃ d ∈ (scanText functions .expression line t).directives, d.kind.isStatement = true) ↔
      ∃ ps c found rest, Exposed functions t ps c found rest := by
  constructor
  · rintro ⟨d, hd, hstatement⟩
    exact exists_exposed hd hstatement
  · rintro ⟨ps, c, found, rest, h⟩
    obtain ⟨d, hd, hkind⟩ : ∃ d ∈ (scanText functions .expression line t).directives,
        d.kind = found.kind := h.exists_mem
    exact ⟨d, hd, hkind ▸ h.statement⟩

/-- The value of a variable can have such a semicolon in its brackets. -/
theorem scan_statement_in_value :
    (scan .empty "$v: (a; $b: c);\n".toList).directives.head?.map Directive.kind =
        some (.assign "v".toList "$v: ".toList "(a; $b: c)".toList ";".toList {}) ∧
      (scanText .empty .expression 1 "(a; $b: c)".toList).directives.map Directive.kind =
        [.plain, .assign "b".toList "$b: ".toList "c)".toList [] {}] := by
  decide +kernel

end Scan

end StylePrep
