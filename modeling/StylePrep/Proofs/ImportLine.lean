import StylePrep.Proofs.Mirror
import StylePrep.Proofs.Reached
import StylePrep.Proofs.Seams

/-!
# An import on a line of its own

The text of a sheet is `pre ++ line ++ post`, and `line` is an import that stands alone on
its line, with its indentation and its line end. A scan reports it as one directive,
behind the directives `ds` of `pre`.

Seen from the pieces (`Approach`), the pieces of `pre` come first, then one for each blank
of the indentation, and then the import. Seen from an assembly, adding `ds` and moving to
the scope of the import is what playing these pieces comes to (`Approach.reach`).
-/

namespace StylePrep

namespace Scan

open Text Delimited

variable {functions : FunctionTable}

/-- An import that stands alone on its line: `ds` are the directives in front of it. -/
structure ImportAlone (functions : FunctionTable) (pre line post : Text) (ds : List Directive)
    (d : Directive) (targets : List Text) : Prop where
  directives : ∃ ds', (scan functions (pre ++ line ++ post)).directives = ds ++ d :: ds'
  texts : Directive.texts ds = pre
  raw : d.raw = line
  kind : d.kind = .imports targets
  start : pre = [] ∨ pre.getLast? = some '\n'
  lineEnd : line.getLast? = some '\n'

/-- The pieces that lead up to an import, spelled `indent ++ '@' :: tail`, in the scope
`scope`. -/
structure Approach (functions : FunctionTable) (pre indent tail post : Text) (ds : List Directive)
    (scope : List Nat) (targets : List Text) (front blanks : List Piece) (word : Bool) : Prop where
  walk : Walk functions (indent ++ '@' :: (tail ++ post)) false true pre front word true
  indented : ∃ word', Walk functions ('@' :: (tail ++ post)) word true indent blanks word' true
  start : pre = [] ∨ pre.getLast? = some '\n'
  blank : ∀ c ∈ indent, isBlank c = true
  form : Form functions '@' ⟨.imports targets, tail, true⟩ post
  lineEnd : ('@' :: tail).getLast? = some '\n'
  trail : ∃ ds₀ cur run u, Scan.trail (.start .sheet 1) (.fresh (.start .sheet 1)) (front ++ blanks) =
      some (ds₀, cur, run) ∧
    run.text = u ++ run.indent ∧ ds = ds₀ ++ ({ run with text := u } : Run).flush ∧ cur.scope = scope

/-- A directive that imports starts with `@`, and a statement can follow it. -/
theorem Form.eq_of_imports {c : Char} {found : Found} {rest : Text} {targets : List Text}
    (h : Form functions c found rest) (hkind : found.kind = .imports targets) :
    c = '@' ∧ found = ⟨.imports targets, found.tail, true⟩ := by
  cases h with
  | imports =>
    cases hkind
    exact ⟨rfl, rfl⟩
  | assign =>
    simp only [assignment] at hkind
    split at hkind
    · split at hkind <;> cases hkind
    · cases hkind
  | call _ _ _ _ hcall =>
    simp only at hkind
    subst hkind
    unfold callKind? at hcall
    split at hcall
    · cases hcall
    · cases hcall
    · split at hcall <;> cases hcall

theorem ImportAlone.approach {pre line post : Text} {ds : List Directive} {d : Directive}
    {targets : List Text} (h : ImportAlone functions pre line post ds d targets) :
    ∃ indent tail front blanks word, line = indent ++ '@' :: tail ∧
      Approach functions pre indent tail post ds d.scope targets front blanks word := by
  obtain ⟨ds', hds⟩ := h.directives
  have hplain : d.kind ≠ .plain := by simp [h.kind]
  obtain ⟨u, ps, cur, run, c, found, rest, hr⟩ := exists_reached hds hplain
  obtain ⟨ds₀, v, indent, hreports⟩ := hr.reports
  obtain rfl := hreports.imports targets h.kind
  -- The pieces in front of the import spell `pre` and the indentation.
  have hu : u = pre ++ run.indent := h.texts ▸ hreports.before.symm
  have hline : line = run.indent ++ c :: found.tail := h.raw.symm.trans hreports.raw
  have hrest : rest = post := by
    have htext := hr.text
    rw [hu, hline] at htext
    simpa using htext.symm
  subst hrest
  obtain ⟨rfl, hfound⟩ := hreports.form.eq_of_imports (hreports.kind ▸ h.kind)
  have hstatement : cur.context.atStatement = true := by simpa [Admits] using hreports.admits
  have hwalk := hr.walk
  rw [hu, hstatement] at hwalk
  obtain ⟨front, blanks, word, rfl, hfront, hblanks⟩ := hwalk.split_blanks h.start hreports.blank rfl
  have hend : ('@' :: found.tail).getLast? = some '\n' := by
    have hlast := h.lineEnd
    rw [hline] at hlast
    exact (getLast?_append_cases hlast).resolve_left fun hnil => List.cons_ne_nil _ _ hnil.1
  exact ⟨run.indent, found.tail, front, blanks, word, hline, hfront, ⟨_, hblanks⟩, h.start,
    hreports.blank, hfound ▸ hreports.form, hend, ds₀, cur, run, v, hreports.trail, hreports.collected,
    hreports.front, hreports.scope.symm⟩

/-- The indentation of an import is what it seems to be. -/
theorem ImportAlone.approach_of_blank {pre indent tail post : Text} {ds : List Directive}
    {d : Directive} {targets : List Text}
    (h : ImportAlone functions pre (indent ++ '@' :: tail) post ds d targets)
    (hindent : ∀ c ∈ indent, isBlank c = true) :
    ∃ front blanks word,
      Approach functions pre indent tail post ds d.scope targets front blanks word := by
  obtain ⟨indent', tail', front, blanks, word, hline, happroach⟩ := h.approach
  have hstops (t : Text) : Stops isBlank ('@' :: t) := stops_cons rfl _
  obtain rfl : indent = indent' := by
    have htake := congrArg (List.takeWhile isBlank) hline
    rwa [takeWhile_append_of_stops hindent (hstops _),
      takeWhile_append_of_stops happroach.blank (hstops _)] at htake
  obtain rfl : tail = tail' := (List.cons.inj (List.append_cancel_left hline)).2
  exact ⟨front, blanks, word, happroach⟩

/-! ### Other texts in place of the import -/

theorem endsWord_of_newline {t : Text} (h : t.getLast? = some '\n') : endsWord t = false := by
  rw [endsWord, h]
  decide

/-- White space is walked over whatever comes behind it. -/
theorem Walk.of_space {s u : Text} {word statement word' statement' : Bool} {ps : List Piece}
    (h : Walk functions s word statement u ps word' statement')
    (hu : ∀ c ∈ u, isAsciiSpace c = true) (s' : Text) :
    Walk functions s' word statement u ps word' statement' := by
  induction h with
  | done => exact .done _ _
  | @step word statement word' statement' c tail u p ps hp htext more ih =>
    have hspace (t : Text) : piece? functions word statement c t = some (.token c [] .keeps) :=
      piece?_space word statement (hu c List.mem_cons_self) t
    obtain rfl : Piece.token c [] .keeps = p := Option.some.inj ((hspace _).symm.trans hp)
    have hmore := ih fun d hd => hu d (List.mem_cons_of_mem _ (List.mem_append_right _ hd))
    exact .step (hspace _) htext hmore

namespace Approach

variable {pre indent tail post : Text} {ds : List Directive} {scope : List Nat} {targets : List Text}
variable {front blanks : List Piece} {word : Bool}

/-- What stands in front of an import has the same pieces in front of any other text. -/
theorem walk_pre (h : Approach functions pre indent tail post ds scope targets front blanks word)
    (s : Text) : Walk functions s false true pre front word true := by
  refine h.walk.congr h.start ?_ (fun hnil => ?_) s
  · intro c hc
    rw [List.dropWhile_append_of_pos fun c hc => isAsciiSpace_of_isBlank (h.blank c hc)] at hc
    exact (Option.some.inj hc).symm
  · exact absurd hnil (by simp)

/-- So does the indentation. -/
theorem walk_indent (h : Approach functions pre indent tail post ds scope targets front blanks word)
    (s : Text) : ∃ word', Walk functions s false true (pre ++ indent) (front ++ blanks) word' true := by
  obtain ⟨word', hindented⟩ := h.indented
  exact ⟨word', (h.walk_pre _).append
    (hindented.of_space (fun c hc => isAsciiSpace_of_isBlank (h.blank c hc)) s)⟩

/-- The pieces of the whole text. -/
theorem lex_eq (h : Approach functions pre indent tail post ds scope targets front blanks word) :
    lex functions false true (pre ++ (indent ++ '@' :: tail) ++ post) =
      (front ++ blanks ++ .act '@' ⟨.imports targets, tail, true⟩ :: (lex functions false true post).1,
        (lex functions false true post).2) := by
  obtain ⟨word', hwalk⟩ := h.walk_indent ('@' :: tail ++ post)
  have hpiece : piece? functions word' true '@' (tail ++ post) =
      some (.act '@' ⟨.imports targets, tail, true⟩) :=
    piece?_eq_act_iff.2 ⟨rfl, recognize_eq_some_iff.2 ⟨by simp [Admits], post, rfl, h.form⟩⟩
  have himport : Walk functions post word' true ('@' :: (tail ++ []))
      [.act '@' ⟨.imports targets, tail, true⟩] false true := by
    refine .step hpiece rfl ?_
    rw [show endsWord (Piece.act '@' ⟨.imports targets, tail, true⟩).text = false from
      endsWord_of_newline h.lineEnd]
    exact .done _ _
  rw [List.append_nil] at himport
  have hlex := (hwalk.append himport).lex_eq
  simpa using hlex

end Approach

end Scan

namespace Stage

def landed (stage : Stage) (out : Text) : Stage :=
  { stage with line := [], clear := true, low := stage.depth, anchor := stage.depth, out }

theorem land_eq (stage : Stage) {t : Text} (h : t.getLast? = some '\n') (out : Text) :
    stage.land t out = stage.landed out := by
  rw [land, Text.lineAfter_eq_nil h]
  rfl

@[simp] theorem unindented_landed (stage : Stage) (out : Text) : (stage.landed out).unindented = out := by
  simp [landed, unindented, indent]

end Stage

namespace Assembly

open Step Scan VariableTable

variable {options : Options} {loader : Loader} {nested : Importer} {player : Player} {dir : Path}

theorem playPieces_append (stage : Stage) (ps qs : List Piece) :
    playPieces options loader player dir stage (ps ++ qs) = (do
      let stage ← playPieces options loader player dir stage ps
      playPieces options loader player dir stage qs) := by
  induction ps generalizing stage with
  | nil => simp [playPieces]
  | cons p ps ih => simp [playPieces, ih]

/-- Playing a single import that ends its line. -/
theorem returns_playPiece_imports {targets : List Text} {tail : Text} {stage stage' : Stage}
    {t t' : Session} (htail : ('@' :: tail).getLast? = some '\n') :
    Returns (playPiece options loader player dir stage (.act '@' ⟨.imports targets, tail, true⟩)) t
        stage' t' ↔
      ∃ out, Returns (playAll options loader player dir targets stage.unindented)
        { t with vars := t.vars.shift stage.low stage.depth } out t' ∧ stage' = stage.landed out := by
  rw [returns_playPiece_act]
  simp only [stage.land_eq htail]
  rfl

variable (loader) in
/-- Adding the directives in front of an import agrees with playing the pieces in front of
it. Behind them the outputs are the same, and moving to the scope of the import, which is
the innermost one then, makes the variables the same. -/
theorem reach (hnested : Mirrors nested player) {pre indent tail post : Text} {ds : List Directive}
    {scope : List Nat} {targets : List Text} {front blanks : List Piece} {word : Bool}
    (h : Approach options.functions pre indent tail post ds scope targets front blanks word)
    {s : Session} {id : FileId} {source : SourceFile} (hsource : s.files[id]? = some source)
    (path dir : Path) :
    Agree (fun map s' stage t' => map.Has stage.unindented ∧
        ({ t' with vars := t'.vars.shift stage.low stage.depth } : Session) =
          ({ s' with vars := s'.vars.sync s.vars.innermost id scope } : Session).bare ∧
        (s'.vars.sync s.vars.innermost id scope).innermost = stage.depth)
      (addDirectives options loader nested id path dir s.vars.innermost [] .empty ds)
      (playPieces options loader player dir (.start s.vars.innermost) (front ++ blanks)) s s.bare := by
  obtain ⟨ds₀, cur, run, u, htrail, hrun, rfl, rfl⟩ := h.trail
  have hpieces := (Matches.initial hsource).pieces options loader nested path dir hnested htrail
  rw [length_labels] at hpieces
  rw [addDirectives_append, ← bind_pure (playPieces options loader player dir _ _)]
  refine .bind hpieces fun map s' stage t' hm => ?_
  obtain ⟨map', vars, out, hflush, hhas, hout, hlabels, hsession⟩ :=
    hm.arrive options loader nested path dir hrun
  have hdepth : (vars.sync s.vars.labels.length id cur.scope).innermost = stage.depth := by
    rw [← length_labels, hlabels, hm.depth]
    simp [Cursor.scope]
  rw [length_labels] at hflush hsession hdepth
  exact .of_returns hflush (returns_pure.2 ⟨rfl, rfl⟩)
    ⟨hm.unindented_eq hout ▸ hhas, hsession, hdepth⟩

end Assembly

end StylePrep
