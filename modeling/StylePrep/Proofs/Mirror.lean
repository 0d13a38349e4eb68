import StylePrep.Proofs.Direct

/-!
# Assembling is playing

The assembly of a file and the play of its text agree: both fail, or both succeed with
the same output, the same workspace and the same variables, but for the labels of the
scopes (`play_mirrors`).

The relation that is kept (`Matches`) compares a point between two pieces. There the
assembly has added all directives before the current run, and the play has written
the run as well; the assembly has the scopes of the last directive, labelled, and the
play the same ones without labels. A token changes only the run. A directive first
flushes the run, which drops the scopes that imports have left open, and then moves
to the scope it stands in.
-/

namespace StylePrep

open Text

/-! ### Outputs of line maps -/

namespace LineMap

/-- The output of a map, and the state of its last line. -/
structure Has (m : LineMap) (t : Text) : Prop where
  buffer : m.buffer = t
  isOpen : m.isOpen = t.isOpen

namespace Has

variable {m child : LineMap} {t u : Text}

theorem empty : LineMap.empty.Has [] := ⟨rfl, rfl⟩

theorem push (h : m.Has t) (c : Char) (origin : Origin) : (m.push [c] origin).Has (t ++ [c]) :=
  ⟨by simp [h.buffer], by by_cases hc : c = '\n' <;> simp [LineMap.push, hc]⟩

theorem append (h : m.Has t) (u : Text) (file : FileId) (line : Nat) :
    (m.append u file line).Has (t ++ u) := by
  induction u generalizing m t line with
  | nil => simpa using h
  | cons c u ih =>
    rw [append_cons, List.append_cons]
    exact ih (h.push c _) _

theorem generate (h : m.Has t) (u : Text) (file : FileId) (line : Nat) :
    (m.generate u file line).Has (t ++ u) := by
  induction u generalizing m t with
  | nil => simpa using h
  | cons c u ih =>
    rw [generate_cons, List.append_cons]
    exact ih (h.push c _)

theorem close (h : m.Has t) : m.closeLine.Has t.closed := by
  unfold closeLine closed
  rw [h.isOpen]
  split
  · exact ⟨by rw [h.buffer], by simp⟩
  · exact h

theorem splice (h : m.Has t) (hchild : child.Has u) : (m.splice child).Has (t.spliced u) := by
  unfold LineMap.splice spliced
  rw [hchild.buffer]
  split
  · exact h
  case isFalse hu =>
    refine Has.close ⟨by rw [h.close.buffer], ?_⟩
    rw [hchild.isOpen, isOpen_append _ hu]

end Has

end LineMap

/-! ### Lines and runs -/

namespace Text

theorem lineAfter_eq (t : Text) :
    lineAfter [] t = (t.reverse.takeWhile (· != '\n')).reverse := by
  induction t using List.reverseRecOn with
  | nil => rfl
  | append_singleton t c ih =>
    rw [lineAfter_concat, List.reverse_append, List.reverse_singleton, List.singleton_append,
      List.takeWhile_cons]
    by_cases hc : c = '\n' <;> simp [hc, ih]

theorem lineIndent_eq (t : Text) : Assembly.lineIndent t = (lineAfter [] t).takeWhile isBlank := by
  rw [lineAfter_eq]
  rfl

theorem length_lineAfter_le (t : Text) : (lineAfter [] t).length ≤ t.length := by
  induction t using List.reverseRecOn with
  | nil => exact Nat.le_refl 0
  | append_singleton t c ih =>
    rw [lineAfter_concat]
    split <;> simp [ih]

/-- A line is clear if it holds only blanks and starts within the text, or where the
text starts. -/
theorem clearAfter_eq (clear : Bool) (t : Text) :
    clearAfter clear t = ((lineAfter [] t).all isBlank &&
      (decide ((lineAfter [] t).length < t.length) || clear)) := by
  induction t using List.reverseRecOn with
  | nil => simp
  | append_singleton t c ih =>
    rw [clearAfter_concat, lineAfter_concat, ih]
    by_cases hc : c = '\n'
    · simp [hc]
    · have hbeq : (c == '\n') = false := by simp [hc]
      rw [if_neg hc, hbeq, List.all_append, List.length_append, List.length_append]
      cases hall : (lineAfter [] t).all isBlank <;> cases hblank : isBlank c <;> simp [hblank]

/-- A line that a text does not end continues the line it starts in. -/
theorem lineAfter_of_length_eq {t : Text} (h : (lineAfter [] t).length = t.length) (line : Text) :
    lineAfter line t = line ++ t := by
  induction t using List.reverseRecOn with
  | nil => simp
  | append_singleton t c ih =>
    rw [lineAfter_concat] at h ⊢
    by_cases hc : c = '\n'
    · simp [hc] at h
    · rw [if_neg hc] at h ⊢
      simp only [List.length_append] at h
      rw [ih (by omega), List.append_assoc]

/-- A line that starts within a text does not depend on what comes before it. -/
theorem lineAfter_of_length_lt {t : Text} (h : (lineAfter [] t).length < t.length) (line : Text) :
    lineAfter line t = lineAfter [] t := by
  induction t using List.reverseRecOn with
  | nil => simp at h
  | append_singleton t c ih =>
    rw [lineAfter_concat] at h ⊢
    rw [lineAfter_concat]
    by_cases hc : c = '\n'
    · simp [hc]
    · rw [if_neg hc] at h
      simp only [List.length_append] at h
      rw [ih (by simpa using h)]

end Text

/-- Columns count the characters of the line. -/
theorem Location.column_advance (l : Location) {line : Text} (h : l.column = line.length + 1)
    (t : Text) : (l.advance t).column = (lineAfter line t).length + 1 := by
  induction t generalizing l line with
  | nil => exact h
  | cons c t ih =>
    refine ih (l.next c) ?_
    unfold Location.next
    by_cases hc : c = '\n' <;> simp [hc, h]

namespace Scan

/-- The indentation that a run ends with, read off the current line. -/
theorem Run.indent_eq {run : Run} {line : Text} (h : run.start.column = line.length + 1) :
    run.indent = if clearAfter (decide (run.start.column = 1)) run.text then lineAfter line run.text
      else [] := by
  unfold Run.indent
  simp only [← lineAfter_eq]
  rw [clearAfter_eq]
  have hle := length_lineAfter_le run.text
  by_cases hall : (lineAfter [] run.text).all isBlank = true
  · by_cases hlt : (lineAfter [] run.text).length < run.text.length
    · simp [hall, hlt, lineAfter_of_length_lt hlt]
    · have heq : (lineAfter [] run.text).length = run.text.length := by omega
      by_cases hstart : run.start.column = 1
      · have hline : line = [] := List.eq_nil_of_length_eq_zero (by omega)
        simp [hall, hstart, hline]
      · simp [hlt, hstart]
  · simp [hall]

end Scan

/-- The session as a play sees it: without the files that were read and without the
labels of scopes. -/
def Session.bare (s : Session) : Session := { s with files := [], vars := s.vars.bare }

namespace Assembly

open Step Scan VariableTable

variable {options : Options} {loader : Loader} {nested : Importer} {player : Player}
variable {file : FileId} {path dir : Path} {base : Nat}

theorem addDirectives_append (before : Text) (map : LineMap) (ds ds' : List Directive) :
    addDirectives options loader nested file path dir base before map (ds ++ ds') = (do
      let map ← addDirectives options loader nested file path dir base before map ds
      addDirectives options loader nested file path dir base (before ++ Directive.texts ds) map
        ds') := by
  induction ds generalizing before map with
  | nil => simp [addDirectives]
  | cons d ds ih => simp [addDirectives, ih]

theorem returns_addDirectives_cons {base : Nat} {before : Text} {map map' : LineMap} {d : Directive}
    {ds : List Directive} {s s' : Session} :
    Returns (addDirectives options loader nested file path dir base before map (d :: ds)) s map' s' ↔
      ∃ map₁ s₁, Returns (addDirective options loader nested file dir before map d)
          { s with vars := s.vars.sync base file d.scope } map₁ s₁ ∧
        Returns (addDirectives options loader nested file path dir base (before ++ d.raw) map₁ ds) s₁
          map' s' := by
  simp [addDirectives, returns_bind]

/-! ### Imports -/

/-- An assembly from `s` and a play have gone on alike. Scopes were left open only by
files from number `bound` on. -/
structure Mirrored (s : Session) (bound : FileId) (map : LineMap) (s' : Session) (out : Text)
    (t' : Session) : Prop where
  has : map.Has out
  session : t' = s'.bare
  files : bound ≤ s'.files.length
  labels : ∃ left, s'.vars.labels = s.vars.labels ++ left ∧ ∀ l ∈ left, bound ≤ l.1

theorem Mirrored.trans {s s₁ s₂ t₁ t₂ : Session} {bound bound' : FileId} {map map' : LineMap}
    {out out' : Text} (first : Mirrored s bound map s₁ out t₁)
    (second : Mirrored s₁ bound' map' s₂ out' t₂) (hbound : bound ≤ bound') :
    Mirrored s bound map' s₂ out' t₂ := by
  obtain ⟨left, hleft, hall⟩ := first.labels
  obtain ⟨left', hleft', hall'⟩ := second.labels
  refine ⟨second.has, second.session, Nat.le_trans hbound second.files, left ++ left', ?_, ?_⟩
  · rw [hleft', hleft, List.append_assoc]
  · intro l hl
    rcases List.mem_append.1 hl with hl | hl
    · exact hall l hl
    · exact Nat.le_trans hbound (hall' l hl)

/-- The assembly of imported files agrees with the play of their texts. -/
def Mirrors (nested : Importer) (player : Player) : Prop :=
  ∀ (id : FileId) (dir : Path) (s : Session) (source : SourceFile), s.files[id]? = some source →
    Agree (Mirrored s id) (nested id dir) (player source.text dir) s s.bare

theorem playTarget_agree (hnested : Mirrors nested player) (target : Text) (s : Session) :
    Agree (Mirrored s s.files.length) (importTarget options loader nested file dir target)
      (playTarget options loader player dir target) s s.bare := by
  refine .get_bind (.ofExcept_bind fun path _ => .get_bind (.ofExcept_bind fun stack _ => ?_))
  refine .modify_bind (.ofExcept_bind fun (path, text) _ => .addFile_bind ?_)
  refine .bind (hnested s.files.length _ _ ⟨path, text, some file⟩ (by simp)) fun map s' out t' h => ?_
  obtain rfl := h.session
  exact .modify_bind (.pure ⟨h.has, rfl, h.files, h.labels⟩)

variable (options loader file dir) in
theorem playAll_agree (hnested : Mirrors nested player) (targets : List Text) {s : Session}
    {map : LineMap} {out : Text} (hmap : map.Has out) :
    Agree (Mirrored s s.files.length) (importAll options loader nested file dir targets map)
      (playAll options loader player dir targets out) s s.bare := by
  induction targets generalizing s map out with
  | nil => exact .pure ⟨hmap, rfl, Nat.le_refl _, [], by simp, by simp⟩
  | cons target targets ih =>
    refine .bind (playTarget_agree hnested target s) fun child s' text t' h => ?_
    obtain rfl := h.session
    exact (ih (hmap.splice h.has)).mono fun map' s'' out' t'' h' => h.trans h' h.files

/-! ### Replaced directives -/

theorem level_bare (s : Session) : Level s s.bare := ⟨rfl, get?_bare s.vars⟩

theorem Update.bare {f : VariableTable → VariableTable} (hf : Update f) (table : VariableTable) :
    (f table).bare = f table.bare := by
  cases hf with
  | none => rfl
  | assign name value flags => exact bare_assign table name value flags

theorem Update.labels {f : VariableTable → VariableTable} (hf : Update f) (table : VariableTable) :
    (f table).labels = table.labels := by
  cases hf with
  | none => rfl
  | assign name value flags => exact labels_assign table name value flags

variable (loader nested file dir) in
/-- What a directive other than an import adds to the output. -/
theorem addDirective_replacement (before : Text) {map : LineMap} {out : Text} (hmap : map.Has out)
    {d : Directive} (hd : ∀ targets, d.kind ≠ .imports targets) (s : Session) :
    Agree (fun map' s' text t' => map'.Has (out ++ text) ∧ t' = s')
      (addDirective options loader nested file dir before map d)
      (replacement options d.line (lineIndent before) d.raw d.kind) s s := by
  unfold addDirective
  cases hkind : d.kind with
  | plain => exact .pure ⟨hmap.append _ _ _, rfl⟩
  | imports targets => exact absurd hkind (hd targets)
  | assign name lead value tail flags =>
    refine .bind_same fun value? s₁ _ => ?_
    cases value? with
    | none => exact .modifyVars_bind (.pure ⟨hmap.append _ _ _, rfl⟩)
    | some expanded =>
      refine .modifyVars_bind (.pure ⟨?_, rfl⟩)
      simpa using ((hmap.append lead file d.line).generate expanded file d.line).append tail file _
  | sprite function args binding =>
    refine .bind_same fun expansion s₁ _ => ?_
    cases binding with
    | none => exact .pure ⟨hmap.generate _ _ _, rfl⟩
    | some binding =>
      cases expansion.sheet? with
      | none => exact .pure ⟨hmap.generate _ _ _, rfl⟩
      | some sheet => exact .modifyVars_bind (.pure ⟨hmap.generate _ _ _, rfl⟩)
  | custom name args =>
    exact .bind_pure fun text s₁ => ⟨hmap.generate text _ _, rfl⟩

/-- Adding a directive agrees with performing it, if the output in front of it is the
same. An import does without the blanks in front of it. -/
theorem addDirective_perform (hnested : Mirrors nested player) {before raw : Text} {map : LineMap}
    {d : Directive} {stage : Stage} {s : Session}
    (himports : ∀ targets, d.kind = .imports targets → map.Has stage.unindented)
    (hothers : (∀ targets, d.kind ≠ .imports targets) →
      map.Has stage.out ∧ d.raw = raw ∧ lineIndent before = stage.line.takeWhile isBlank) :
    Agree (Mirrored s s.files.length) (addDirective options loader nested file dir before map d)
      (perform options loader player dir stage raw d.kind) s s.bare := by
  by_cases hkind : ∃ targets, d.kind = .imports targets
  · obtain ⟨targets, hkind⟩ := hkind
    unfold addDirective
    rw [hkind]
    exact playAll_agree options loader file dir hnested targets (himports targets hkind)
  · have hd : ∀ targets, d.kind ≠ .imports targets := fun targets h => hkind ⟨targets, h⟩
    obtain ⟨hmap, rfl, hindent⟩ := hothers hd
    rw [perform_eq_replacement hd, ← hindent]
    have hreplaced := (addDirective_replacement loader nested file dir before hmap hd s).trans
      (replacement_agree (level_bare s) options d.line 0 (lineIndent before) d.raw d.kind)
      (S := fun map' s' text t' => Mirrored s s.files.length map' s' (stage.out ++ text) t') ?_
    · rw [← bind_pure (addDirective options loader nested file dir before map d)]
      exact .bind hreplaced fun map' s' text t' h => .pure h
    · rintro map' s' text _ _ t' ⟨hhas, rfl⟩ ⟨rfl, w, f, hf, rfl, rfl⟩
      refine ⟨hhas, ?_, Nat.le_refl _, [], ?_, by simp⟩
      · simp only [Session.bare]
        rw [hf.bare]
      · simp [hf.labels]

/-! ### Points that match -/

/-- A point of an assembly and a point of a play match. `L` are the labels of the scopes
that the file was entered in; above the scopes of the run, only blocks of files with
higher numbers are open. -/
structure Matches (file : FileId) (L : List Label) (cur : Cursor) (run : Run) (before : Text)
    (map : LineMap) (s : Session) (stage : Stage) (t : Session) : Prop where
  has : ∃ out, map.Has out ∧ stage.out = out ++ run.text
  place : cur.place.column = stage.line.length + 1
  start : run.start.column = (lineAfter [] before).length + 1
  line : stage.line = lineAfter [] (before ++ run.text)
  clear : stage.clear = clearAfter (decide (run.start.column = 1)) run.text
  floor : stage.floor = L.length
  depth : stage.depth = L.length + cur.context.blocks.length
  anchor : stage.anchor = L.length + run.scope.length
  low : stage.low = L.length + common run.scope cur.scope
  ordinals : ∀ n ∈ run.scope ++ cur.context.blocks, n < cur.context.nextBlock
  session : t = { s.bare with
    vars := if run.text = [] then s.vars.bare else s.vars.bare.keep stage.anchor }
  labels : ∃ left, s.vars.labels = L ++ run.scope.map (file, ·) ++ left ∧ ∀ l ∈ left, file < l.1
  file : file < s.files.length

namespace Matches

variable {L : List Label} {cur : Cursor} {run : Run} {before : Text} {map : LineMap} {s t : Session}
variable {stage : Stage}

theorem indent_eq (h : Matches file L cur run before map s stage t) : run.indent = stage.indent := by
  rw [Run.indent_eq h.start, ← h.clear, ← lineAfter_append, ← h.line]
  rfl

/-- Whatever a token does to the blocks, it goes into the run and into the output. -/
theorem extend (h : Matches file L cur run before map s stage t) (c : Char) (tail : Text)
    {context : Context} {depth low : Nat} (hdepth : depth = L.length + context.blocks.length)
    (hlow : low = L.length + common run.scope context.blocks.reverse)
    (hordinals : ∀ n ∈ run.scope ++ context.blocks, n < context.nextBlock) :
    Matches file L (cur.step c tail context) (run.extend (c :: tail)) before map s
      { stage.copy (c :: tail) with depth, low } { t with vars := t.vars.keep stage.anchor } where
  has := by
    obtain ⟨out, hout, hstage⟩ := h.has
    exact ⟨out, hout, by simp [Stage.copy, Run.extend, hstage]⟩
  place := Location.column_advance _ h.place _
  start := h.start
  line := by
    rw [Run.extend, ← List.append_assoc, lineAfter_append, ← h.line]
    rfl
  clear := by
    rw [Run.extend, clearAfter_append, ← h.clear]
    rfl
  floor := h.floor
  depth := hdepth
  anchor := h.anchor
  low := hlow
  ordinals := hordinals
  session := by
    have hvars : t.vars.keep stage.anchor = s.vars.bare.keep stage.anchor := by
      rw [h.session]
      dsimp only
      split
      · rfl
      · exact keep_keep (Nat.le_refl _)
    rw [hvars, if_neg (by simp [Run.extend]), h.session]
    rfl
  labels := h.labels
  file := h.file

/-- A token that opens or closes a block moves the stage as it moves the cursor. -/
theorem token (h : Matches file L cur run before map s stage t) (c : Char) (tail : Text)
    {effect : Effect} {context : Context} (hcontext : effect.result? cur.context = some context) :
    ∃ next, (stage.copy (c :: tail)).move? effect = some next ∧
      Matches file L (cur.step c tail context) (run.extend (c :: tail)) before map s next
        { t with vars := t.vars.keep stage.anchor } := by
  have hrun : ∀ n ∈ run.scope, n < cur.context.nextBlock :=
    fun n hn => h.ordinals n (List.mem_append_left _ hn)
  have hblocks : ∀ n ∈ cur.context.blocks, n < cur.context.nextBlock :=
    fun n hn => h.ordinals n (List.mem_append_right _ hn)
  cases effect with
  | keeps =>
    cases hcontext
    exact ⟨_, rfl, h.extend c tail h.depth h.low h.ordinals⟩
  | enters =>
    cases hcontext
    exact ⟨_, rfl, h.extend c tail h.depth h.low h.ordinals⟩
  | ends =>
    cases hcontext
    exact ⟨_, rfl, h.extend c tail h.depth h.low h.ordinals⟩
  | opens =>
    cases hcontext
    refine ⟨_, rfl, h.extend c tail ?_ ?_ ?_⟩
    · simp [Stage.copy, h.depth, Nat.add_assoc]
    · rw [List.reverse_cons, common_concat hrun]
      exact h.low
    · intro n hn
      rcases List.mem_append.1 hn with hn | hn
      · exact Nat.lt_succ_of_lt (hrun n hn)
      · rcases List.mem_cons.1 hn with rfl | hn
        · exact Nat.lt_succ_self _
        · exact Nat.lt_succ_of_lt (hblocks n hn)
  | closes =>
    cases hopen : cur.context.blocks with
    | nil => simp [Effect.result?, hopen] at hcontext
    | cons block blocks =>
      simp only [Effect.result?, hopen, Option.some.injEq] at hcontext
      subst hcontext
      have hdepth : stage.depth = L.length + (blocks.length + 1) := by
        rw [h.depth, hopen, List.length_cons]
      have hfloor : ¬ stage.depth = stage.floor := by
        rw [hdepth, h.floor]
        omega
      have hscope : blocks.reverse = cur.scope.dropLast := by
        rw [Cursor.scope, hopen, List.reverse_cons, List.dropLast_concat]
      have hlength : cur.scope.length = blocks.length + 1 := by
        rw [Cursor.scope, List.length_reverse, hopen, List.length_cons]
      refine ⟨_, if_neg hfloor, h.extend c tail ?_ ?_ ?_⟩
      · simp only [Stage.copy, hdepth]
        omega
      · simp only [Stage.copy]
        rw [hscope, common_dropLast, hlength, h.low, hdepth]
        omega
      · intro n hn
        rcases List.mem_append.1 hn with hn | hn
        · exact hrun n hn
        · exact hblocks n (by rw [hopen]; exact List.mem_cons_of_mem _ hn)

variable (options loader nested path dir) in
/-- Adding the run, or the part of it in front of an indentation, brings the assembly
up to the play and drops the scopes that imports have left open. -/
theorem flush (h : Matches file L cur run before map s stage t) {u v : Text} (hrun : run.text = u ++ v) :
    ∃ map' vars out, Returns (addDirectives options loader nested file path dir L.length before map
        ({ run with text := u } : Run).flush) s map' { s with vars } ∧
      map'.Has out ∧ stage.out = out ++ v ∧
      (∃ left, vars.labels = L ++ run.scope.map (file, ·) ++ left ∧ ∀ l ∈ left, file < l.1) ∧
      vars.bare = if u = [] then s.vars.bare else s.vars.bare.keep stage.anchor := by
  obtain ⟨out, hout, hstage⟩ := h.has
  obtain ⟨left, hlabels, hleft⟩ := h.labels
  by_cases hu : u = []
  · subst hu
    refine ⟨map, s.vars, out, ?_, hout, by rw [hstage, hrun, List.nil_append],
      ⟨left, hlabels, hleft⟩, (if_pos rfl).symm⟩
    exact returns_pure.2 ⟨rfl, rfl⟩
  · obtain ⟨hbare, hlabels'⟩ := sync_eq rfl hlabels (fun l hl => Nat.ne_of_gt (hleft l hl)) run.scope
    rw [common_self] at hbare
    refine ⟨map.append u file run.start.line, s.vars.sync L.length file run.scope, out ++ u, ?_,
      hout.append u file _, by rw [hstage, hrun, List.append_assoc], ⟨[], by simpa using hlabels', by simp⟩,
      ?_⟩
    · rw [Run.flush, if_neg hu, addDirectives]
      refine returns_bind.2 ⟨(), _, returns_modifyVars.2 rfl, ?_⟩
      refine returns_bind.2 ⟨_, _, returns_locating.2 (returns_pure.2 ⟨rfl, rfl⟩), ?_⟩
      exact returns_pure.2 ⟨rfl, rfl⟩
    · rw [if_neg hu, hbare, h.anchor]
      simp [shift, keep]

/-- Behind a directive the points match again, with an empty run. -/
theorem land (h : Matches file L cur run before map s stage t) (c : Char) (tail : Text)
    (statement : Bool) {s' t' : Session} {map' : LineMap} {out : Text} {vars : VariableTable}
    (hvars : vars.labels = L ++ cur.scope.map (file, ·))
    (hm : Mirrored { s with vars } s.files.length map' s' out t') :
    Matches file L (cur.step c tail { cur.context with atStatement := statement })
      (.fresh (cur.step c tail { cur.context with atStatement := statement }))
      (before ++ run.text ++ c :: tail) map' s' (stage.land (c :: tail) out) t' := by
  have hline : lineAfter stage.line (c :: tail) = lineAfter [] (before ++ run.text ++ c :: tail) := by
    rw [h.line, ← lineAfter_append]
  have hcolumn : (cur.place.advance (c :: tail)).column =
      (lineAfter stage.line (c :: tail)).length + 1 := Location.column_advance _ h.place _
  have hlength : cur.scope.length = cur.context.blocks.length := List.length_reverse
  obtain ⟨left, hlabels, hleft⟩ := hm.labels
  exact {
    has := ⟨out, hm.has, by simp [Stage.land, Run.fresh]⟩
    place := hcolumn
    start := hline ▸ hcolumn
    line := by
      rw [Run.fresh, List.append_nil]
      exact hline
    clear := by
      change (lineAfter stage.line (c :: tail)).isEmpty =
        decide ((cur.place.advance (c :: tail)).column = 1)
      rw [hcolumn]
      cases lineAfter stage.line (c :: tail) <;> simp
    floor := h.floor
    depth := h.depth
    anchor := by
      change stage.depth = L.length + cur.scope.length
      rw [hlength, h.depth]
    low := by
      change stage.depth = L.length + common cur.scope cur.scope
      rw [common_self, hlength, h.depth]
    ordinals := by
      intro n hn
      have hblocks : n ∈ cur.context.blocks := by
        rcases List.mem_append.1 hn with hn | hn
        · exact List.mem_reverse.1 hn
        · exact hn
      exact h.ordinals n (List.mem_append_right _ hblocks)
    session := hm.session
    labels := ⟨left, by rw [hlabels, hvars]; rfl, fun l hl => Nat.lt_of_lt_of_le h.file (hleft l hl)⟩
    file := Nat.lt_of_lt_of_le h.file hm.files }

variable (options loader nested path dir) in
/-- Moving to the scope of a directive, once the run is added, brings the variables of
both sides together. -/
theorem arrive (h : Matches file L cur run before map s stage t) {u v : Text} (hrun : run.text = u ++ v) :
    ∃ map' vars out, Returns (addDirectives options loader nested file path dir L.length before map
        ({ run with text := u } : Run).flush) s map' { s with vars } ∧
      map'.Has out ∧ stage.out = out ++ v ∧
      (vars.sync L.length file cur.scope).labels = L ++ cur.scope.map (file, ·) ∧
      ({ t with vars := t.vars.shift stage.low stage.depth } : Session) =
        ({ s with vars := vars.sync L.length file cur.scope } : Session).bare := by
  obtain ⟨map', vars, out, hflush, hhas, hout, ⟨left, hlabels, hleft⟩, hbare⟩ :=
    h.flush options loader nested path dir hrun
  obtain ⟨hsync, hlabels'⟩ := sync_eq rfl hlabels (fun l hl => Nat.ne_of_gt (hleft l hl)) cur.scope
  refine ⟨map', vars, out, hflush, hhas, hout, hlabels', ?_⟩
  have hlow : stage.low ≤ stage.anchor := by
    rw [h.low, h.anchor]
    exact Nat.add_le_add_left (common_le_left _ _) _
  have hplay : t.vars.shift stage.low stage.depth = s.vars.bare.shift stage.low stage.depth := by
    rw [h.session]
    dsimp only
    split
    · rfl
    · exact shift_keep hlow _
  have hassembly : vars.bare.shift stage.low stage.depth = s.vars.bare.shift stage.low stage.depth := by
    rw [hbare]
    split
    · rfl
    · exact shift_keep hlow _
  have hscope : L.length + cur.scope.length = stage.depth := by
    rw [h.depth, Cursor.scope, List.length_reverse]
  rw [hplay, ← hassembly, h.session]
  simp only [Session.bare]
  rw [hsync, ← h.low, hscope]

/-- What an import puts its files behind: the output without the indentation that it
owns. -/
theorem unindented_eq (h : Matches file L cur run before map s stage t) {out : Text}
    (hout : stage.out = out ++ run.indent) : stage.unindented = out :=
  Stage.unindented_of_out (h.indent_eq ▸ hout)

/-- Adding the directives that a directive completes agrees with playing it. -/
theorem act (hnested : Mirrors nested player) (h : Matches file L cur run before map s stage t)
    (c : Char) (found : Found) :
    Agree (Matches file L
        (cur.step c found.tail { cur.context with atStatement := found.atStatement })
        (.fresh (cur.step c found.tail { cur.context with atStatement := found.atStatement }))
        (before ++ run.text ++ c :: found.tail))
      (addDirectives options loader nested file path dir L.length before map (complete cur run c found))
      (playPiece options loader player dir stage (.act c found)) s t := by
  obtain ⟨u, indent, span, hrun, hcomplete, himports, hothers⟩ := complete_eq cur run c found
  obtain ⟨map', vars, out, hflush, hhas, hout, hlabels, hsession⟩ :=
    h.arrive options loader nested path dir hrun
  rw [hcomplete, addDirectives_append]
  refine .after hflush ?_
  rw [addDirectives, playPiece]
  refine .modifyVars_bind ?_
  rw [hsession]
  refine .bind (.locating_left _ (addDirective_perform hnested ?_ ?_)) ?_
  · intro targets hkind
    rw [himports targets hkind] at hout
    exact h.unindented_eq hout ▸ hhas
  · intro hkind
    obtain rfl := hothers hkind
    rw [List.append_nil] at hrun hout
    have htexts : Directive.texts ({ run with text := u } : Run).flush = u := Run.texts_flush _
    refine ⟨hout ▸ hhas, rfl, ?_⟩
    rw [htexts, ← hrun, lineIndent_eq, h.line]
  · intro map'' s' out' t' hm
    exact .pure (h.land c found.tail found.atStatement hlabels hm)

variable (options loader nested path dir) in
/-- Adding what a scan reports along pieces agrees with playing the pieces. -/
theorem pieces (hnested : Mirrors nested player) {ps : List Piece} {ds : List Directive}
    {cur' : Cursor} {run' : Run} (h : Matches file L cur run before map s stage t)
    (htrail : trail cur run ps = some (ds, cur', run')) :
    Agree (Matches file L cur' run' (before ++ Directive.texts ds))
      (addDirectives options loader nested file path dir L.length before map ds)
      (playPieces options loader player dir stage ps) s t := by
  induction ps generalizing cur run before map s stage t ds with
  | nil =>
    cases htrail
    exact .pure (by simpa using h)
  | cons p ps ih =>
    cases p with
    | act c found =>
      obtain ⟨⟨ds', cur'', run''⟩, htrail', heq⟩ := Option.map_eq_some_iff.1 htrail
      cases heq
      rw [addDirectives_append, Directive.texts_append, texts_complete, ← List.append_assoc,
        ← List.append_assoc]
      exact .bind (h.act hnested c found) fun map' s' stage' t' h' => ih h' htrail'
    | token c tail effect =>
      obtain ⟨context, hcontext, htrail'⟩ := Option.bind_eq_some_iff.1 htrail
      obtain ⟨next, hnext, h'⟩ := h.token c tail hcontext
      have hplay : playPieces options loader player dir stage (.token c tail effect :: ps) = (do
          modifyVars (·.keep stage.anchor)
          playPieces options loader player dir next ps) := by
        rw [playPieces, playPiece, hnext]
        simp
      rw [hplay]
      exact ih h' htrail'

end Matches

/-- The points at which a file is entered match. -/
theorem Matches.initial {id : FileId} {s : Session} {source : SourceFile}
    (hsource : s.files[id]? = some source) :
    Matches id s.vars.labels (.start .sheet 1) (.fresh (.start .sheet 1)) [] .empty s
      (.start s.vars.innermost) s.bare where
  has := ⟨[], .empty, rfl⟩
  place := rfl
  start := rfl
  line := rfl
  clear := rfl
  floor := (length_labels _).symm
  depth := (length_labels _).symm
  anchor := (length_labels _).symm
  low := (length_labels _).symm
  ordinals := by simp [Run.fresh, Cursor.scope, Cursor.start]
  session := rfl
  labels := ⟨[], by simp [Run.fresh, Cursor.scope, Cursor.start], by simp⟩
  file := (List.getElem?_eq_some_iff.1 hsource).1

/-- A stage that moves has a block to close, if it closes one. -/
theorem result?_of_move? {stage next : Stage} {effect : Effect} {context : Context}
    (hdepth : stage.depth = stage.floor + context.blocks.length) (h : stage.move? effect = some next) :
    ∃ context', effect.result? context = some context' ∧
      next.depth = next.floor + context'.blocks.length := by
  cases effect with
  | keeps => cases h; exact ⟨_, rfl, hdepth⟩
  | enters => cases h; exact ⟨_, rfl, hdepth⟩
  | ends => cases h; exact ⟨_, rfl, hdepth⟩
  | opens => cases h; exact ⟨_, rfl, by simp [hdepth, Nat.add_assoc]⟩
  | closes =>
    by_cases hfloor : stage.depth = stage.floor
    · rw [Stage.move?, if_pos hfloor] at h
      cases h
    · rw [Stage.move?, if_neg hfloor] at h
      cases h
      cases hopen : context.blocks with
      | nil => simp [hdepth, hopen] at hfloor
      | cons block blocks =>
        refine ⟨{ context with blocks, atStatement := true }, by simp [Effect.result?, hopen], ?_⟩
        simp only [hdepth, hopen, List.length_cons]
        omega

/-- Pieces that can be played close no block that was not opened before. -/
theorem trail_of_playPieces {ps : List Piece} {cur : Cursor} {run : Run} {stage stage' : Stage}
    {t t' : Session} (hdepth : stage.depth = stage.floor + cur.context.blocks.length)
    (h : Returns (playPieces options loader player dir stage ps) t stage' t') :
    trail cur run ps ≠ none := by
  induction ps generalizing cur run stage t with
  | nil => simp [trail]
  | cons p ps ih =>
    obtain ⟨next, t₁, hpiece, hrest⟩ := returns_bind.1 h
    cases p with
    | act c found =>
      obtain ⟨out, -, rfl⟩ := returns_playPiece_act.1 hpiece
      have hland : (stage.land (c :: found.tail) out).depth =
          (stage.land (c :: found.tail) out).floor + cur.context.blocks.length := hdepth
      rw [trail, ne_eq, Option.map_eq_none_iff]
      exact ih hland hrest
    | token c tail effect =>
      obtain ⟨hmove, -⟩ := returns_playPiece_token.1 hpiece
      have hcopy : (stage.copy (c :: tail)).depth =
          (stage.copy (c :: tail)).floor + cur.context.blocks.length := hdepth
      obtain ⟨context, hcontext, hnext⟩ := result?_of_move? hcopy hmove
      rw [trail, hcontext, Option.bind_some]
      exact ih hnext hrest

theorem assembleFile_fails {id : FileId} {s : Session} {source : SourceFile}
    (hsource : s.files[id]? = some source) (herror : (scan options.functions source.text).error? ≠ none)
    (map : LineMap) (s' : Session) : ¬ Returns (assembleFile options loader nested id dir) s map s' :=
  fun h => herror ((returns_assembleFile hsource).1 h).1

/-- Assembling a file that was read agrees with playing its text. -/
theorem playText_mirrors (hnested : Mirrors nested player) :
    Mirrors (assembleFile options loader nested) (playText options loader player) := by
  intro id dir s source hsource
  set cur := Cursor.start .sheet 1
  obtain ⟨u, v, word', statement', htext, hwalk, hend⟩ :=
    exists_walk options.functions false true source.text
  obtain ⟨hsome, hnone⟩ := hwalk.scanFrom_eq (show Shows cur false true from ⟨rfl, rfl⟩) (.fresh cur)
  have hscan : scan options.functions source.text =
      scanFrom options.functions cur (.fresh cur) (u ++ v) := by
    rw [← htext]
    rfl
  rw [← hscan] at hsome hnone
  have hfails : (scan options.functions source.text).error? ≠ none →
      (∀ out t', ¬ Returns (playText options loader player source.text dir) s.bare out t') →
      Agree (Mirrored s id) (assembleFile options loader nested id dir)
        (playText options loader player source.text dir) s s.bare :=
    fun herror => .fails (assembleFile_fails hsource herror)
  cases htrail : trail cur (.fresh cur) (lex options.functions false true source.text).1 with
  | none =>
    refine hfails (hnone htrail) fun out t' hplay => ?_
    obtain ⟨-, stage, hpieces, -⟩ := returns_playText.1 hplay
    exact trail_of_playPieces rfl hpieces htrail
  | some result =>
    obtain ⟨ds, cur', run'⟩ := result
    obtain ⟨hshows, hreport⟩ := hsome ds cur' run' htrail
    split at hend
    case isFalse hcomplete =>
      refine hfails ?_ fun out t' hplay => hcomplete (returns_playText.1 hplay).1
      obtain ⟨e, he⟩ := scanFrom_stuck hshows run' hend
      rw [hreport, he]
      simp [Outcome.prepend]
    case isTrue hcomplete =>
      subst hend
      rw [scanFrom] at hreport
      refine .after (returns_file.2 ⟨rfl, rfl⟩) (.get_bind ?_)
      rw [hsource, Option.getD_some, hreport]
      have hpieces := (Matches.initial hsource).pieces options loader nested source.path dir hnested htrail
      rw [length_labels] at hpieces
      dsimp only [Outcome.prepend]
      rw [addDirectives_append, bind_assoc, show s.bare.vars.innermost = _ from innermost_bare s.vars]
      refine .bind hpieces fun map' s' stage t' h => ?_
      rw [if_pos hcomplete]
      obtain ⟨map'', vars, out, hflush, hhas, hout, ⟨left, hlabels, hleft⟩, hbare⟩ :=
        h.flush options loader nested source.path dir (List.append_nil run'.text).symm
      rw [length_labels] at hflush
      rw [List.append_nil] at hout
      refine .after hflush (.pure ⟨hout ▸ hhas, ?_, Nat.le_of_lt h.file, ?_⟩)
      · rw [h.session, ← hbare]
        rfl
      · refine ⟨run'.scope.map (id, ·) ++ left, by rw [hlabels, List.append_assoc], ?_⟩
        intro l hl
        rcases List.mem_append.1 hl with hl | hl
        · obtain ⟨n, -, rfl⟩ := List.mem_map.1 hl
          exact Nat.le_refl _
        · exact Nat.le_of_lt (hleft l hl)

/-- How the imports of a file are assembled that is assembled with up to `depth` imports
inside one another. -/
def importerAt (options : Options) (loader : Loader) : (depth : Nat) → Importer
  | 0 => fun id _ => do
    let source ← Assembly.file id
    throw (Error.of (.imports (.cyclic source.path (← get).stack.paths)))
  | depth + 1 => assemble options loader depth

/-- With no depth left, an import fails. -/
theorem not_returns_importerAt_zero {options : Options} {loader : Loader} {id : FileId} {dir : Path}
    {s s' : Session} {map : LineMap} : ¬ Returns (importerAt options loader 0 id dir) s map s' := by
  intro h
  obtain ⟨source, s₁, -, h⟩ := returns_bind.1 h
  obtain ⟨_, s₂, -, h⟩ := returns_bind.1 h
  exact not_returns_throw h

def playerAt (options : Options) (loader : Loader) : (depth : Nat) → Player
  | 0 => fun _ _ => failed
  | depth + 1 => play options loader depth

theorem assemble_eq (options : Options) (loader : Loader) (depth : Nat) :
    assemble options loader depth = assembleFile options loader (importerAt options loader depth) := by
  cases depth <;> rfl

/-- The assembly of a root text gets behind its first directives `ds`. -/
def Reaches (options : Options) (loader : Loader) (path dir : Path) (text : Text) (w : Workspace)
    (ds : List Directive) (map : LineMap) (s : Session) : Prop :=
  Returns (addDirectives options loader (importerAt options loader w.tree.fileCount) 0 path dir 0 []
    .empty ds) (start w path text) map s

theorem play_eq (options : Options) (loader : Loader) (depth : Nat) :
    play options loader depth = playText options loader (playerAt options loader depth) := by
  cases depth <;> rfl

theorem playerAt_mirrors (options : Options) (loader : Loader) (depth : Nat) :
    Mirrors (importerAt options loader depth) (playerAt options loader depth) := by
  induction depth with
  | zero =>
    exact fun id dir s source _ =>
      .fails (fun map s' => not_returns_importerAt_zero) fun out t' h => not_returns_throw h
  | succ depth ih =>
    rw [importerAt, playerAt, assemble_eq, play_eq]
    exact playText_mirrors ih

/-- The assembly of a file agrees with the play of its text. -/
theorem play_mirrors (options : Options) (loader : Loader) (depth : Nat) :
    Mirrors (assemble options loader depth) (play options loader depth) :=
  playerAt_mirrors options loader (depth + 1)

/-- The compilation of a root text agrees with the play of the text. -/
theorem assembleRoot_play (options : Options) (loader : Loader) (path dir : Path) (text : Text)
    (w : Workspace) :
    Agree (fun c w' out t' => c.map.Has out ∧ w' = t'.workspace)
      (assembleRoot options loader path text dir)
      (play options loader w.tree.fileCount text dir) w (start w path text).bare := by
  have hagree := play_mirrors options loader w.tree.fileCount 0 dir (start w path text) _ rfl
  refine .of_returns_iff ⟨?_, ?_⟩ ?_
  · rintro ⟨c, w', h⟩
    obtain ⟨s, hs, -, -⟩ := returns_assembleRoot.1 h
    exact hagree.returns_iff.1 ⟨_, _, hs⟩
  · intro h
    obtain ⟨map, s, hs⟩ := hagree.returns_iff.2 h
    exact ⟨⟨map, s.files⟩, s.workspace, returns_assembleRoot.2 ⟨s, hs, rfl, rfl⟩⟩
  · intro c w' out t' h hplay
    obtain ⟨s, hs, -, rfl⟩ := returns_assembleRoot.1 h
    have hm := hagree.related hs hplay
    exact ⟨hm.has, by rw [hm.session]; rfl⟩

/-- Two root texts compile alike if their plays agree. -/
theorem assembleRoot_agree {path dir : Path} {text text' : Text} {w : Workspace} {R : Text → Text → Prop}
    (h : Agree (fun out t out' t' => R out out' ∧ t'.workspace = t.workspace)
      (play options loader w.tree.fileCount text dir) (play options loader w.tree.fileCount text' dir)
      (start w path text).bare (start w path text').bare) :
    Agree (fun c w₁ c' w₂ => R c.map.buffer c'.map.buffer ∧ w₂ = w₁)
      (assembleRoot options loader path text dir) (assembleRoot options loader path text' dir) w w := by
  have hroot := assembleRoot_play options loader path dir text w
  have hroot' := assembleRoot_play options loader path dir text' w
  refine .of_returns_iff (hroot.returns_iff.trans (h.returns_iff.trans hroot'.returns_iff.symm)) ?_
  intro c w₁ c' w₂ hc hc'
  obtain ⟨out, t, hout⟩ := hroot.returns_iff.1 ⟨_, _, hc⟩
  obtain ⟨out', t', hout'⟩ := hroot'.returns_iff.1 ⟨_, _, hc'⟩
  obtain ⟨hhas, rfl⟩ := hroot.related hc hout
  obtain ⟨hhas', rfl⟩ := hroot'.related hc' hout'
  rw [hhas.buffer, hhas'.buffer]
  exact h.related hout hout'

end Assembly

end StylePrep
