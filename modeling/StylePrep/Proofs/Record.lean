import StylePrep.Preprocess
import StylePrep.Proofs.Agreement
import StylePrep.Proofs.Cover
import StylePrep.Proofs.Provenance
import StylePrep.Proofs.Sample

/-!
# Where the output of a compilation comes from

A recorded assembly does what an assembly does, but writes a marked text instead
of a line map. The mark of a character is put on it where the character is put
out, and says what it is: a character of a source file that stands behind a
certain text there, or a character that a directive generated.

The recorded assembly and the plain one agree step by step (`record_follows`): both
fail or both succeed, they reach the same session, and the line map is the one that
the marks stand for. What the marks claim is true of the files that were read. The
line of an origin is nowhere copied from the scanner, it follows from the text in
front of the character or the directive.
-/

namespace StylePrep

open Text Step

/-- What is known of a character of the output: the file it comes from, the text of
that file in front of it, and the directive that generated it. A character without
such a directive is copied from behind `before`; one with it was put out for the
directive that stands behind `before`. -/
structure Mark where
  file : FileId
  before : Text
  directive? : Option Directive
  deriving DecidableEq, Repr

namespace Mark

/-- The line that a mark points to. -/
def origin (mark : Mark) : Origin := ⟨mark.file, 1 + mark.before.newlines⟩

/-- A piece of a source file that stands behind `before`. -/
def copy (file : FileId) (before : Text) : Text → Marked Mark
  | [] => []
  | c :: t => (c, ⟨file, before, none⟩) :: copy file (before ++ [c]) t

/-- A text put out for a directive that stands behind `before`. -/
def generate (file : FileId) (before : Text) (d : Directive) (t : Text) : Marked Mark :=
  t.map fun c => (c, ⟨file, before, some d⟩)

@[simp] theorem text_copy (file : FileId) (before t : Text) : (copy file before t).text = t := by
  induction t generalizing before with
  | nil => rfl
  | cons c t ih => rw [copy, Marked.text_cons, ih]

@[simp] theorem text_generate (file : FileId) (before : Text) (d : Directive) (t : Text) :
    (generate file before d t).text = t := by
  rw [generate, Marked.text, List.map_map]
  exact List.map_id' t

theorem numbered_copy (file : FileId) (before t : Text) :
    LineMap.Numbered origin file (1 + before.newlines) (copy file before t) := by
  induction t generalizing before with
  | nil => trivial
  | cons c t ih =>
    refine ⟨rfl, ?_⟩
    have h := ih (before ++ [c])
    rw [newlines_append, ← Nat.add_assoc] at h
    exact h

theorem mem_copy {file : FileId} {before t : Text} {x : Char × Mark} (h : x ∈ copy file before t) :
    ∃ s rest, t = s ++ x.1 :: rest ∧ x.2 = ⟨file, before ++ s, none⟩ := by
  induction t generalizing before with
  | nil => cases h
  | cons c t ih =>
    rcases List.mem_cons.1 h with rfl | h
    · exact ⟨[], t, rfl, by simp⟩
    · obtain ⟨s, rest, rfl, hmark⟩ := ih h
      exact ⟨c :: s, rest, rfl, by simpa using hmark⟩

/-- What a mark says of a character is true of the files that were read. -/
def Holds (functions : FunctionTable) (files : List SourceFile) (x : Char × Mark) : Prop :=
  ∃ source, files[x.2.file]? = some source ∧
    match x.2.directive? with
    | none => ∃ rest, source.text = x.2.before ++ x.1 :: rest
    | some d => ∃ ds ds', (scan functions source.text).directives = ds ++ d :: ds' ∧
        x.2.before = Directive.texts ds ∧ d.kind ≠ .plain

theorem Holds.before_isPrefix {functions : FunctionTable} {files : List SourceFile}
    {x : Char × Mark} (h : Holds functions files x) :
    ∃ source, files[x.2.file]? = some source ∧ x.2.before <+: source.text := by
  obtain ⟨source, hsource, hmark⟩ := h
  refine ⟨source, hsource, ?_⟩
  split at hmark
  · obtain ⟨rest, hrest⟩ := hmark
    exact ⟨_, hrest.symm⟩
  · obtain ⟨ds, ds', hds, hbefore, -⟩ := hmark
    have hcover := (Scan.scan_cover functions source.text).2.2
    rw [hds, Directive.texts_append, ← hbefore] at hcover
    exact (List.prefix_append _ _).trans hcover

theorem Holds.mono {functions : FunctionTable} {files files' : List SourceFile} {x : Char × Mark}
    (h : Holds functions files x) (hfiles : files <+: files') : Holds functions files' x := by
  obtain ⟨source, hsource, hmark⟩ := h
  obtain ⟨more, rfl⟩ := hfiles
  obtain ⟨hlt, -⟩ := List.getElem?_eq_some_iff.1 hsource
  exact ⟨source, by rw [List.getElem?_append_left hlt, hsource], hmark⟩

end Mark

namespace Assembly

/-- How an imported file is recorded, given its number and its directory. -/
abbrev Recorder := FileId → Path → Assembly (Marked Mark)

def recordTarget (options : Options) (loader : Loader) (nested : Recorder) (file : FileId)
    (dir : Path) (target : Text) : Assembly (Marked Mark) := do
  let tree := (← get).workspace.tree
  let path ← ofExcept .imports (Import.resolve tree target dir options.includePaths)
  let stack ← ofExcept .imports ((← get).stack.push path)
  modify fun session => { session with stack }
  let (path, text) ← ofExcept .file (loader.load tree path)
  let id ← addFile ⟨path, text, some file⟩
  let g ← nested id path.directory
  modify fun session => { session with stack := session.stack.pop }
  pure g

def recordAll (options : Options) (loader : Loader) (nested : Recorder) (file : FileId)
    (dir : Path) : List Text → Marked Mark → Assembly (Marked Mark)
  | [], g => pure g
  | target :: targets, g => do
    let child ← recordTarget options loader nested file dir target
    recordAll options loader nested file dir targets (g.splice child)

/-- Record what one directive puts out. Plain text is copied, and so is an
assignment but for a value in which calls are replaced; all else is generated. -/
def recordDirective (options : Options) (loader : Loader) (nested : Recorder) (file : FileId)
    (dir : Path) (before : Text) (g : Marked Mark) (d : Directive) : Assembly (Marked Mark) :=
  match d.kind with
  | .plain => pure (g ++ Mark.copy file before d.raw)
  | .imports targets => recordAll options loader nested file dir targets g
  | .assign name lead value tail flags => do
    match ← expandValue options value d.line with
    | none =>
      modifyVars (·.assign name (.raw value) flags)
      pure (g ++ Mark.copy file before d.raw)
    | some expanded =>
      modifyVars (·.assign name (.raw expanded) flags)
      pure (g ++ Mark.copy file before lead ++ Mark.generate file before d expanded ++
        Mark.copy file (before ++ lead ++ value) tail)
  | .sprite function args binding => do
    let expansion ← expandSprite options function args d.line (lineIndent before)
    match binding with
    | none => pure (g ++ Mark.generate file before d expansion.text)
    | some binding =>
      match expansion.sheet? with
      | some sheet => modifyVars (·.assign binding.name (.sheet sheet) binding.flags)
      | none => pure ()
      let terminated := (trimEnd d.raw).getLast? = some ';'
      pure (g ++ Mark.generate file before d (bindingText binding expansion.text terminated))
  | .custom name args => do
    let text ← normalizeCall options.functions name args d.line
    pure (g ++ Mark.generate file before d text)

/-- Record what directives put out one after another. -/
def recordDirectives (options : Options) (loader : Loader) (nested : Recorder) (file : FileId)
    (path dir : Path) (base : Nat) (before : Text) (g : Marked Mark) :
    List Directive → Assembly (Marked Mark)
  | [] => pure g
  | d :: ds => do
    modifyVars (·.sync base file d.scope)
    let g ← locating (Compilation.place path d.line)
      (recordDirective options loader nested file dir before g d)
    recordDirectives options loader nested file path dir base (before ++ d.raw) g ds

/-- Record a file that was read, with its imports recorded by `nested`. -/
def recordFile (options : Options) (loader : Loader) (nested : Recorder) (file : FileId)
    (dir : Path) : Assembly (Marked Mark) := do
  let source ← Assembly.file file
  let base := (← get).vars.innermost
  let outcome := scan options.functions source.text
  let g ← recordDirectives options loader nested file source.path dir base [] [] outcome.directives
  match outcome.error? with
  | some e => throw ((Error.of (.scan e)).locate (Compilation.place source.path e.line))
  | none => pure g

/-- Record a file with up to `depth` imports inside one another. -/
def record (options : Options) (loader : Loader) : (depth : Nat) → Recorder
  | 0 => recordFile options loader fun id _ => do
    let source ← Assembly.file id
    throw (Error.of (.imports (.cyclic source.path (← get).stack.paths)))
  | depth + 1 => recordFile options loader (record options loader depth)

/-! ### Agreement with the assembly -/

variable {options : Options} {loader : Loader} {functions : FunctionTable}
variable {files files' : List SourceFile}

/-- A directive of a file that was read, behind the text `before` there. -/
structure Stands (functions : FunctionTable) (files : List SourceFile) (file : FileId)
    (before : Text) (d : Directive) : Prop where
  stands : ∃ source ds ds', files[file]? = some source ∧
    (scan functions source.text).directives = ds ++ d :: ds' ∧ before = Directive.texts ds

namespace Stands

variable {file : FileId} {before : Text} {d : Directive}

theorem line_eq (h : Stands functions files file before d) : d.line = 1 + before.newlines := by
  obtain ⟨source, ds, ds', -, hds, rfl⟩ := h.stands
  have hplaced := (Scan.scan_cover functions source.text).1
  rw [hds] at hplaced
  exact hplaced.line_eq

theorem spelled (h : Stands functions files file before d) : Scan.Spelled d := by
  obtain ⟨source, ds, ds', -, hds, -⟩ := h.stands
  exact (Scan.scan_cover functions source.text).2.1 d (by rw [hds]; simp)

/-- A piece of the directive, copied, carries true marks. -/
theorem holds_copy (h : Stands functions files file before d) {lead piece tail : Text}
    (hraw : d.raw = lead ++ piece ++ tail) :
    ∀ x ∈ Mark.copy file (before ++ lead) piece, Mark.Holds functions files x := by
  intro x hx
  obtain ⟨source, ds, ds', hsource, hds, rfl⟩ := h.stands
  obtain ⟨s, rest, rfl, hmark⟩ := Mark.mem_copy hx
  obtain ⟨more, hmore⟩ := (Scan.scan_cover functions source.text).2.2
  refine ⟨source, by rw [hmark]; exact hsource, ?_⟩
  rw [hmark]
  refine ⟨rest ++ tail ++ Directive.texts ds' ++ more, ?_⟩
  rw [← hmore, hds]
  simp [hraw]

/-- A text put out for the directive carries true marks. -/
theorem holds_generate (h : Stands functions files file before d) (hkind : d.kind ≠ .plain)
    (t : Text) : ∀ x ∈ Mark.generate file before d t, Mark.Holds functions files x := by
  intro x hx
  obtain ⟨source, ds, ds', hsource, hds, hbefore⟩ := h.stands
  obtain ⟨c, -, rfl⟩ := List.mem_map.1 hx
  exact ⟨source, hsource, ds, ds', hds, hbefore, hkind⟩

theorem mono (h : Stands functions files file before d) (hfiles : files <+: files') :
    Stands functions files' file before d := by
  obtain ⟨source, ds, ds', hsource, hds, hbefore⟩ := h.stands
  obtain ⟨more, rfl⟩ := hfiles
  obtain ⟨hlt, -⟩ := List.getElem?_eq_some_iff.1 hsource
  exact ⟨source, ds, ds', by rw [List.getElem?_append_left hlt, hsource], hds, hbefore⟩

end Stands

/-- A map and a marked text whose marks are true, and explain the map. -/
structure Explains (functions : FunctionTable) (files : List SourceFile) (m : LineMap)
    (g : Marked Mark) : Prop where
  refines : m.Refines Mark.origin g
  holds : ∀ x ∈ g.heads true, Mark.Holds functions files x

namespace Explains

variable {m child : LineMap} {g h : Marked Mark} {file : FileId} {before : Text} {d : Directive}

theorem empty : Explains functions files .empty [] :=
  ⟨.empty, fun _ hx => absurd hx List.not_mem_nil⟩

theorem mono (hg : Explains functions files m g) (hfiles : files <+: files') :
    Explains functions files' m g :=
  ⟨hg.refines, fun x hx => (hg.holds x hx).mono hfiles⟩

theorem add {m' : LineMap} {piece : Marked Mark} (hg : Explains functions files m g)
    (hm' : m'.Refines Mark.origin (g ++ piece))
    (hpiece : ∀ x ∈ piece, Mark.Holds functions files x) : Explains functions files m' (g ++ piece) := by
  refine ⟨hm', ?_⟩
  intro x hx
  rcases Marked.mem_heads_append hx with hx | hx
  · exact hg.holds x hx
  · exact hpiece x (Marked.mem_of_mem_heads hx)

/-- Copying a piece of a directive, the line being that of the piece. -/
theorem copy (hg : Explains functions files m g) (hd : Stands functions files file before d)
    (lead piece tail : Text) (hraw : d.raw = lead ++ piece ++ tail) :
    Explains functions files (m.append piece file (d.line + newlines lead))
      (g ++ Mark.copy file (before ++ lead) piece) := by
  refine hg.add ?_ (hd.holds_copy hraw)
  have happend := hg.refines.append (Mark.numbered_copy file (before ++ lead) piece)
  rwa [Mark.text_copy, newlines_append, ← Nat.add_assoc, ← hd.line_eq] at happend

theorem generate (hg : Explains functions files m g) (hd : Stands functions files file before d)
    (hkind : d.kind ≠ .plain) (t : Text) :
    Explains functions files (m.generate t file d.line) (g ++ Mark.generate file before d t) := by
  refine hg.add ?_ (hd.holds_generate hkind t)
  have hpiece : ∀ x ∈ Mark.generate file before d t, Mark.origin x.2 = ⟨file, d.line⟩ := by
    intro x hx
    obtain ⟨c, -, rfl⟩ := List.mem_map.1 hx
    rw [hd.line_eq]
    rfl
  have hgenerate := hg.refines.generate hpiece
  rwa [Mark.text_generate] at hgenerate

theorem splice (hg : Explains functions files m g) (hh : Explains functions files child h) :
    Explains functions files (m.splice child) (g.splice h) := by
  refine ⟨hg.refines.splice hh.refines, ?_⟩
  intro x hx
  rcases Marked.mem_heads_splice hx with hx | hx
  · exact hg.holds x hx
  · exact hh.holds x hx

end Explains

/-- What an assembly and its record have in common when both started from the
session `s`. -/
structure Recorded (functions : FunctionTable) (s : Session) (m : LineMap) (s' : Session)
    (g : Marked Mark) (t' : Session) : Prop where
  session : t' = s'
  files : s.files <+: s'.files
  explains : Explains functions s'.files m g

theorem Recorded.of_inWorkspace {s : Session} {m : LineMap} {g : Marked Mark} {w : Workspace}
    {vars : VariableTable} (h : Explains functions s.files m g) :
    Recorded functions s m { s with workspace := w, vars := vars } g
      { s with workspace := w, vars := vars } :=
  ⟨rfl, List.prefix_rfl, h⟩

/-- An importer and its recorder agree on every file that was read. -/
def Follows (functions : FunctionTable) (nested : Importer) (nested' : Recorder) : Prop :=
  ∀ (id : FileId) (dir : Path) (s : Session) (source : SourceFile), s.files[id]? = some source →
    Agree (Recorded functions s) (nested id dir) (nested' id dir) s s

variable {nested : Importer} {nested' : Recorder} {file : FileId} {dir : Path} {before : Text}

theorem recordTarget_agree (hnested : Follows functions nested nested') (target : Text)
    (s : Session) :
    Agree (Recorded functions s) (importTarget options loader nested file dir target)
      (recordTarget options loader nested' file dir target) s s := by
  refine .bind_same fun _ s₁ h₁ => ?_
  obtain ⟨rfl, rfl⟩ := returns_get.1 h₁
  refine .bind_same fun path s₂ h₂ => ?_
  obtain ⟨-, rfl⟩ := returns_ofExcept.1 h₂
  refine .bind_same fun _ s₃ h₃ => ?_
  obtain ⟨rfl, rfl⟩ := returns_get.1 h₃
  refine .bind_same fun stack s₄ h₄ => ?_
  obtain ⟨-, rfl⟩ := returns_ofExcept.1 h₄
  refine .bind_same fun _ s₅ h₅ => ?_
  obtain rfl := returns_modify.1 h₅
  refine .bind_same fun (path, text) s₆ h₆ => ?_
  obtain ⟨-, rfl⟩ := returns_ofExcept.1 h₆
  refine .bind_same fun id s₇ h₇ => ?_
  obtain ⟨rfl, rfl⟩ := returns_addFile.1 h₇
  refine .bind (hnested _ _ _ ⟨path, text, some file⟩ (by simp)) fun m s' g t' h => ?_
  obtain rfl := h.session
  refine .bind_same fun _ s₈ h₈ => ?_
  obtain rfl := returns_modify.1 h₈
  exact .pure ⟨rfl, (List.prefix_append _ _).trans h.files, h.explains⟩

theorem recordAll_agree (hnested : Follows functions nested nested') (targets : List Text)
    {m : LineMap} {g : Marked Mark} {s : Session} (hg : Explains functions s.files m g) :
    Agree (Recorded functions s) (importAll options loader nested file dir targets m)
      (recordAll options loader nested' file dir targets g) s s := by
  induction targets generalizing m g s with
  | nil => exact .pure ⟨rfl, List.prefix_rfl, hg⟩
  | cons target targets ih =>
    refine .bind (recordTarget_agree hnested target s) fun child s' h t' hchild => ?_
    obtain rfl := hchild.session
    refine (ih ((hg.mono hchild.files).splice hchild.explains)).mono fun m' s'' g' t'' h' => ?_
    exact ⟨h'.session, hchild.files.trans h'.files, h'.explains⟩

variable (loader dir) in
theorem recordDirective_agree (hnested : Follows options.functions nested nested') {d : Directive}
    {m : LineMap} {g : Marked Mark} {s : Session}
    (hd : Stands options.functions s.files file before d)
    (hg : Explains options.functions s.files m g) :
    Agree (Recorded options.functions s) (addDirective options loader nested file dir before m d)
      (recordDirective options loader nested' file dir before g d) s s := by
  have hwhole := hg.copy hd [] d.raw [] (by simp)
  simp only [newlines_nil, Nat.add_zero, List.append_nil] at hwhole
  unfold addDirective recordDirective
  cases hkind : d.kind with
  | plain => exact .pure ⟨rfl, List.prefix_rfl, hwhole⟩
  | imports targets => exact recordAll_agree hnested targets hg
  | assign name lead value tail flags =>
    refine .bind ((expandValue_inWorkspace options value d.line).agree s) ?_
    rintro _ _ value? _ ⟨rfl, rfl, w, rfl⟩
    cases value? with
    | none =>
      refine .bind_same fun _ s₂ h₂ => ?_
      obtain rfl := returns_modifyVars.1 h₂
      exact .pure ⟨rfl, List.prefix_rfl, hwhole⟩
    | some expanded =>
      refine .bind_same fun _ s₂ h₂ => ?_
      obtain rfl := returns_modifyVars.1 h₂
      refine .pure ⟨rfl, List.prefix_rfl, ?_⟩
      have hraw := hd.spelled hkind
      have hlead := hg.copy hd [] lead (value ++ tail) (by simpa using hraw)
      have hvalue := hlead.generate hd (by simp [hkind]) expanded
      have htail := hvalue.copy hd (lead ++ value) tail [] (by simpa using hraw)
      simpa using htail
  | sprite function args binding =>
    refine .bind ((expandSprite_inWorkspace options function args d.line _).agree s) ?_
    rintro _ _ expansion _ ⟨rfl, rfl, w, rfl⟩
    have hgenerate (t : Text) := hg.generate hd (by simp [hkind]) t
    cases binding with
    | none => exact .pure ⟨rfl, List.prefix_rfl, hgenerate _⟩
    | some binding =>
      cases expansion.sheet? with
      | none => exact .pure ⟨rfl, List.prefix_rfl, hgenerate _⟩
      | some sheet =>
        refine .bind_same fun _ s₂ h₂ => ?_
        obtain rfl := returns_modifyVars.1 h₂
        exact .pure ⟨rfl, List.prefix_rfl, hgenerate _⟩
  | custom name args =>
    refine .bind ((normalizeCall_inWorkspace options.functions name args d.line).agree s) ?_
    rintro _ _ text _ ⟨rfl, rfl, w, rfl⟩
    exact .pure ⟨rfl, List.prefix_rfl, hg.generate hd (by simp [hkind]) text⟩

theorem recordDirectives_agree (hnested : Follows options.functions nested nested')
    {source : SourceFile} {path : Path} {base : Nat} {done ds : List Directive}
    (hds : (scan options.functions source.text).directives = done ++ ds) {m : LineMap}
    {g : Marked Mark} {s : Session} (hsource : s.files[file]? = some source)
    (hg : Explains options.functions s.files m g) :
    Agree (Recorded options.functions s)
      (addDirectives options loader nested file path dir base (Directive.texts done) m ds)
      (recordDirectives options loader nested' file path dir base (Directive.texts done) g ds)
      s s := by
  induction ds generalizing done m g s with
  | nil => exact .pure ⟨rfl, List.prefix_rfl, hg⟩
  | cons d ds ih =>
    refine .bind_same fun _ s₁ h₁ => ?_
    obtain rfl := returns_modifyVars.1 h₁
    have hd : Stands options.functions s.files file (Directive.texts done) d :=
      ⟨source, done, ds, hsource, hds, rfl⟩
    have hstep := recordDirective_agree loader dir
      (s := { s with vars := s.vars.sync base file d.scope }) hnested hd hg
    refine .bind (hstep.locating _ _) fun m' s' g' t' h => ?_
    obtain rfl := h.session
    have hdone : (scan options.functions source.text).directives = (done ++ [d]) ++ ds := by
      simpa using hds
    have hsource' : t'.files[file]? = some source := by
      obtain ⟨more, hmore⟩ := h.files
      obtain ⟨hlt, -⟩ := List.getElem?_eq_some_iff.1 hsource
      rw [← hmore, List.getElem?_append_left hlt, hsource]
    have hbefore : Directive.texts (done ++ [d]) = Directive.texts done ++ d.raw := by simp
    have hrest := ih hdone hsource' h.explains
    rw [hbefore] at hrest
    refine hrest.mono fun m'' s'' g'' t'' h' => ?_
    exact ⟨h'.session, h.files.trans h'.files, h'.explains⟩

theorem recordFile_follows (hnested : Follows options.functions nested nested') :
    Follows options.functions (assembleFile options loader nested)
      (recordFile options loader nested') := by
  intro id dir s source hsource
  refine .bind_same fun _ s₁ h₁ => ?_
  obtain ⟨rfl, rfl⟩ := returns_file.1 h₁
  refine .bind_same fun _ s₂ h₂ => ?_
  obtain ⟨rfl, rfl⟩ := returns_get.1 h₂
  rw [hsource, Option.getD_some]
  have hds : (scan options.functions source.text).directives =
      [] ++ (scan options.functions source.text).directives := rfl
  refine .bind (recordDirectives_agree hnested hds hsource .empty) fun m s' g t' h => ?_
  cases (scan options.functions source.text).error? with
  | none => exact .pure h
  | some e => exact .throw _ _

/-- Recording a file agrees with assembling it. -/
theorem record_follows (options : Options) (loader : Loader) (depth : Nat) :
    Follows options.functions (assemble options loader depth) (record options loader depth) := by
  induction depth with
  | zero =>
    refine recordFile_follows fun id dir s source hsource => ?_
    refine .bind_same fun source s₁ h₁ => ?_
    refine .bind_same fun _ s₂ h₂ => ?_
    exact .throw _ _
  | succ depth ih => exact recordFile_follows ih

end Assembly

/-! ### Compilations -/

namespace Compilation

open Assembly

/-- A record explains a compilation: there is one entry for each line of the
output, every entry names a line of a file that was read, exactly the lines of the
output are known, and each has the origin its first character calls for. -/
structure Explained (functions : FunctionTable) (c : Compilation) (g : Marked Mark) : Prop where
  output : c.output = g.text
  lineCount : c.map.entries.length = c.output.physicalLines
  inRange : ∀ origin ∈ c.map.entries, ∃ source, c.files[origin.file]? = some source ∧
    1 ≤ origin.line ∧ origin.line ≤ 1 + source.text.newlines
  lookup : ∀ k, (c.lookupFile? k).isSome = true ↔ 1 ≤ k ∧ k ≤ c.map.lineCount
  unknown : ∀ k, c.describeLine k = "unknown".toList ↔ ¬ (1 ≤ k ∧ k ≤ c.map.lineCount)
  copied : ∀ k i char file before, c.output.StartsLine k i →
    g[i]? = some (char, ⟨file, before, none⟩) →
    ∃ source rest, c.files[file]? = some source ∧ source.text = before ++ char :: rest ∧
      c.map.lookup k = .ok ⟨file, 1 + before.newlines⟩
  generated : ∀ k i char file before d, c.output.StartsLine k i →
    g[i]? = some (char, ⟨file, before, some d⟩) →
    ∃ source ds ds', c.files[file]? = some source ∧
      (scan functions source.text).directives = ds ++ d :: ds' ∧ d.kind ≠ .plain ∧
      d.line = 1 + (Directive.texts ds).newlines ∧ c.map.lookup k = .ok ⟨file, d.line⟩

theorem describeLine_eq_unknown_iff (c : Compilation) (k : Nat) :
    c.describeLine k = "unknown".toList ↔ c.lookupFile? k = none := by
  unfold describeLine
  split
  case h_1 path line h =>
    -- A place has a colon.
    rw [h]
    constructor
    · intro heq
      have hcolon : ':' ∈ "unknown".toList := by
        rw [← heq, place]
        simp
      exact absurd hcolon (by decide)
    · intro hnone
      cases hnone
  case h_2 h => simp [h]

theorem explained_of_explains {functions : FunctionTable} {c : Compilation} {g : Marked Mark}
    (h : Explains functions c.files c.map g) : c.Explained functions g := by
  have hcount : c.map.lineCount = c.output.physicalLines := h.refines.lineCount
  have hhead {k i : Nat} (hk : c.output.StartsLine k i) :
      ∃ char mark, g[i]? = some (char, mark) ∧ c.map.lookup k = .ok mark.origin ∧
        Mark.Holds functions c.files (char, mark) := by
    obtain ⟨char, mark, hmark, hlookup⟩ := h.refines.lookup hk
    refine ⟨char, mark, hmark, hlookup, h.holds _ ?_⟩
    rw [output, h.refines.buffer] at hk
    rw [← Marked.heads_getElem? hk] at hmark
    exact List.mem_of_getElem? hmark
  have hknown (k : Nat) : (c.lookupFile? k).isSome = true ↔ 1 ≤ k ∧ k ≤ c.map.lineCount := by
    rw [hcount, ← exists_startsLine_iff]
    constructor
    · intro hsome
      rw [exists_startsLine_iff, ← hcount]
      by_contra hout
      simp [lookupFile?, LineMap.lookup_eq_error hout] at hsome
    · rintro ⟨i, hk⟩
      obtain ⟨char, mark, -, hlookup, source, hsource, -⟩ := hhead hk
      simp only [lookupFile?, hlookup, file?]
      rw [show c.files[mark.origin.file]? = some source from hsource]
      rfl
  refine ⟨h.refines.buffer, hcount, ?_, hknown, ?_, ?_, ?_⟩
  · intro origin horigin
    rw [h.refines.entries] at horigin
    obtain ⟨⟨char, mark⟩, hx, rfl⟩ := List.mem_map.1 horigin
    obtain ⟨source, hsource, hbefore⟩ := (h.holds _ hx).before_isPrefix
    refine ⟨source, hsource, Nat.le_add_right 1 _, Nat.add_le_add_left ?_ 1⟩
    exact hbefore.sublist.count_le '\n'
  · intro k
    rw [describeLine_eq_unknown_iff, ← hknown, Bool.not_eq_true, Option.isSome_eq_false_iff,
      Option.isNone_iff_eq_none]
  · intro k i char file before hk hmark
    obtain ⟨char', mark', hmark', hlookup, source, hsource, hholds⟩ := hhead hk
    cases hmark.symm.trans hmark'
    obtain ⟨rest, hrest⟩ := hholds
    exact ⟨source, rest, hsource, hrest, hlookup⟩
  · intro k i char file before d hk hmark
    obtain ⟨char', mark', hmark', hlookup, source, hsource, hholds⟩ := hhead hk
    cases hmark.symm.trans hmark'
    obtain ⟨ds, ds', hds, hbefore, hkind⟩ := hholds
    have hline := Stands.line_eq ⟨source, ds, ds', hsource, hds, hbefore⟩
    refine ⟨source, ds, ds', hsource, hds, hkind, ?_, ?_⟩
    · rw [hline, show before = Directive.texts ds from hbefore]
    · rw [hline]
      exact hlookup

end Compilation

namespace Assembly

/-- Record a root text that is called `path`, its imports being relative to `dir`;
the result holds the files that were read as well. -/
def recordRoot (options : Options) (loader : Loader) (path : Path) (text : Text) (dir : Path) :
    Task (Marked Mark × List SourceFile) :=
  inRoot (record options loader · 0 dir) path text

/-- A root text that assembles can be recorded, and the record explains the
compilation. -/
theorem exists_record {options : Options} {loader : Loader} {path dir : Path} {text : Text}
    {w w' : Workspace} {c : Compilation}
    (h : Returns (assembleRoot options loader path text dir) w c w') :
    ∃ g, Returns (recordRoot options loader path text dir) w (g, c.files) w' ∧
      c.Explained options.functions g := by
  obtain ⟨s, hreturns, hfiles, rfl⟩ := returns_assembleRoot.1 h
  have hagree := record_follows options loader w.tree.fileCount 0 dir (start w path text)
    ⟨path, text, none⟩ rfl
  obtain ⟨g, t, hrecord⟩ := hagree.returns_iff.1 ⟨_, _, hreturns⟩
  have hrecorded := hagree.related hreturns hrecord
  obtain rfl := hrecorded.session
  refine ⟨g, returns_inRoot.2 ⟨t, hrecord, hfiles, rfl⟩, ?_⟩
  exact Compilation.explained_of_explains (hfiles ▸ hrecorded.explains)

end Assembly

namespace Preprocess

open Assembly

def recordFile (options : Options) (p : Path) : Task (Marked Mark × List SourceFile) := do
  let tree ← Task.tree
  let p := tree.absolute p
  let loader := loaderFor options tree p.directory
  match loader.load tree p with
  | .error e => Task.fail (.file e)
  | .ok (path, text) => recordRoot options loader path text path.directory

def recordSource (options : Options) (name text : Text) : Task (Marked Mark × List SourceFile) := do
  let tree ← Task.tree
  let dir := tree.absolute ⟨['.']⟩
  recordRoot options (loaderFor options tree dir) ⟨name⟩ text.normalizeNewlines dir

/-- Every compilation, of a file or of a text, is explained by its record: the map
has one entry for each line of the output and answers exactly for these lines, each
entry is a line of a file that was read, and it is the line on which the first
character of the output line stands, or the first line of the directive that
generated it. -/
theorem explained (options : Options) :
    (∀ p w c w', Returns (file options p) w c w' →
      ∃ g, Returns (recordFile options p) w (g, c.files) w' ∧ c.Explained options.functions g) ∧
    ∀ name text w c w', Returns (source options name text) w c w' →
      ∃ g, Returns (recordSource options name text) w (g, c.files) w' ∧
        c.Explained options.functions g := by
  have htree {tree : Tree} {w w' : Workspace} (h : Returns Task.tree w tree w') :
      tree = w.tree ∧ w' = w := by
    cases h
    exact ⟨rfl, rfl⟩
  constructor
  · intro p w c w' h
    obtain ⟨tree, w₁, hget, h⟩ := returns_bind.1 h
    obtain ⟨rfl, rfl⟩ := htree hget
    simp only at h
    split at h
    case h_1 => exact absurd h not_returns_throw
    case h_2 path text hload =>
      obtain ⟨g, hrecord, hg⟩ := exists_record h
      refine ⟨g, returns_bind.2 ⟨_, _, hget, ?_⟩, hg⟩
      simp only [hload]
      exact hrecord
  · intro name text w c w' h
    obtain ⟨tree, w₁, hget, h⟩ := returns_bind.1 h
    obtain ⟨rfl, rfl⟩ := htree hget
    obtain ⟨g, hrecord, hg⟩ := exists_record h
    exact ⟨g, returns_bind.2 ⟨_, _, hget, hrecord⟩, hg⟩

/-- An import between a plain line and an assignment whose value is generated. -/
theorem explained_import :
    ∃ c w' g,
      Returns (source Sample.options "-".toList
        "a;\n@import \"b\";\n$u:\n  image-url(\"x\");".toList)
        (Sample.workspace [("b.scss", "c\nd")]) c w' ∧
      c.output = "a;\nc\nd\n$u:\n  url(\"images/x\");".toList ∧
      c.map.entries = [⟨0, 1⟩, ⟨1, 1⟩, ⟨1, 2⟩, ⟨0, 3⟩, ⟨0, 4⟩] ∧
      Returns (recordSource Sample.options "-".toList
        "a;\n@import \"b\";\n$u:\n  image-url(\"x\");".toList)
        (Sample.workspace [("b.scss", "c\nd")]) (g, c.files) w' ∧
      c.Explained Sample.options.functions g := by
  have heval : (exec (source Sample.options "-".toList
      "a;\n@import \"b\";\n$u:\n  image-url(\"x\");".toList)
      (Sample.workspace [("b.scss", "c\nd")])).1.toOption.map
        (fun c => (c.output, c.map.entries)) =
      some ("a;\nc\nd\n$u:\n  url(\"images/x\");".toList,
        [⟨0, 1⟩, ⟨1, 1⟩, ⟨1, 2⟩, ⟨0, 3⟩, ⟨0, 4⟩]) := by decide +kernel
  obtain ⟨c, w', hreturns, hout⟩ := exists_returns heval
  obtain ⟨g, hrecord, hexplained⟩ := (explained Sample.options).2 _ _ _ _ _ hreturns
  exact ⟨c, w', g, hreturns, congrArg Prod.fst hout, congrArg Prod.snd hout, hrecord, hexplained⟩

end Preprocess

end StylePrep
