import StylePrep.Proofs.Alone
import StylePrep.Proofs.Includable
import StylePrep.Proofs.Rows
import StylePrep.Proofs.Sample

/-!
# Sources recovered from the output

Where files hold only plain text, assignments without calls, and imports that stand alone,
the output is made of whole lines of the files. Grouped by their origin, the lines of the
output are the lines of each file that no import covers, in order and with their numbers.

An import takes whole lines there, so the output in front of it is finished, and the file
that is spliced in joins no two lines. What the output has of a file that is read comes from
the assembly of that file alone, because every file that is read gets a number of its own
(`Restores`).
-/

namespace StylePrep

/-! ### Tidy files -/

namespace Scan

open Text Directive

variable {functions : FunctionTable}

/-- A directive whose text goes to the output as it is: plain text, or an assignment with no
call in its value. -/
def Copied (functions : FunctionTable) (d : Directive) : Prop :=
  match d.kind with
  | .plain => True
  | .assign _ _ value _ _ =>
    ∀ e ∈ (scanText functions .expression d.line value).directives, e.isCall = false
  | _ => False

/-- An import with nothing but blanks around it on its lines, `before` and `after` being the
text in front of it and behind it. -/
structure StandsAlone (before : Text) (d : Directive) (after : Text) : Prop where
  isImport : d.isImport = true
  start : ∀ c ∈ lineAfter [] before, isBlank c = true
  stop : d.raw.getLast? = some '\n' ∨ ∀ c ∈ after.takeWhile (· != '\n'), isBlank c = true

/-- Directives behind the text `before` that are copied, or are imports that stand alone. -/
def Tidily (functions : FunctionTable) : Text → List Directive → Prop
  | _, [] => True
  | before, d :: ds =>
    (Copied functions d ∨ StandsAlone before d (texts ds)) ∧ Tidily functions (before ++ d.raw) ds

/-- A text of plain text, assignments without calls, and imports that stand alone. -/
def Tidy (functions : FunctionTable) (t : Text) : Prop := Tidily functions [] (scan functions t).directives

instance {d : Directive} : Decidable (Copied functions d) :=
  match hkind : d.kind with
  | .plain => .isTrue (by simp [Copied, hkind])
  | .assign _ _ value _ _ =>
    decidable_of_iff
      (∀ e ∈ (scanText functions .expression d.line value).directives, e.isCall = false)
      (by simp [Copied, hkind])
  | .imports _ => .isFalse (by simp [Copied, hkind])
  | .sprite .. => .isFalse (by simp [Copied, hkind])
  | .custom .. => .isFalse (by simp [Copied, hkind])

instance {before after : Text} {d : Directive} : Decidable (StandsAlone before d after) :=
  decidable_of_iff (d.isImport = true ∧ (lineAfter [] before).all isBlank = true ∧
      (d.raw.getLast? = some '\n' ∨ (after.takeWhile (· != '\n')).all isBlank = true))
    ⟨fun ⟨isImport, start, stop⟩ =>
        ⟨isImport, List.all_eq_true.1 start, stop.imp_right List.all_eq_true.1⟩,
      fun h => ⟨h.isImport, List.all_eq_true.2 h.start, h.stop.imp_right List.all_eq_true.2⟩⟩

instance decidableTidily : (before : Text) → (ds : List Directive) → Decidable (Tidily functions before ds)
  | _, [] => .isTrue trivial
  | before, d :: ds =>
    have := decidableTidily (before ++ d.raw) ds
    inferInstanceAs (Decidable ((_ ∨ _) ∧ _))

instance {t : Text} : Decidable (Tidy functions t) := decidableTidily [] _

/-- An import that takes whole lines. -/
structure TakesLines (before : Text) (d : Directive) (after : Text) : Prop where
  isImport : d.isImport = true
  start : before.isOpen = false
  stop : d.raw.isOpen = false ∨ after = []

theorem isOpen_of_lineAfter {t : Text} (h : lineAfter [] t = []) : t.isOpen = false := by
  rcases List.eq_nil_or_concat t with rfl | ⟨t, c, rfl⟩
  · rfl
  · rw [List.concat_eq_append] at h ⊢
    rw [lineAfter_concat] at h
    by_cases hc : c = '\n'
    · simp [hc]
    · simp [hc] at h

theorem exists_targets {d : Directive} (h : d.isImport = true) : ∃ targets, d.kind = .imports targets := by
  unfold isImport at h
  split at h
  case h_1 targets hkind => exact ⟨targets, hkind⟩
  case h_2 => cases h

/-- An import that stands alone takes whole lines. -/
theorem StandsAlone.takesLines {t : Text} {ds ds' : List Directive} {d : Directive}
    (h : (scan functions t).directives = ds ++ d :: ds') (herror : (scan functions t).error? = none)
    (halone : StandsAlone (texts ds) d (texts ds')) : TakesLines (texts ds) d (texts ds') := by
  obtain ⟨targets, hkind⟩ := exists_targets halone.isImport
  refine ⟨halone.isImport, isOpen_of_lineAfter (lineStart_of_blank h hkind halone.start), ?_⟩
  have hend : d.raw.getLast? = some '\n' ∨ texts ds' = [] := by
    rcases halone.stop with hend | hblank
    · exact .inl hend
    · exact lineEnd_of_blank h herror hkind hblank
  exact hend.imp_left fun hend => isOpen_of_lineAfter (lineAfter_eq_nil hend [])

end Scan

namespace Assembly

open Step Text Directive Scan

variable {options : Options} {loader : Loader} {nested : Importer} {file : FileId}
variable {path dir : Path} {base : Nat} {before : Text} {α β : Type}

/-! ### Files that are read -/

/-- A step that only adds to the files that were read. -/
def Grows (x : Assembly α) : Prop := ∀ s a s', Returns x s a s' → s.files <+: s'.files

namespace Grows

theorem pure (a : α) : Grows (Pure.pure a : Assembly α) := by
  intro s b s' h
  obtain ⟨-, rfl⟩ := returns_pure.1 h
  exact List.prefix_rfl

theorem of_inWorkspace {x : Assembly α} (hx : InWorkspace x) : Grows x := by
  intro s a s' h
  obtain ⟨w, hw⟩ := hx s
  rw [h] at hw
  obtain rfl : s' = { s with workspace := w } := hw
  exact List.prefix_rfl

theorem bind {x : Assembly α} {f : α → Assembly β} (hx : Grows x) (hf : ∀ a, Grows (f a)) :
    Grows (x >>= f) := by
  intro s b s' h
  obtain ⟨a, s₁, h₁, h₂⟩ := returns_bind.1 h
  exact (hx s a s₁ h₁).trans (hf a s₁ b s' h₂)

theorem throw (e : Error) : Grows (MonadExcept.throw e : Assembly α) :=
  fun _ _ _ h => absurd h not_returns_throw

theorem get : Grows (MonadState.get : Assembly Session) := by
  intro s a s' h
  obtain ⟨-, rfl⟩ := returns_get.1 h
  exact List.prefix_rfl

theorem update {f : Session → Session} (hf : ∀ s, (f s).files = s.files) :
    Grows (modify f : Assembly PUnit) := by
  intro s a s' h
  obtain rfl := returns_modify.1 h
  exact hf s ▸ List.prefix_rfl

theorem addFile (source : SourceFile) : Grows (Assembly.addFile source) := by
  intro s a s' h
  rw [(returns_addFile.1 h).2]
  exact List.prefix_append _ _

theorem locating {x : Assembly α} (hx : Grows x) (place : Text) : Grows (Assembly.locating place x) :=
  fun s a s' h => hx s a s' (returns_locating.1 h)

end Grows

theorem importTarget_grows (hnested : ∀ id dir, Grows (nested id dir)) (target : Text) :
    Grows (importTarget options loader nested file dir target) := by
  refine .bind .get fun _ => .bind (.of_inWorkspace (ofExcept_inWorkspace _ _)) fun _ => ?_
  refine .bind .get fun _ => .bind (.of_inWorkspace (ofExcept_inWorkspace _ _)) fun _ => ?_
  refine .bind (.update fun _ => rfl) fun _ => ?_
  refine .bind (.of_inWorkspace (ofExcept_inWorkspace _ _)) fun _ => .bind (.addFile _) fun _ => ?_
  exact .bind (hnested _ _) fun _ => .bind (.update fun _ => rfl) fun _ => .pure _

theorem importAll_grows (hnested : ∀ id dir, Grows (nested id dir)) (targets : List Text) (map : LineMap) :
    Grows (importAll options loader nested file dir targets map) := by
  induction targets generalizing map with
  | nil => exact .pure _
  | cons target targets ih => exact .bind (importTarget_grows hnested target) fun _ => ih _

theorem modifyVars_grows (f : VariableTable → VariableTable) : Grows (modifyVars f) :=
  .update fun _ => rfl

theorem addDirective_grows (hnested : ∀ id dir, Grows (nested id dir)) (map : LineMap) (d : Directive) :
    Grows (addDirective options loader nested file dir before map d) := by
  unfold addDirective
  cases d.kind with
  | plain => exact .pure _
  | imports targets => exact importAll_grows hnested targets map
  | assign name lead value tail flags =>
    refine .bind (.of_inWorkspace (expandValue_inWorkspace options value d.line)) fun value? => ?_
    cases value? <;> exact .bind (modifyVars_grows _) fun _ => .pure _
  | sprite function args binding? =>
    refine .bind (.of_inWorkspace (expandSprite_inWorkspace options function args d.line _)) ?_
    intro expansion
    cases binding? with
    | none => exact .pure _
    | some binding =>
      dsimp only
      cases expansion.sheet? with
      | none => exact .pure _
      | some sheet => exact .bind (modifyVars_grows _) fun _ => .pure _
  | custom name args =>
    exact .bind (.of_inWorkspace (normalizeCall_inWorkspace _ name args d.line)) fun _ => .pure _

theorem addDirectives_grows (hnested : ∀ id dir, Grows (nested id dir)) (map : LineMap)
    (ds : List Directive) :
    Grows (addDirectives options loader nested file path dir base before map ds) := by
  induction ds generalizing before map with
  | nil => exact .pure _
  | cons d ds ih =>
    exact .bind (modifyVars_grows _) fun _ => .bind ((addDirective_grows hnested map d).locating _) fun _ => ih _

theorem assembleFile_grows (hnested : ∀ id dir, Grows (nested id dir)) (id : FileId) (dir : Path) :
    Grows (assembleFile options loader nested id dir) := by
  refine .bind (.of_inWorkspace fun s => ⟨s.workspace, rfl⟩) fun source => .bind .get fun _ => ?_
  refine .bind (addDirectives_grows hnested _ _) fun map => ?_
  split
  · exact .throw _
  · exact .pure _

theorem importerAt_grows (options : Options) (loader : Loader) (depth : Nat) (id : FileId) (dir : Path) :
    Grows (importerAt options loader depth id dir) := by
  induction depth generalizing id dir with
  | zero => exact .bind (.of_inWorkspace fun s => ⟨s.workspace, rfl⟩) fun _ => .bind .get fun _ => .throw _
  | succ depth ih =>
    rw [importerAt, assemble_eq]
    exact assembleFile_grows ih id dir

/-! ### Directives that are copied -/

theorem append_append (m : LineMap) (s t : Text) (file : FileId) (n : Nat) :
    (m.append s file n).append t file (n + s.newlines) = m.append (s ++ t) file n := by
  induction s generalizing m n with
  | nil => simp
  | cons c s ih =>
    rw [List.cons_append, LineMap.append_cons, LineMap.append_cons, ← ih]
    congr 1
    simp
    omega

/-- Where there is no call, nothing is replaced. -/
theorem returns_expandDirectives {ds : List Directive} (h : ∀ d ∈ ds, d.isCall = false)
    {result : Text × Bool} {s s' : Session} (hreturns : Returns (expandDirectives options ds) s result s') :
    result.2 = false ∧ s' = s := by
  induction ds generalizing s result with
  | nil =>
    obtain ⟨rfl, rfl⟩ := returns_pure.1 hreturns
    exact ⟨rfl, rfl⟩
  | cons d ds ih =>
    rw [expandDirectives_cons] at hreturns
    obtain ⟨piece, s₁, hpiece, hreturns⟩ := returns_bind.1 hreturns
    obtain ⟨rest, s₂, hrest, hreturns⟩ := returns_bind.1 hreturns
    obtain ⟨rfl, rfl⟩ := returns_pure.1 hreturns
    have hd : d.isCall = false := h d List.mem_cons_self
    obtain ⟨hfirst, rfl⟩ : piece.2 = false ∧ s₁ = s := by
      unfold expandPiece at hpiece
      unfold isCall at hd
      split at hpiece
      · simp_all
      · simp_all
      · obtain ⟨rfl, rfl⟩ := returns_pure.1 hpiece
        exact ⟨rfl, rfl⟩
    obtain ⟨hothers, rfl⟩ := ih (fun e he => h e (List.mem_cons_of_mem _ he)) hrest
    simp [hfirst, hothers]

theorem returns_expandValue {value : Text} {line : Nat}
    (h : ∀ e ∈ (scanText options.functions .expression line value).directives, e.isCall = false)
    {value? : Option Text} {s s' : Session}
    (hreturns : Returns (expandValue options value line) s value? s') : value? = none ∧ s' = s := by
  obtain ⟨⟨text, changed⟩, s₁, hexpand, hend⟩ := returns_bind.1 hreturns
  obtain ⟨hchanged, hs⟩ := returns_expandDirectives h hexpand
  change changed = false at hchanged
  simp only [hchanged] at hend
  split at hend
  · exact absurd hend not_returns_throw
  · obtain ⟨hnone, hs'⟩ := returns_pure.1 hend
    exact ⟨hnone, hs'.trans hs⟩

/-- A directive that is copied adds its text. -/
theorem map_of_copied {map map' : LineMap} {d : Directive} {s s' : Session}
    (hd : Copied options.functions d)
    (h : Returns (addDirective options loader nested file dir before map d) s map' s') :
    map' = map.append d.raw file d.line ∧ s'.files = s.files := by
  unfold addDirective at h
  unfold Copied at hd
  split at hd
  case h_1 hkind =>
    rw [hkind] at h
    obtain ⟨rfl, rfl⟩ := returns_pure.1 h
    exact ⟨rfl, rfl⟩
  case h_2 name lead value tail flags hkind =>
    rw [hkind] at h
    obtain ⟨value?, s₁, hvalue, hadd⟩ := returns_bind.1 h
    obtain ⟨hnone, hs⟩ := returns_expandValue hd hvalue
    rw [hnone] at hadd
    obtain ⟨_, s₂, hassign, hend⟩ := returns_bind.1 hadd
    obtain ⟨hmap, hs'⟩ := returns_pure.1 hend
    exact ⟨hmap, by rw [hs', returns_modifyVars.1 hassign, hs]⟩
  case h_3 => exact hd.elim

theorem isImport_of_copied {functions : FunctionTable} {d : Directive} (h : Copied functions d) :
    d.isImport = false := by
  unfold Copied at h
  unfold isImport
  split <;> simp_all

/-! ### Files that are assembled -/

/-- What is to be recovered of a file that was read. -/
def recoverable (functions : FunctionTable) (files : List SourceFile) (id : FileId) : List (Text × Nat) :=
  (files[id]?).elim [] fun source =>
    kept (scan functions source.text).directives (numbered 1 source.text)

/-- The files from number `id` on are tidy. -/
def TidyFrom (functions : FunctionTable) (id : FileId) (files : List SourceFile) : Prop :=
  ∀ x source, id ≤ x → files[x]? = some source → Tidy functions source.text

/-- An assembled map has of each file that was read from number `id` on what is to be
recovered, and of other files nothing. -/
structure Restored (functions : FunctionTable) (id : FileId) (files : List SourceFile) (m : LineMap) :
    Prop where
  whole : m.Whole
  rows : ∀ x, m.rowsOf x = if id ≤ x then recoverable functions files x else []

/-- The assembly of a file that was read last restores it and all files it leads to. -/
def Restores (functions : FunctionTable) (nested : Importer) : Prop :=
  ∀ id dir s source m s', s.files[id]? = some source → id + 1 = s.files.length →
    Returns (nested id dir) s m s' → TidyFrom functions id s'.files →
    Restored functions id s'.files m

theorem returns_importTarget {target : Text} {m : LineMap} {s s' : Session}
    (h : Returns (importTarget options loader nested file dir target) s m s') :
    ∃ path text stack s₁, Returns (nested s.files.length path.directory)
        { s with stack, files := s.files ++ [⟨path, text, some file⟩] } m s₁ ∧
      s'.files = s₁.files := by
  obtain ⟨_, s₁, hget, h₁⟩ := returns_bind.1 h
  obtain ⟨rfl, rfl⟩ := returns_get.1 hget
  obtain ⟨path, s₂, hpath, h₂⟩ := returns_bind.1 h₁
  obtain ⟨-, rfl⟩ := returns_ofExcept.1 hpath
  obtain ⟨_, s₃, hget', h₃⟩ := returns_bind.1 h₂
  obtain ⟨rfl, rfl⟩ := returns_get.1 hget'
  obtain ⟨stack, s₄, hpush, h₄⟩ := returns_bind.1 h₃
  obtain ⟨-, rfl⟩ := returns_ofExcept.1 hpush
  obtain ⟨_, s₅, hstack, h₅⟩ := returns_bind.1 h₄
  obtain rfl := returns_modify.1 hstack
  obtain ⟨⟨path', text⟩, s₆, hload, h₆⟩ := returns_bind.1 h₅
  obtain ⟨-, rfl⟩ := returns_ofExcept.1 hload
  obtain ⟨id, s₇, hadd, h₇⟩ := returns_bind.1 h₆
  obtain ⟨rfl, rfl⟩ := returns_addFile.1 hadd
  obtain ⟨m', s₈, hnested, h₈⟩ := returns_bind.1 h₇
  obtain ⟨_, s₉, hpop, h₉⟩ := returns_bind.1 h₈
  obtain rfl := returns_modify.1 hpop
  obtain ⟨rfl, rfl⟩ := returns_pure.1 h₉
  exact ⟨path', text, stack, s₈, hnested, rfl⟩

theorem recoverable_of_lt {functions : FunctionTable} {files files' : List SourceFile}
    (h : files <+: files') {id : FileId} (hid : id < files.length) :
    recoverable functions files' id = recoverable functions files id := by
  obtain ⟨more, rfl⟩ := h
  rw [recoverable, recoverable, List.getElem?_append_left hid]

theorem recoverable_of_le {functions : FunctionTable} {files : List SourceFile} {id : FileId}
    (h : files.length ≤ id) : recoverable functions files id = [] := by
  rw [recoverable, List.getElem?_eq_none h]
  rfl

/-- What is recovered of files that were read first, and then of those read later. -/
theorem recoverable_append {functions : FunctionTable} {files files' : List SourceFile}
    (h : files <+: files') {id : FileId} (hid : id ≤ files.length) (x : FileId) :
    ((if id ≤ x then recoverable functions files x else []) ++
      if files.length ≤ x then recoverable functions files' x else []) =
      if id ≤ x then recoverable functions files' x else [] := by
  by_cases hx : files.length ≤ x
  · rw [recoverable_of_le hx, if_pos hx, if_pos (Nat.le_trans hid hx), if_pos (Nat.le_trans hid hx)]
    rfl
  · rw [recoverable_of_lt h (Nat.lt_of_not_le hx), if_neg hx, List.append_nil]

theorem TidyFrom.initial {functions : FunctionTable} {files files' : List SourceFile} {id id' : FileId}
    (h : TidyFrom functions id files') (hfiles : files <+: files') (hid : id ≤ id') :
    TidyFrom functions id' files := by
  intro x source hx hsource
  obtain ⟨more, rfl⟩ := hfiles
  obtain ⟨hlt, -⟩ := List.getElem?_eq_some_iff.1 hsource
  exact h x source (Nat.le_trans hid hx) (by rw [List.getElem?_append_left hlt, hsource])

/-- What the targets of an import add to the output. -/
theorem rowsOf_importAll (hnested : Restores options.functions nested)
    (hgrows : ∀ id dir, Grows (nested id dir)) {targets : List Text} {m m' : LineMap} {s s' : Session}
    (hm : m.Whole) (hclosed : m.buffer.isOpen = false)
    (h : Returns (importAll options loader nested file dir targets m) s m' s')
    (htidy : TidyFrom options.functions s.files.length s'.files) :
    m'.Whole ∧ m'.buffer.isOpen = false ∧
      ∀ x, m'.rowsOf x = m.rowsOf x ++
        if s.files.length ≤ x then recoverable options.functions s'.files x else [] := by
  induction targets generalizing m s with
  | nil =>
    obtain ⟨rfl, rfl⟩ := returns_pure.1 h
    refine ⟨hm, hclosed, fun x => ?_⟩
    split
    case isTrue hx => rw [recoverable_of_le hx, List.append_nil]
    case isFalse => rw [List.append_nil]
  | cons target targets ih =>
    obtain ⟨child, s₁, htarget, hrest⟩ := returns_bind.1 h
    have hgrown := importAll_grows hgrows targets _ _ _ _ hrest
    obtain ⟨path, text, stack, s₂, hchild, hfiles⟩ := returns_importTarget htarget
    have hlonger := hgrows _ _ _ _ _ hchild
    rw [← hfiles] at hlonger
    have hlength : s.files.length + 1 ≤ s₁.files.length := by simpa using hlonger.length_le
    have hrestored := hnested _ _ _ ⟨path, text, some file⟩ _ _ (by simp) (by simp) hchild
      (hfiles ▸ htidy.initial hgrown (Nat.le_refl _))
    rw [← hfiles] at hrestored
    obtain ⟨hwhole, hclosed'⟩ := hm.splice hclosed hrestored.whole
    obtain ⟨hm', hopen', hrows⟩ := ih hwhole hclosed' hrest
      (htidy.initial List.prefix_rfl (Nat.le_of_succ_le hlength))
    refine ⟨hm', hopen', fun x => ?_⟩
    rw [hrows, LineMap.rowsOf_splice hm hclosed hrestored.whole, hrestored.rows, List.append_assoc]
    rw [recoverable_append hgrown (Nat.le_of_succ_le hlength)]

/-- What the directives of a file add to the output. `block` is text behind the last import,
which starts on the line `n`, and `m` is the output in front of it. -/
theorem rowsOf_addDirectives (hnested : Restores options.functions nested)
    (hgrows : ∀ id dir, Grows (nested id dir)) {source : SourceFile} {done ds : List Directive}
    (hds : (scan options.functions source.text).directives = done ++ ds)
    (herror : (scan options.functions source.text).error? = none)
    (htidy : Tidily options.functions (texts done) ds) {front block : Text}
    (hdone : texts done = front ++ block) {n : Nat} (hn : n = 1 + front.newlines) {m m' : LineMap}
    (hm : m.Whole) (hclosed : m.buffer.isOpen = false) {s s' : Session} (hfile : file < s.files.length)
    (h : Returns (addDirectives options loader nested file path dir base (texts done)
      (m.append block file n) ds) s m' s')
    (hfiles : TidyFrom options.functions s.files.length s'.files) :
    m'.Whole ∧ ∀ x, m'.rowsOf x = m.rowsOf x ++
      if x = file then kept ds (numbered n (block ++ texts ds))
      else if s.files.length ≤ x then recoverable options.functions s'.files x else [] := by
  induction ds generalizing done front block n m s with
  | nil =>
    obtain ⟨rfl, rfl⟩ := returns_pure.1 h
    refine ⟨hm.append hclosed block file n, fun x => ?_⟩
    rw [LineMap.rowsOf_append hm hclosed]
    congr 1
    by_cases hx : x = file
    · simp [hx, kept]
    · by_cases hx' : s'.files.length ≤ x
      · simp [hx, hx', recoverable_of_le hx']
      · simp [hx, hx']
  | cons d ds ih =>
    obtain ⟨map₁, s₁, hd, hrest⟩ := returns_addDirectives_cons.1 h
    have hds' : (scan options.functions source.text).directives = (done ++ [d]) ++ ds := by
      simpa using hds
    have hdone' : texts (done ++ [d]) = texts done ++ d.raw := by simp
    have hline : d.line = n + block.newlines := by
      rw [line_of_scan hds, hdone, newlines_append, hn, Nat.add_assoc]
    rw [← hdone'] at hrest
    have hgrown := addDirectives_grows hgrows _ _ _ _ _ hrest
    obtain ⟨hcopied | halone, htidy'⟩ := htidy
    · obtain ⟨rfl, hs₁⟩ := map_of_copied hcopied hd
      change s₁.files = s.files at hs₁
      rw [hline, append_append] at hrest
      obtain ⟨hwhole, hrows⟩ := ih hds' (hdone' ▸ htidy') (by rw [hdone', hdone, List.append_assoc]) hn
        hm hclosed (hs₁ ▸ hfile) hrest (hs₁ ▸ hfiles)
      refine ⟨hwhole, fun x => ?_⟩
      rw [hrows, hs₁, kept_cons (isImport_of_copied hcopied), texts_cons, List.append_assoc block]
    · have htakes := halone.takesLines hds herror
      obtain ⟨targets, hkind⟩ := exists_targets halone.isImport
      have hblock : block.isOpen = false := isOpen_right (hdone ▸ htakes.start)
      have hopen : (m.append block file n).buffer.isOpen = false := by
        rw [LineMap.buffer_append hm]
        exact isOpen_append_eq_false hclosed hblock
      rw [addDirective, hkind] at hd
      change Returns (importAll options loader nested file dir targets (m.append block file n)) _ _ _ at hd
      obtain ⟨hm₁, hclosed₁, hrows₁⟩ := rowsOf_importAll hnested hgrows (hm.append hclosed block file n)
        hopen hd (hfiles.initial hgrown (Nat.le_refl _))
      have hlonger := importAll_grows hgrows targets _ _ _ _ hd
      change s.files <+: s₁.files at hlonger
      obtain ⟨hwhole, hrows⟩ := ih hds' (hdone' ▸ htidy') (List.append_nil _).symm rfl hm₁ hclosed₁
        (Nat.lt_of_lt_of_le hfile hlonger.length_le) hrest
        (hfiles.initial List.prefix_rfl hlonger.length_le)
      refine ⟨hwhole, fun x => ?_⟩
      rw [hrows, hrows₁, LineMap.rowsOf_append hm hclosed, List.append_assoc, List.append_assoc]
      congr 1
      by_cases hx : x = file
      · have hbelow : ¬ s.files.length ≤ file := Nat.not_le.2 hfile
        have hkept := kept_import halone.isImport hblock hline htakes.stop fun e => line_le_of_scan hds
        have hnext : 1 + (texts (done ++ [d])).newlines = d.line + d.raw.newlines := by
          rw [hdone', newlines_append, hline, hdone, newlines_append, hn]
          omega
        simp only [hx, if_true, texts_cons, hkept, hnext, List.nil_append]
        simp [hbelow]
      · simp only [if_neg hx, List.nil_append]
        exact recoverable_append hgrown hlonger.length_le x

theorem assembleFile_restores (hnested : Restores options.functions nested)
    (hgrows : ∀ id dir, Grows (nested id dir)) :
    Restores options.functions (assembleFile options loader nested) := by
  intro id dir s source m s' hsource hlast h htidy
  obtain ⟨herror, hadd⟩ := (returns_assembleFile hsource).1 h
  have hgrown := addDirectives_grows hgrows _ _ _ _ _ hadd
  have hid : id < s.files.length := Nat.lt_of_lt_of_eq (Nat.lt_succ_self id) hlast
  have hsource' : s'.files[id]? = some source := by
    obtain ⟨more, hmore⟩ := hgrown
    rw [← hmore, List.getElem?_append_left hid, hsource]
  have hds : (scan options.functions source.text).directives =
      [] ++ (scan options.functions source.text).directives := rfl
  obtain ⟨hwhole, hrows⟩ := rowsOf_addDirectives hnested hgrows hds herror
    (htidy id source (Nat.le_refl _) hsource') (show texts [] = [] ++ [] from rfl) rfl .empty rfl hid hadd
    (htidy.initial List.prefix_rfl (Nat.le_of_lt hid))
  refine ⟨hwhole, fun x => (hrows x).trans ?_⟩
  rw [List.nil_append, texts_scan herror]
  change [] ++ _ = _
  rw [List.nil_append]
  by_cases hx : x = id
  · simp [hx, recoverable, hsource']
  · have hle : s.files.length ≤ x ↔ id ≤ x := by
      rw [← hlast]
      exact ⟨Nat.le_of_succ_le, fun h => Nat.lt_of_le_of_ne h (Ne.symm hx)⟩
    simp [hx, hle]

theorem importerAt_restores (options : Options) (loader : Loader) (depth : Nat) :
    Restores options.functions (importerAt options loader depth) := by
  induction depth with
  | zero =>
    intro id dir s source m s' _ _ h
    exact absurd h not_returns_importerAt_zero
  | succ depth ih =>
    rw [importerAt, assemble_eq]
    exact assembleFile_restores ih (importerAt_grows options loader depth)

/-! ### A text without imports -/

theorem copied_of_tidily {functions : FunctionTable} {before : Text} {ds : List Directive}
    (h : Tidily functions before ds) (hds : ∀ d ∈ ds, d.isImport = false) : ∀ d ∈ ds, Copied functions d := by
  induction ds generalizing before with
  | nil => simp
  | cons d ds ih =>
    obtain ⟨hd, hrest⟩ := h
    have hcopied : Copied functions d := by
      refine hd.resolve_right fun halone => ?_
      exact Bool.false_ne_true ((hds d List.mem_cons_self).symm.trans halone.isImport)
    exact List.forall_mem_cons.2 ⟨hcopied, ih hrest fun e he => hds e (List.mem_cons_of_mem _ he)⟩

/-- Directives that are copied add their text. -/
theorem map_of_addDirectives {source : SourceFile} {done ds : List Directive}
    (hds : (scan options.functions source.text).directives = done ++ ds)
    (hcopied : ∀ d ∈ ds, Copied options.functions d) {m m' : LineMap} {s s' : Session}
    (h : Returns (addDirectives options loader nested file path dir base (texts done) m ds) s m' s') :
    m' = m.append (texts ds) file (1 + (texts done).newlines) := by
  induction ds generalizing done m s with
  | nil => exact (returns_pure.1 h).1
  | cons d ds ih =>
    obtain ⟨map₁, s₁, hd, hrest⟩ := returns_addDirectives_cons.1 h
    obtain ⟨hfirst, hothers⟩ := List.forall_mem_cons.1 hcopied
    obtain ⟨rfl, -⟩ := map_of_copied hfirst hd
    have hdone' : texts (done ++ [d]) = texts done ++ d.raw := by simp
    rw [← hdone'] at hrest
    rw [ih (by simpa using hds) hothers hrest, hdone', line_of_scan hds, newlines_append, ← Nat.add_assoc,
      append_append, texts_cons]

/-- Grouped by their origin, the lines of the output are those of each file that no import
covers. If there is no import, the output is the text itself. -/
theorem assembleRoot_recovered {text : Text} {w w' : Workspace} {c : Compilation}
    (hreturns : Returns (assembleRoot options loader path text dir) w c w')
    (htidy : ∀ source ∈ c.files, Tidy options.functions source.text) :
    (∀ id source, c.files[id]? = some source →
      c.map.rowsOf id = kept (scan options.functions source.text).directives (numbered 1 source.text)) ∧
    ((∀ d ∈ (scan options.functions text).directives, d.isImport = false) →
      c.output = text ∧ ∀ k, 1 ≤ k → k ≤ text.lines.length → c.map.lookup k = .ok ⟨0, k⟩) := by
  obtain ⟨s, hassemble, hfiles, -⟩ := returns_assembleRoot.1 hreturns
  rw [assemble_eq] at hassemble
  have hsource : (start w path text).files[0]? = some ⟨path, text, none⟩ := rfl
  have htidy' : TidyFrom options.functions 0 s.files := by
    intro x source _ hsource
    exact htidy source (hfiles ▸ List.mem_of_getElem? hsource)
  constructor
  · intro id source hid
    have hrestored := assembleFile_restores (importerAt_restores options loader _)
      (importerAt_grows options loader _) 0 dir _ _ _ _ hsource rfl hassemble htidy'
    rw [hrestored.rows, if_pos (Nat.zero_le id), recoverable, ← hfiles, hid, Option.elim_some]
  · intro himports
    obtain ⟨herror, hadd⟩ := (returns_assembleFile hsource).1 hassemble
    have hgrown := addDirectives_grows (importerAt_grows options loader _) _ _ _ _ _ hadd
    have hroot : Tidy options.functions text := by
      obtain ⟨more, hmore⟩ := hgrown
      exact htidy' 0 ⟨path, text, none⟩ (Nat.le_refl 0) (by rw [← hmore]; rfl)
    have hds : (scan options.functions text).directives =
        [] ++ (scan options.functions text).directives := rfl
    have hmap := @map_of_addDirectives _ _ _ _ _ _ _ ⟨path, text, none⟩ _ _ hds
      (copied_of_tidily hroot himports) _ _ _ _ hadd
    rw [texts_scan herror] at hmap
    change c.map = LineMap.empty.append text 0 1 at hmap
    constructor
    · rw [Compilation.output, hmap]
      exact LineMap.buffer_append .empty text 0 1
    · intro k hk hle
      obtain ⟨i, rfl⟩ : ∃ i, k = i + 1 := ⟨k - 1, by omega⟩
      rw [hmap, LineMap.lookup, LineMap.entries_append]
      simp [LineMap.empty, Nat.lt_of_succ_le hle, Nat.add_comm 1 i]

/-- A file that is imported with an indentation and imports another one, whose last line is
not finished. -/
theorem assembleRoot_recovered_nested :
    ∃ c w', Returns (assembleRoot Sample.options
        (Preprocess.loaderFor Sample.options
          (Sample.tree [("b.scss", "$d: e;\n@import 'c';\n"), ("c.scss", "f \x7b \x7d")]) ⟨['/']⟩)
        ⟨['-']⟩ "x \x7b\n  @import \"b\";\ny: z; \x7d\n".toList ⟨['/']⟩)
        (Sample.workspace [("b.scss", "$d: e;\n@import 'c';\n"), ("c.scss", "f \x7b \x7d")]) c w' ∧
      c.map.rowsOf 0 = [("x \x7b".toList, 1), ("y: z; \x7d".toList, 3)] ∧
      c.map.rowsOf 1 = [("$d: e;".toList, 1)] ∧ c.map.rowsOf 2 = [("f \x7b \x7d".toList, 1)] := by
  set files := [("b.scss", "$d: e;\n@import 'c';\n"), ("c.scss", "f \x7b \x7d")]
  set loader := Preprocess.loaderFor Sample.options (Sample.tree files) ⟨['/']⟩
  set text := "x \x7b\n  @import \"b\";\ny: z; \x7d\n".toList
  have heval : (exec (assembleRoot Sample.options loader ⟨['-']⟩ text ⟨['/']⟩)
      (Sample.workspace files)).1.toOption.map (fun c => c.files.map (·.text)) =
      some [text, "$d: e;\n@import 'c';\n".toList, "f \x7b \x7d".toList] := by
    decide +kernel
  obtain ⟨c, w', hreturns, htexts⟩ := exists_returns heval
  have htidy : ∀ source ∈ c.files, Tidy Sample.options.functions source.text := by
    intro source hsource
    have hmem := List.mem_map_of_mem (f := (·.text)) hsource
    rw [htexts] at hmem
    have hall : ∀ t ∈ [text, "$d: e;\n@import 'c';\n".toList, "f \x7b \x7d".toList],
        Tidy Sample.options.functions t := by
      decide +kernel
    exact hall _ hmem
  have hrecovered := (assembleRoot_recovered hreturns htidy).1
  have hfile : ∀ id t, (c.files.map (·.text))[id]? = some t →
      c.map.rowsOf id = kept (scan Sample.options.functions t).directives (numbered 1 t) := by
    intro id t ht
    rw [List.getElem?_map, Option.map_eq_some_iff] at ht
    obtain ⟨source, hsource, rfl⟩ := ht
    exact hrecovered id source hsource
  rw [htexts] at hfile
  refine ⟨c, w', hreturns, (hfile 0 _ rfl).trans ?_, (hfile 1 _ rfl).trans ?_, (hfile 2 _ rfl).trans ?_⟩
  · decide +kernel
  · decide +kernel
  · decide +kernel

end Assembly

end StylePrep
