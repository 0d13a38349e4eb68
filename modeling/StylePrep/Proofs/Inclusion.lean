import StylePrep.Proofs.Includable
import StylePrep.Proofs.Sample

/-!
# Importing is inclusion

A sheet imports one file in a line of its own. If the text of the file stood there in
place of the line, the compilation would do the same, and put out the same, but for one
line feed: a file that is not empty is put between line ends, so an output line that is
still open in front of the import is finished first, where a text that is included goes
on with it (`assembleRoot_inclusion`).

Both compilations are played. They are the same up to the import. Playing the file starts
in the scopes of the import, with an empty output and closes no other blocks, and playing
the included text goes on with scopes that the next directive closes. So both are similar
up to the end of the file, where they become similar again behind the import.
-/

namespace StylePrep

theorem ImportStack.pop_of_push {stack stack' : ImportStack} {p : Path} (h : stack.push p = .ok stack') :
    stack'.pop = stack := by
  unfold push at h
  split at h
  · cases h
    simp [pop]
  · cases h

namespace VariableTable

theorem le_innermost_of_shift {table : VariableTable} {low depth : Nat}
    (h : (table.shift low depth).innermost = depth) (hlow : low ≤ depth) : low ≤ table.innermost := by
  simp only [shift, innermost, List.length_append, List.length_take, List.length_replicate] at h ⊢
  omega

end VariableTable

namespace Text

theorem lineAfter_of_blank {t : Text} (h : ∀ c ∈ t, isBlank c = true) (line : Text) :
    lineAfter line t = line ++ t := by
  induction t using List.reverseRecOn with
  | nil => simp
  | append_singleton t c ih =>
    have hc : c ≠ '\n' := by
      rintro rfl
      cases h '\n' (by simp)
    rw [lineAfter_concat, if_neg hc, ih fun d hd => h d (by simp [hd]), List.append_assoc]

theorem clearAfter_of_blank {t : Text} (h : ∀ c ∈ t, isBlank c = true) :
    clearAfter true t = true := by
  induction t using List.reverseRecOn with
  | nil => rfl
  | append_singleton t c ih =>
    rw [clearAfter_concat, ih fun d hd => h d (by simp [hd]), h c (by simp)]
    simp

/-- A text that ends its last line is spliced as it is, behind a finished line. -/
theorem spliced_of_newline (t : Text) {u : Text} (h : u.getLast? = some '\n') :
    t.spliced u = t.closed ++ u := by
  obtain ⟨u, rfl⟩ := List.getLast?_eq_some_iff.1 h
  rw [spliced, if_neg (by simp), ← List.append_assoc, closed, isOpen_concat]
  simp

end Text

namespace Stage

@[simp] theorem copy_nil (stage : Stage) : stage.copy [] = stage := by simp [copy]

@[simp] theorem copy_copy (stage : Stage) (s t : Text) : (stage.copy s).copy t = stage.copy (s ++ t) := by
  simp [copy, Text.lineAfter_append, Text.clearAfter_append]

/-- The blanks in front of an import are not put out. -/
theorem unindented_copy {stage : Stage} (hsound : stage.Sound) (hline : stage.line = []) {indent : Text}
    (hindent : ∀ c ∈ indent, Text.isBlank c = true) : (stage.copy indent).unindented = stage.out := by
  apply unindented_of_out
  rw [Stage.indent, copy]
  simp only [hline, hsound.clear hline, Text.lineAfter_of_blank hindent, Text.clearAfter_of_blank hindent]
  rfl

end Stage

namespace Assembly

open Step Scan VariableTable

variable {options : Options} {loader : Loader} {nested : Player} {dir : Path}

/-- Pieces without imports do not care how imports are played. -/
theorem playPieces_congr {ps : List Piece} (hps : ∀ p ∈ ps, ¬ p.Imports) (nested' : Player) (dir' : Path)
    (stage : Stage) :
    playPieces options loader nested dir stage ps = playPieces options loader nested' dir' stage ps := by
  induction ps generalizing stage with
  | nil => rfl
  | cons p ps ih =>
    have hpiece : playPiece options loader nested dir stage p =
        playPiece options loader nested' dir' stage p := by
      cases p with
      | token => rfl
      | act c found =>
        have hkind : ∀ targets, found.kind ≠ .imports targets := fun targets heq =>
          hps _ List.mem_cons_self ⟨targets, heq⟩
        rw [playPiece, playPiece, perform_eq_replacement hkind, perform_eq_replacement hkind]
    rw [playPieces, playPieces, hpiece]
    exact congrArg _ (funext fun next => ih (fun q hq => hps q (List.mem_cons_of_mem _ hq)) next)

/-- What is copied last ends the output. -/
theorem out_of_playPieces {ps : List Piece} {c : Char} {tail : Text} {effect : Effect} {stage next : Stage}
    {t t' : Session}
    (h : Returns (playPieces options loader nested dir stage (ps ++ [.token c tail effect])) t next t') :
    ∃ x, next.out = x ++ c :: tail := by
  rw [playPieces_append] at h
  obtain ⟨stage₁, t₁, -, hlast⟩ := returns_bind.1 h
  obtain ⟨stage₂, t₂, htoken, hnil⟩ := returns_bind.1 hlast
  obtain ⟨rfl, rfl⟩ := returns_pure.1 hnil
  obtain ⟨hmove, -⟩ := returns_playPiece_token.1 htoken
  refine ⟨stage₁.out, ?_⟩
  obtain ⟨-, rfl⟩ | ⟨-, -, rfl⟩ | ⟨-, -, rfl⟩ := Stage.move?_cases hmove <;> rfl

/-- Where no file can be imported, no file is made from nothing. -/
theorem playPieces_fileless (stage : Stage) (ps : List Piece) :
    Fileless (playPieces options loader (fun _ _ => failed) dir stage ps) := by
  have htarget (target : Text) : Fileless (playTarget options loader (fun _ _ => failed) dir target) := by
    intro t out t' h
    simp [playTarget, returns_bind, failed] at h
  have hall (targets : List Text) (out : Text) :
      Fileless (playAll options loader (fun _ _ => failed) dir targets out) := by
    induction targets generalizing out with
    | nil => exact .pure _
    | cons target targets ih => exact (htarget target).bind fun child => ih _
  induction ps generalizing stage with
  | nil => exact .pure _
  | cons p ps ih =>
    refine Fileless.bind ?_ fun next => ih next
    cases p with
    | token c tail effect =>
      rw [playPiece]
      cases (stage.copy (c :: tail)).move? effect with
      | none => exact .throw _
      | some next => exact (Fileless.modifyVars _).bind fun _ => .pure _
    | act c found =>
      refine (Fileless.modifyVars _).bind fun _ => Fileless.bind ?_ fun out => .pure _
      by_cases hkind : ∃ targets, found.kind = .imports targets
      · obtain ⟨targets, hkind⟩ := hkind
        rw [hkind]
        exact hall targets _
      · rw [perform_eq_replacement fun targets heq => hkind ⟨targets, heq⟩]
        exact (replacement_fileless options 0 _ _ _).bind fun _ => .pure _

/-! ### The import -/

/-- An import of `target` leads to `text`: it is found, it is not being read, and it may be
read. -/
def LeadsTo (options : Options) (loader : Loader) (dir : Path) (target text : Text) (s : Session) :
    Prop :=
  ∃ path stack path', Import.resolve s.workspace.tree target dir options.includePaths = .ok path ∧
    s.stack.push path = .ok stack ∧ loader.load s.workspace.tree path = .ok (path', text)

instance {target text : Text} {s : Session} : Decidable (LeadsTo options loader dir target text s) :=
  decidable_of_iff (∃ path ∈ (Import.resolve s.workspace.tree target dir options.includePaths).toOption,
      (s.stack.push path).toOption.isSome ∧
        (loader.load s.workspace.tree path).toOption.map Prod.snd = some text) <| by
    unfold LeadsTo
    refine exists_congr fun path => ?_
    cases Import.resolve s.workspace.tree target dir options.includePaths <;>
      cases s.stack.push path <;> cases loader.load s.workspace.tree path <;>
      simp [Except.toOption, eq_comm, Prod.ext_iff]

/-- Nothing can be found without files. -/
theorem LeadsTo.fileCount {target text : Text} {s : Session}
    (h : LeadsTo options loader dir target text s) : s.workspace.tree.fileCount ≠ 0 := by
  intro hfiles
  obtain ⟨path, -, -, hresolve, -, -⟩ := h
  have hnone : (Import.searchPaths target dir options.includePaths).find? s.workspace.tree.isFile = none := by
    rw [List.find?_eq_none]
    intro p _
    rw [Tree.isFile_eq_false hfiles]
    simp
  rw [Import.resolve, hnone] at hresolve
  cases hresolve

/-- Importing a target is playing its text. -/
theorem returns_playTarget {target text : Text} {t : Session}
    (h : LeadsTo options loader dir target text t) :
    ∃ stack dir', stack.pop = t.stack ∧ ∀ out t',
      Returns (playTarget options loader nested dir target) t out t' ↔
        ∃ t₁, Returns (nested text dir') { t with stack } out t₁ ∧
          t' = { t₁ with stack := t₁.stack.pop } := by
  obtain ⟨path, stack, path', hresolve, hpush, hload⟩ := h
  refine ⟨stack, path'.directory, ImportStack.pop_of_push hpush, fun out t' => ?_⟩
  simp [-bind_pure_comp, playTarget, returns_bind, hresolve, hpush, hload]

/-- Blanks are copied, and change nothing that the next directive keeps. -/
theorem returns_blanks {functions : FunctionTable} {s indent : Text}
    {word statement word' statement' : Bool} {blanks : List Piece}
    (h : Walk functions s word statement indent blanks word' statement')
    (hindent : ∀ c ∈ indent, Text.isBlank c = true) {stage : Stage} (hlow : stage.low ≤ stage.anchor)
    (t : Session) :
    ∃ t₁, Returns (playPieces options loader nested dir stage blanks) t (stage.copy indent) t₁ ∧
      ({ t₁ with vars := t₁.vars.shift stage.low stage.depth } : Session) =
        { t with vars := t.vars.shift stage.low stage.depth } := by
  induction h generalizing stage t with
  | done => exact ⟨t, returns_pure.2 ⟨by simp, rfl⟩, rfl⟩
  | @step word statement word' statement' c tail indent p blanks hp htext more ih =>
    have hspace : piece? functions word statement c (tail ++ (indent ++ s)) =
        some (.token c [] .keeps) :=
      piece?_space word statement (isAsciiSpace_of_isBlank (hindent c List.mem_cons_self)) _
    obtain rfl : Piece.token c [] .keeps = p := Option.some.inj (hspace.symm.trans hp)
    obtain rfl : [] = tail := (List.cons.inj htext).2
    have hlow' : (stage.copy [c]).low ≤ (stage.copy [c]).anchor := hlow
    obtain ⟨t₁, hrest, hvars⟩ := ih (fun d hd => hindent d (List.mem_cons_of_mem _ hd)) hlow'
      { t with vars := t.vars.keep stage.anchor }
    refine ⟨t₁, returns_bind.2 ⟨_, _, returns_playPiece_token.2 ⟨rfl, rfl⟩, ?_⟩, ?_⟩
    · simpa using hrest
    · refine Eq.trans hvars ?_
      simp only [Stage.copy, shift_keep hlow]

/-- Importing a file that can be included, on a line of its own. -/
theorem returns_importLine {functions : FunctionTable} {s indent tail target text : Text}
    {word word' : Bool} {blanks : List Piece}
    (h : Walk functions s word true indent blanks word' true)
    (hindent : ∀ c ∈ indent, Text.isBlank c = true) (hend : ('@' :: tail).getLast? = some '\n')
    {stage : Stage} (hsound : stage.Sound) (hline : stage.line = []) {t : Session}
    (hleads : LeadsTo options loader dir target text t) :
    ∃ stack dir', stack.pop = t.stack ∧ ∀ next t',
      Returns (playPieces options loader nested dir stage
          (blanks ++ [.act '@' ⟨.imports [target], tail, true⟩])) t next t' ↔
        ∃ out t₁, Returns (nested text dir')
            { t with vars := t.vars.shift stage.low stage.depth, stack } out t₁ ∧
          t' = { t₁ with stack := t₁.stack.pop } ∧ next = stage.landed (stage.out.spliced out) := by
  obtain ⟨t₀, hblanks, hvars⟩ :=
    @returns_blanks options loader nested dir _ _ _ _ _ _ _ _ h hindent stage hsound.anchor t
  have hleads' : LeadsTo options loader dir target text
      { t with vars := t.vars.shift stage.low stage.depth } := hleads
  obtain ⟨stack, dir', hpop, htarget⟩ := @returns_playTarget options loader nested dir _ _ _ hleads'
  refine ⟨stack, dir', hpop, fun next t' => ?_⟩
  rw [playPieces_append, returns_bind]
  constructor
  · rintro ⟨stage₁, t₁, hblanks', himport⟩
    obtain ⟨rfl, rfl⟩ := hblanks.det hblanks'
    obtain ⟨stage₂, t₂, himport, hnil⟩ := returns_bind.1 himport
    obtain ⟨rfl, rfl⟩ := returns_pure.1 hnil
    obtain ⟨out, hall, rfl⟩ := (returns_playPiece_imports hend).1 himport
    obtain ⟨child, t₃, hchild, hpure⟩ := returns_bind.1 hall
    obtain ⟨rfl, rfl⟩ := returns_pure.1 hpure
    rw [show (stage.copy indent).low = stage.low from rfl,
      show (stage.copy indent).depth = stage.depth from rfl, hvars] at hchild
    obtain ⟨t₁, hplay, rfl⟩ := (htarget child _).1 hchild
    exact ⟨child, t₁, hplay, rfl, by rw [Stage.unindented_copy hsound hline hindent]; rfl⟩
  · rintro ⟨child, t₁, hplay, rfl, rfl⟩
    have hchild := (htarget child _).2 ⟨t₁, hplay, rfl⟩
    rw [← hvars] at hchild
    refine ⟨_, t₀, hblanks, returns_bind.2 ⟨_, _, (returns_playPiece_imports hend).2 ⟨_,
      returns_bind.2 ⟨child, _, hchild, returns_pure.2 ⟨rfl, rfl⟩⟩, rfl⟩, returns_pure.2 ⟨?_, rfl⟩⟩⟩
    rw [Stage.unindented_copy hsound hline hindent]
    rfl

/-! ### The included text -/

/-- Playing a text from the scopes of its import is similar to going on with it. -/
theorem similar_start {stage : Stage} (hsound : stage.Sound) (hline : stage.line = []) {t : Session}
    (hlow : stage.low ≤ t.vars.innermost) (stack : ImportStack) :
    Similar [] stage.out False (.start stage.depth)
      { t with vars := t.vars.shift stage.low stage.depth, stack } stage t where
  sound := .start _
  sound' := hsound
  line := hline
  clear := hsound.clear hline
  depth := rfl
  out := ⟨[], by simp [Stage.start], by simp, by simp [Stage.start]⟩
  vars := by
    intro n e hn he
    change n ≤ stage.depth at hn
    change _ = (t.vars.shift stage.low stage.depth).shift (min stage.depth n) e
    rw [Nat.min_eq_right hn, shift_shift hlow hsound.depth hn he]
  workspace := rfl
  files := rfl
  stack := False.elim

/-- What is known of the output of a text that can be included. -/
def Ended (text out : Text) : Prop := (text = [] ∧ out = []) ∨ (text ≠ [] ∧ out.getLast? = some '\n')

theorem Ended.spliced_eq {text out : Text} (h : Ended text out) (front : Text) :
    front.spliced out = (if text = [] then front else front.closed) ++ out := by
  obtain ⟨htext, rfl⟩ | ⟨htext, hout⟩ := h
  · simp [htext, Text.spliced]
  · rw [if_neg htext, Text.spliced_of_newline _ hout]

theorem Ended.isOpen_eq {text out : Text} (h : Ended text out) (front : Text) :
    (front ++ out).isOpen = (front.spliced out).isOpen := by
  rw [h.spliced_eq]
  obtain ⟨htext, rfl⟩ | ⟨htext, hout⟩ := h
  · simp [htext]
  · have hne : out ≠ [] := by
      rintro rfl
      cases hout
    rw [Text.isOpen_append _ hne, Text.isOpen_append _ hne]

variable {functions : FunctionTable} {text : Text} {ps : List Piece}

theorem ended_of_playPieces (hps : Inclusion functions text ps) {stage next : Stage} {t t' : Session}
    (hstage : stage.out = [])
    (h : Returns (playPieces options loader nested dir stage ps) t next t') : Ended text next.out := by
  have htexts := (hps.walk []).texts_eq
  rcases hps.last with rfl | ⟨hend, qs, c, tail, effect, rfl⟩
  · obtain rfl := (hps.walk []).eq_nil
    obtain ⟨rfl, -⟩ := returns_pure.1 h
    exact .inl ⟨rfl, hstage⟩
  · obtain ⟨x, hx⟩ := out_of_playPieces h
    have hne : text ≠ [] := by
      rintro rfl
      cases hend
    refine .inr ⟨hne, ?_⟩
    rw [← htexts, Piece.texts_append] at hend
    have hlast : (c :: tail).getLast? = some '\n' := by
      simpa [Piece.text] using (getLast?_append_cases hend).resolve_left (by simp [Piece.text])
    rw [hx, List.getLast?_append, hlast]
    rfl

/-- Behind the text the two plays are similar again. -/
theorem Similar.behind (hps : Inclusion functions text ps) {front : Text} {stage stage₁ stage₂ : Stage}
    {t₁ t₂ : Session} {stack : ImportStack} (hsound : stage.Sound)
    (h : Similar [] front False stage₁ t₁ stage₂ t₂) (hfollows : (Stage.start stage.depth).Follows ps stage₁)
    (hstack : t₂.stack = stack) :
    Similar (front.spliced stage₁.out) (front ++ stage₁.out) True
      (stage.landed (front.spliced stage₁.out)) { t₁ with stack } stage₂ t₂ := by
  have hdepth : stage₁.depth = stage.depth ∧ stage₁.low = stage.depth := by
    have hblocks := hfollows.blocks
    have hfloor := hfollows.floor
    have hlow := hfollows.sound.floor
    have hdepth := hfollows.sound.depth
    simp only [Stage.start, Nat.sub_self, hps.blocks, Option.some.injEq] at hblocks hfloor
    omega
  have hline : stage₂.line = [] := by
    rw [h.line, hfollows.line, (hps.walk []).texts_eq]
    rcases hps.last with rfl | ⟨hend, -⟩
    · rfl
    · exact Text.lineAfter_eq_nil hend _
  refine ⟨?_, h.sound', hline, h.sound'.clear hline, h.depth.trans hdepth.1, ⟨[], by simp [Stage.landed], ?_,
    by simp [Stage.landed]⟩, ?_, h.workspace, h.files, fun _ => hstack⟩
  · exact ⟨Nat.le_trans hsound.floor hsound.depth, Nat.le_refl _, Nat.le_refl _, fun _ => rfl⟩
  · obtain ⟨o, ho, ho', -⟩ := h.out
    rw [ho', ho]
    simp
  · intro n e hn he
    have hvars := h.vars n e (by rw [hdepth.1]; exact hn) he
    rwa [hdepth.2] at hvars

/-- The line of an import and the text that it leads to are played alike. -/
theorem playPieces_inclusion {indent tail target s : Text} {word word' : Bool} {blanks : List Piece}
    (hps : Inclusion options.functions text ps)
    (hwalk : Walk options.functions s word true indent blanks word' true)
    (hindent : ∀ c ∈ indent, Text.isBlank c = true) (hend : ('@' :: tail).getLast? = some '\n')
    {stage : Stage} (hsound : stage.Sound) (hline : stage.line = []) {t : Session}
    (hlow : stage.low ≤ t.vars.innermost) (hleads : LeadsTo options loader dir target text t) :
    Agree (fun next t₁ next' t₁' => ∃ out, Ended text out ∧ next'.floor = next.floor ∧
        Similar (stage.out.spliced out) (stage.out ++ out) True next t₁ next' t₁')
      (playPieces options loader (playText options loader nested) dir stage
        (blanks ++ [.act '@' ⟨.imports [target], tail, true⟩]))
      (playPieces options loader (playText options loader nested) dir stage ps) t t := by
  obtain ⟨stack, dir', hpop, himport⟩ := @returns_importLine options loader (playText options loader nested)
    dir _ _ _ _ _ _ _ _ _ hwalk hindent hend stage hsound hline t hleads
  set start : Session := { t with vars := t.vars.shift stage.low stage.depth, stack }
  have hinner : start.vars.innermost = stage.depth := innermost_shift hlow hsound.depth
  have hfits : Fits ps (.start stage.depth) stage := by
    refine .inr ⟨Nat.le_trans hsound.floor hsound.depth, ?_⟩
    simp [Stage.start, hps.blocks]
  have hagree : Agree (Similar [] stage.out False)
      (playPieces options loader (playText options loader nested) dir (.start stage.depth) ps)
      (playPieces options loader (playText options loader nested) dir stage ps) start t :=
    (similar_start hsound hline hlow stack).pieces hfits hps.imports nofun
  -- The text is played from its own directory, which matters only to imports.
  have hchild (out : Text) (t₁ : Session) :
      Returns (playText options loader nested text dir') start out t₁ ↔ ∃ stage₁,
        Returns (playPieces options loader (playText options loader nested) dir (.start stage.depth) ps)
          start stage₁ t₁ ∧ out = stage₁.out := by
    rw [returns_playText, hps.lex_eq, hinner,
      playPieces_congr hps.imports (playText options loader nested) dir]
    simp
  refine .of_returns_iff ⟨?_, ?_⟩ ?_
  · rintro ⟨next, t', h⟩
    obtain ⟨out, t₁, hplay, -, -⟩ := (himport next t').1 h
    obtain ⟨stage₁, hpieces, -⟩ := (hchild out t₁).1 hplay
    exact hagree.returns_iff.1 ⟨_, _, hpieces⟩
  · intro h
    obtain ⟨stage₁, t₁, hplay⟩ := hagree.returns_iff.2 h
    exact ⟨_, _, (himport _ _).2 ⟨_, t₁, (hchild _ _).2 ⟨stage₁, hplay, rfl⟩, rfl, rfl⟩⟩
  · intro next t₁ next' t₁' h h'
    obtain ⟨out, t₂, hplay, rfl, rfl⟩ := (himport _ _).1 h
    obtain ⟨stage₁, hpieces, rfl⟩ := (hchild _ _).1 hplay
    have hstack : t₁'.stack = t₂.stack.pop := by
      rw [stack_of_playPieces hps.imports h', stack_of_playPieces hps.imports hpieces]
      exact hpop.symm
    exact ⟨stage₁.out, ended_of_playPieces hps rfl hpieces, (follows_of_playPieces hsound h').floor,
      (hagree.related hpieces h').behind hps hsound (follows_of_playPieces (.start _) hpieces) hstack⟩

/-! ### Compilations -/

section Texts

variable {pre indent tail post target : Text} {ds : List Directive} {scope : List Nat}
variable {front blanks : List Piece} {word : Bool}

variable (post) in
/-- The pieces of the text with the file included. -/
theorem lex_inclusion
    (h : Approach functions pre indent tail post ds scope [target] front blanks word)
    (hps : Inclusion functions text ps) :
    lex functions false true (pre ++ text ++ post) =
      (front ++ (ps ++ (lex functions false true post).1), (lex functions false true post).2) := by
  have hpre := h.walk_pre (text ++ post)
  have hword : word = false := by
    rcases h.start with rfl | hend
    · cases hpre
      rfl
    · exact hpre.word_of_newline hend
  rw [hword] at hpre
  rw [(hpre.append (hps.walk post)).lex_eq, List.append_assoc]

/-- The outputs of two plays that differ in the line feed in front of an import. -/
def Outputs (text front out out' : Text) : Prop :=
  ∃ y, out = (if text = [] then front else front.closed) ++ y ∧ out' = front ++ y

variable (loader dir) in
theorem playText_inclusion (player : Player)
    (h : Approach options.functions pre indent tail post ds scope [target] front blanks word)
    (hps : Inclusion options.functions text ps) {t : Session}
    (hreached : ∀ stage t₀,
      Returns (playPieces options loader player dir (.start t.vars.innermost) front) t stage t₀ →
      stage.low ≤ t₀.vars.innermost ∧ LeadsTo options loader dir target text t₀ ∧
        ∃ nested, player = playText options loader nested) :
    Agree (fun out t₁ out' t₁' => (∃ stage t₀,
        Returns (playPieces options loader player dir (.start t.vars.innermost) front) t stage t₀ ∧
          Outputs text stage.out out out') ∧ t₁'.workspace = t₁.workspace)
      (playText options loader player (pre ++ (indent ++ '@' :: tail) ++ post) dir)
      (playText options loader player (pre ++ text ++ post) dir) t t := by
  have hsplit : front ++ blanks ++ .act '@' ⟨.imports [target], tail, true⟩ ::
      (lex options.functions false true post).1 = front ++ (blanks ++
        [.act '@' ⟨.imports [target], tail, true⟩] ++ (lex options.functions false true post).1) := by
    simp
  rw [playText]
  refine .get_bind ?_
  rw [h.lex_eq, lex_inclusion post h hps, hsplit]
  dsimp only
  rw [playPieces_append, playPieces_append, bind_assoc, bind_assoc]
  refine .bind_same fun stage t₀ hfront => ?_
  have hfollows := follows_of_playPieces (.start _) hfront
  have hline : stage.line = [] := by
    rw [hfollows.line, h.walk.texts_eq]
    rcases h.start with rfl | hend
    · rfl
    · exact Text.lineAfter_eq_nil hend _
  obtain ⟨hlow, hleads, nested, rfl⟩ := hreached stage t₀ hfront
  obtain ⟨word', hwalk⟩ := h.indented
  rw [playPieces_append _ (blanks ++ _), playPieces_append _ ps, bind_assoc, bind_assoc]
  refine .bind (playPieces_inclusion hps hwalk h.blank h.lineEnd hfollows.sound hline hlow hleads) ?_
  rintro next t₁ next' t₁' ⟨out, hended, hfloor, hsimilar⟩
  refine .bind (hsimilar.pieces (.inl hfloor) (fun _ _ _ => trivial) fun _ => hended.isOpen_eq _) ?_
  intro last t₂ last' t₂' hlast
  cases (lex options.functions false true post).2 with
  | false => exact .throw _ _
  | true =>
    obtain ⟨o, ho, ho', -⟩ := hlast.out
    refine .pure ⟨⟨stage, t₀, hfront, out ++ o, ?_, ?_⟩, hlast.workspace⟩
    · rw [ho, hended.spliced_eq, List.append_assoc]
    · rw [ho', List.append_assoc]

end Texts

/-- Where the pieces in front of an import have been played, the directives in front of it
can be added, with the same output. -/
theorem reaches_of_playPieces {path : Path} {w : Workspace} {root pre indent tail post : Text}
    {ds : List Directive} {scope : List Nat} {targets : List Text} {front blanks : List Piece}
    {word : Bool} (h : Approach options.functions pre indent tail post ds scope targets front blanks word)
    {stage : Stage} {t₀ : Session}
    (hplay : Returns (playPieces options loader (playerAt options loader w.tree.fileCount) dir (.start 0)
      front) (start w path root).bare stage t₀) :
    ∃ map s, Reaches options loader path dir root w ds map s ∧ map.buffer = stage.out ∧
      t₀.workspace = s.workspace ∧ t₀.stack = s.stack ∧ stage.low ≤ t₀.vars.innermost := by
  have hsource : (start w path root).files[0]? = some ⟨path, root, none⟩ := rfl
  have hreach := reach loader (playerAt_mirrors options loader w.tree.fileCount) h hsource path dir
  have hfollows := follows_of_playPieces (.start _) hplay
  have hline : stage.line = [] := by
    rw [hfollows.line, h.walk.texts_eq]
    rcases h.start with rfl | hend
    · rfl
    · exact Text.lineAfter_eq_nil hend _
  obtain ⟨word', hindented⟩ := h.indented
  obtain ⟨t₁, hblanks, hvars⟩ := @returns_blanks options loader
    (playerAt options loader w.tree.fileCount) dir _ _ _ _ _ _ _ _ hindented h.blank stage
    hfollows.sound.anchor t₀
  have hall : Returns (playPieces options loader (playerAt options loader w.tree.fileCount) dir
      (.start 0) (front ++ blanks)) (start w path root).bare (stage.copy indent) t₁ := by
    rw [playPieces_append]
    exact returns_bind.2 ⟨stage, t₀, hplay, hblanks⟩
  obtain ⟨map, s, hs⟩ := hreach.returns_iff.2 ⟨_, _, hall⟩
  obtain ⟨hhas, hsession, hdepth⟩ := hreach.related hs hall
  have hsession' := hvars.symm.trans hsession
  have hworkspace := congrArg Session.workspace hsession'
  have hstack := congrArg Session.stack hsession'
  have hinner := congrArg (fun s : Session => s.vars.innermost) hsession'
  refine ⟨map, s, hs, ?_, hworkspace, hstack, ?_⟩
  · rw [hhas.buffer, Stage.unindented_copy hfollows.sound hline h.blank]
  · exact le_innermost_of_shift (hinner.trans ((innermost_bare _).trans hdepth)) hfollows.sound.depth

/-- Where an import leads to a file, files can be imported at all. -/
theorem exists_playerAt {depth : Nat} {t t₀ : Session} (hdepth : t.workspace.tree.fileCount = depth)
    {stage stage' : Stage}
    (hplay : Returns (playPieces options loader (playerAt options loader depth) dir stage ps) t stage' t₀)
    (hfiles : t₀.workspace.tree.fileCount ≠ 0) :
    ∃ nested, playerAt options loader depth = playText options loader nested := by
  cases depth with
  | zero => exact absurd (playPieces_fileless stage ps t stage' t₀ hplay hdepth) hfiles
  | succ depth => exact ⟨_, play_eq options loader depth⟩

/-- A file that is imported on a line of its own may as well stand there as a text: both
compile or neither does, they end in the same workspace, and the outputs differ at most in
a line feed, which finishes a line that was left open in front of the import. -/
theorem assembleRoot_inclusion {path : Path} {w : Workspace} {pre line post target : Text}
    {ds : List Directive} {d : Directive}
    (halone : ImportAlone options.functions pre line post ds d [target])
    (htext : text = [] ∨ Includable options.functions text)
    (hleads : ∀ map s, Reaches options loader path dir (pre ++ line ++ post) w ds map s →
      LeadsTo options loader dir target text s) :
    Agree (fun c w₁ c' w₂ => (∃ map s, Reaches options loader path dir (pre ++ line ++ post) w ds map s ∧
        Outputs text map.buffer c.map.buffer c'.map.buffer) ∧ w₂ = w₁)
      (assembleRoot options loader path (pre ++ line ++ post) dir)
      (assembleRoot options loader path (pre ++ text ++ post) dir) w w := by
  obtain ⟨indent, tail, front, blanks, word, rfl, h⟩ := halone.approach
  obtain ⟨ps, hps⟩ : ∃ ps, Inclusion options.functions text ps := by
    rcases htext with rfl | htext
    · exact ⟨[], .nil⟩
    · exact ⟨_, htext.inclusion⟩
  set root := pre ++ (indent ++ '@' :: tail) ++ post
  have hplay := playText_inclusion loader dir (playerAt options loader w.tree.fileCount) h hps
    (t := (start w path root).bare) <| by
      intro stage t₀ hfront
      obtain ⟨map, s, hs, -, hworkspace, hstack, hlow⟩ := reaches_of_playPieces h hfront
      have hleads' : LeadsTo options loader dir target text t₀ := by
        have hs' := hleads map s hs
        rwa [LeadsTo, ← hworkspace, ← hstack] at hs'
      exact ⟨hlow, hleads', exists_playerAt rfl hfront hleads'.fileCount⟩
  rw [← play_eq] at hplay
  refine assembleRoot_agree (R := fun out out' => ∃ map s,
    Reaches options loader path dir root w ds map s ∧ Outputs text map.buffer out out') (hplay.mono ?_)
  rintro out t₁ out' t₁' ⟨⟨stage, t₀, hfront, houtputs⟩, hworkspace⟩
  obtain ⟨map, s, hs, hbuffer, -⟩ := reaches_of_playPieces h hfront
  exact ⟨⟨map, s, hs, hbuffer ▸ houtputs⟩, hworkspace⟩

/-- A file that assigns a variable and uses it, imported with an indentation. -/
theorem assembleRoot_inclusion_variable :
    ∃ c w, Returns (assembleRoot Sample.options
        (Preprocess.loaderFor Sample.options
          (Sample.tree [("c.scss", "$u: \"x\";\ny { b: image-url($u); }\n")]) ⟨['/']⟩)
        ⟨['-']⟩ "p;\n$u: \"x\";\ny \x7b b: image-url($u); \x7d\nq \x7b c: image-url($u); \x7d\n".toList ⟨['/']⟩)
        (Sample.workspace [("c.scss", "$u: \"x\";\ny { b: image-url($u); }\n")]) c w ∧
      c.map.buffer =
        "p;\n$u: \"x\";\ny \x7b b: url(\"images/x\"); \x7d\nq \x7b c: url(\"images/x\"); \x7d\n".toList := by
  set text := "$u: \"x\";\ny { b: image-url($u); }\n"
  set loader := Preprocess.loaderFor Sample.options (Sample.tree [("c.scss", text)]) ⟨['/']⟩
  set pre := "p;\n".toList
  set line := " @import \"c\";\n".toList
  set post := "q { c: image-url($u); }\n".toList
  set ds : List Directive := [⟨.plain, ⟨⟨0, 1, 1⟩, ⟨3, 2, 1⟩⟩, pre, []⟩]
  set d : Directive := ⟨.imports ["c".toList], ⟨⟨3, 2, 1⟩, ⟨17, 3, 1⟩⟩, line, []⟩
  have halone : ImportAlone Sample.options.functions pre line post ds d ["c".toList] :=
    ⟨⟨(scan Sample.options.functions (pre ++ line ++ post)).directives.drop 2, by decide +kernel⟩,
      by decide, by decide, by decide, by decide, by decide⟩
  have hagree := @assembleRoot_inclusion Sample.options loader ⟨['/']⟩ text.toList ⟨['-']⟩
    (Sample.workspace [("c.scss", text)]) _ _ _ _ _ _ halone (.inr (by decide +kernel))
    (by unfold Reaches; decide +kernel)
  have hclosed : ∀ map s, Reaches Sample.options loader ⟨['-']⟩ ⟨['/']⟩ (pre ++ line ++ post)
      (Sample.workspace [("c.scss", text)]) ds map s → map.buffer.closed = map.buffer := by
    unfold Reaches
    decide +kernel
  have heval : (exec (assembleRoot Sample.options loader ⟨['-']⟩ (pre ++ line ++ post) ⟨['/']⟩)
      (Sample.workspace [("c.scss", text)])).1.toOption.map (·.map.buffer) =
    some "p;\n$u: \"x\";\ny \x7b b: url(\"images/x\"); \x7d\nq \x7b c: url(\"images/x\"); \x7d\n".toList := by
    decide +kernel
  obtain ⟨c, w, hreturns, hbuffer⟩ := exists_returns heval
  obtain ⟨c', w', hreturns'⟩ := hagree.returns_iff.1 ⟨c, w, hreturns⟩
  obtain ⟨⟨map, s, hs, y, hy, hy'⟩, -⟩ := hagree.related hreturns hreturns'
  rw [hclosed map s hs, ite_self] at hy
  have hroot : pre ++ text.toList ++ post =
      "p;\n$u: \"x\";\ny \x7b b: image-url($u); \x7d\nq \x7b c: image-url($u); \x7d\n".toList := by decide
  exact ⟨c', w', hroot ▸ hreturns', hy'.trans (hy.symm.trans hbuffer)⟩

/-- In front of the second import a line is open, which the first one, of an empty file,
has left behind it. The import finishes the line, the text in its place goes on with it. -/
theorem inclusion_openLine :
    (∃ ds d, ImportAlone Sample.options.functions "x \x7b @import \"e\";\n".toList
      "@import \"c\";\n".toList "\x7d\n".toList ds d ["c".toList]) ∧
    Includable Sample.options.functions "b: c;\n".toList ∧
    Sample.output? [("e.scss", ""), ("c.scss", "b: c;\n")]
      "x \x7b @import \"e\";\n@import \"c\";\n\x7d\n" = some "x \x7b \nb: c;\n\x7d\n".toList ∧
    Sample.output? [("e.scss", ""), ("c.scss", "b: c;\n")]
      "x \x7b @import \"e\";\nb: c;\n\x7d\n" = some "x \x7b b: c;\n\x7d\n".toList := by
  have halone : ImportAlone Sample.options.functions "x \x7b @import \"e\";\n".toList
      "@import \"c\";\n".toList "\x7d\n".toList
      [⟨.plain, ⟨⟨0, 1, 1⟩, ⟨4, 1, 5⟩⟩, "x \x7b ".toList, []⟩,
        ⟨.imports ["e".toList], ⟨⟨4, 1, 5⟩, ⟨17, 2, 1⟩⟩, "@import \"e\";\n".toList, [0]⟩]
      ⟨.imports ["c".toList], ⟨⟨17, 2, 1⟩, ⟨30, 3, 1⟩⟩, "@import \"c\";\n".toList, [0]⟩ ["c".toList] :=
    ⟨⟨[⟨.plain, ⟨⟨30, 3, 1⟩, ⟨32, 4, 1⟩⟩, "\x7d\n".toList, [0]⟩], by decide +kernel⟩, by decide, by decide,
      by decide, by decide, by decide⟩
  exact ⟨⟨_, _, halone⟩, by decide +kernel⟩

end Assembly

end StylePrep
