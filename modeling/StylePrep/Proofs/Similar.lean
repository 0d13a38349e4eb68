import StylePrep.Proofs.Direct

/-!
# Plays that go on alike

The same pieces are played twice, from two points that differ in what cannot be seen: in
the output written before, in scopes that the next directive closes anyway, and in the
files being read, where no import follows. Then both plays fail, or both go on alike and
add the same to their outputs (`Similar.pieces`).

The plays may also differ in how far blocks can be closed, as long as the pieces close no
block that they have not opened (`Fits`).
-/

namespace StylePrep

namespace Text

/-- Blanks that an import would own are at the end of the output. -/
theorem lineAfter_suffix {line o : Text} {clear : Bool} (h : clear = true → line <:+ o) {t : Text}
    (hclear : clearAfter clear t = true) : lineAfter line t <:+ o ++ t := by
  induction t using List.reverseRecOn with
  | nil => simpa using h hclear
  | append_singleton t c ih =>
    rw [lineAfter_concat]
    by_cases hc : c = '\n'
    · simp [hc]
    · rw [clearAfter_concat] at hclear
      have hfront : clearAfter clear t = true := by
        have hand : clearAfter clear t = true ∧ isBlank c = true := by simpa [hc] using hclear
        exact hand.1
      obtain ⟨x, hx⟩ := ih hfront
      exact ⟨x, by rw [if_neg hc, ← List.append_assoc, hx, List.append_assoc]⟩

theorem closed_eq (t : Text) : t.closed = t ++ if t.isOpen then ['\n'] else [] := by
  unfold closed
  split <;> simp

/-- What a spliced text adds depends only on whether the line in front of it is open. -/
theorem exists_spliced {A B : Text} (h : B.isOpen = A.isOpen) (x child : Text) :
    ∃ y, (A ++ x).spliced child = A ++ y ∧ (B ++ x).spliced child = B ++ y := by
  have hopen : (B ++ x).isOpen = (A ++ x).isOpen := by
    by_cases hx : x = []
    · simpa [hx] using h
    · rw [isOpen_append _ hx, isOpen_append _ hx]
  by_cases hchild : child = []
  · exact ⟨x, by simp [spliced, hchild], by simp [spliced, hchild]⟩
  · unfold spliced
    rw [if_neg hchild, if_neg hchild, closed_eq, closed_eq (A ++ x), closed_eq,
      closed_eq (B ++ x), hopen, isOpen_append _ hchild, isOpen_append _ hchild]
    simp only [List.append_assoc]
    exact ⟨_, rfl, rfl⟩

end Text

namespace Scan

open Text

namespace Piece

def Imports : Piece → Prop
  | act _ found => ∃ targets, found.kind = .imports targets
  | token .. => False

/-- How many blocks are open behind pieces, `n` being open in front of them; nothing if
they close one more. -/
def blocksAfter? (n : Nat) : List Piece → Option Nat
  | [] => some n
  | token _ _ .opens :: ps => blocksAfter? (n + 1) ps
  | token _ _ .closes :: ps => if n = 0 then none else blocksAfter? (n - 1) ps
  | _ :: ps => blocksAfter? n ps

theorem blocksAfter?_token {effect : Effect} (hopens : effect ≠ .opens) (hcloses : effect ≠ .closes)
    (n : Nat) (c : Char) (tail : Text) (ps : List Piece) :
    blocksAfter? n (token c tail effect :: ps) = blocksAfter? n ps := by
  cases effect with
  | opens => exact absurd rfl hopens
  | closes => exact absurd rfl hcloses
  | keeps => rfl
  | enters => rfl
  | ends => rfl

end Piece

end Scan

open Text Scan

namespace Stage

/-- What is known of every stage of a play. -/
structure Sound (stage : Stage) : Prop where
  floor : stage.floor ≤ stage.low
  anchor : stage.low ≤ stage.anchor
  depth : stage.low ≤ stage.depth
  clear : stage.line = [] → stage.clear = true

theorem Sound.start (floor : Nat) : (Stage.start floor).Sound :=
  ⟨Nat.le_refl _, Nat.le_refl _, Nat.le_refl _, fun _ => rfl⟩

theorem Sound.copy {stage : Stage} (h : stage.Sound) (t : Text) : (stage.copy t).Sound :=
  ⟨h.floor, h.anchor, h.depth, clearAfter_of_lineAfter_eq_nil h.clear⟩

/-- What a token can do to the blocks. -/
theorem move?_cases {stage next : Stage} {effect : Effect} (h : stage.move? effect = some next) :
    (effect = .opens ∧ next = { stage with depth := stage.depth + 1 }) ∨
    (effect = .closes ∧ stage.depth ≠ stage.floor ∧
      next = { stage with depth := stage.depth - 1, low := min stage.low (stage.depth - 1) }) ∨
    (effect ≠ .opens ∧ effect ≠ .closes ∧ next = stage) := by
  cases effect with
  | opens => exact .inl ⟨rfl, by cases h; rfl⟩
  | closes =>
    rw [Stage.move?] at h
    split at h
    · cases h
    · exact .inr (.inl ⟨rfl, ‹_›, by cases h; rfl⟩)
  | keeps => exact .inr (.inr ⟨nofun, nofun, by cases h; rfl⟩)
  | enters => exact .inr (.inr ⟨nofun, nofun, by cases h; rfl⟩)
  | ends => exact .inr (.inr ⟨nofun, nofun, by cases h; rfl⟩)

theorem Sound.move? {stage next : Stage} (h : stage.Sound) {effect : Effect}
    (hmove : stage.move? effect = some next) : next.Sound := by
  obtain ⟨hfloor, hanchor, hdepth, hclear⟩ := h
  obtain ⟨-, rfl⟩ | ⟨-, hne, rfl⟩ | ⟨-, -, rfl⟩ := move?_cases hmove
  · exact ⟨hfloor, hanchor, Nat.le_succ_of_le hdepth, hclear⟩
  · refine ⟨?_, ?_, ?_, hclear⟩ <;> dsimp only <;> omega
  · exact ⟨hfloor, hanchor, hdepth, hclear⟩

theorem Sound.land {stage : Stage} (h : stage.Sound) (t out : Text) : (stage.land t out).Sound :=
  ⟨Nat.le_trans h.floor h.depth, Nat.le_refl _, Nat.le_refl _, by simp [Stage.land]⟩

/-- A stage behind pieces. -/
structure Follows (stage : Stage) (ps : List Piece) (next : Stage) : Prop where
  sound : next.Sound
  floor : next.floor = stage.floor
  line : next.line = lineAfter stage.line (Piece.texts ps)
  blocks : Piece.blocksAfter? (stage.depth - stage.floor) ps = some (next.depth - next.floor)

end Stage

namespace Assembly

open Step VariableTable

variable {options : Options} {loader : Loader} {nested : Player} {dir : Path}

theorem follows_of_playPieces {ps : List Piece} {stage next : Stage} {t t' : Session} (h : stage.Sound)
    (hplay : Returns (playPieces options loader nested dir stage ps) t next t') :
    stage.Follows ps next := by
  induction ps generalizing stage t with
  | nil =>
    obtain ⟨rfl, rfl⟩ := returns_pure.1 hplay
    exact ⟨h, rfl, rfl, rfl⟩
  | cons p ps ih =>
    obtain ⟨stage₁, t₁, hpiece, hrest⟩ := returns_bind.1 hplay
    cases p with
    | act c found =>
      obtain ⟨out, -, rfl⟩ := returns_playPiece_act.1 hpiece
      have hfollows := ih (h.land _ out) hrest
      refine ⟨hfollows.sound, hfollows.floor, ?_, hfollows.blocks⟩
      rw [Piece.texts_cons, lineAfter_append]
      exact hfollows.line
    | token c tail effect =>
      obtain ⟨hmove, -⟩ := returns_playPiece_token.1 hpiece
      have hfollows := ih ((h.copy (c :: tail)).move? hmove) hrest
      have hfloor := h.floor
      have hdepth := h.depth
      have hline : stage₁.line = lineAfter stage.line (c :: tail) → 
          next.line = lineAfter stage.line (Piece.texts (.token c tail effect :: ps)) := by
        intro hcopy
        rw [Piece.texts_cons, lineAfter_append, hfollows.line, hcopy]
        rfl
      obtain ⟨rfl, rfl⟩ | ⟨rfl, hne, rfl⟩ | ⟨hopens, hcloses, rfl⟩ := Stage.move?_cases hmove
      · refine ⟨hfollows.sound, hfollows.floor, hline rfl, ?_⟩
        rw [← hfollows.blocks, Piece.blocksAfter?]
        simp only [Stage.copy]
        congr 1
        omega
      · change stage.depth ≠ stage.floor at hne
        refine ⟨hfollows.sound, hfollows.floor, hline rfl, ?_⟩
        rw [← hfollows.blocks, Piece.blocksAfter?, if_neg (by omega)]
        simp only [Stage.copy]
        congr 1
        omega
      · refine ⟨hfollows.sound, hfollows.floor, hline rfl, ?_⟩
        rw [Piece.blocksAfter?_token hopens hcloses]
        exact hfollows.blocks

/-- A directive that is no import leaves the files being read as they are. -/
theorem stack_of_playPieces {ps : List Piece} {stage next : Stage} {t t' : Session}
    (hps : ∀ p ∈ ps, ¬ p.Imports)
    (hplay : Returns (playPieces options loader nested dir stage ps) t next t') :
    t'.stack = t.stack := by
  induction ps generalizing stage t with
  | nil => rw [(returns_pure.1 hplay).2]
  | cons p ps ih =>
    obtain ⟨stage₁, t₁, hpiece, hrest⟩ := returns_bind.1 hplay
    rw [ih (fun q hq => hps q (List.mem_cons_of_mem _ hq)) hrest]
    have hp := hps p List.mem_cons_self
    cases p with
    | token c tail effect => rw [(returns_playPiece_token.1 hpiece).2]
    | act c found =>
      obtain ⟨out, hperform, -⟩ := returns_playPiece_act.1 hpiece
      rw [perform_eq_replacement fun targets hkind => hp ⟨targets, hkind⟩] at hperform
      obtain ⟨text, t₂, htext, hpure⟩ := returns_bind.1 hperform
      obtain ⟨-, rfl⟩ := returns_pure.1 hpure
      obtain ⟨w, f, -, rfl⟩ := updated_of_replacement htext
      rfl

/-! ### Two stages -/

/-- The same targets imported behind outputs that differ only in their front. -/
theorem playAll_front {A B : Text} (hopen : B.isOpen = A.isOpen) (targets : List Text) (x : Text) (t : Session) :
    Agree (fun out t₁ out' t₁' => t₁' = t₁ ∧ ∃ y, out = A ++ y ∧ out' = B ++ y)
      (playAll options loader nested dir targets (A ++ x))
      (playAll options loader nested dir targets (B ++ x)) t t := by
  induction targets generalizing x t with
  | nil => exact .pure ⟨rfl, x, rfl, rfl⟩
  | cons target targets ih =>
    refine .bind_same fun child t₁ _ => ?_
    obtain ⟨y, hy, hy'⟩ := exists_spliced hopen x child
    rw [hy, hy']
    exact ih y t₁

/-- Two stages with as many open blocks can close the same ones along these pieces. -/
def Fits (ps : List Piece) (stage stage' : Stage) : Prop :=
  stage'.floor = stage.floor ∨
    stage'.floor ≤ stage.floor ∧ Piece.blocksAfter? (stage.depth - stage.floor) ps ≠ none

/-- The same token is refused on both stages, or moves both. -/
theorem Fits.move? {c : Char} {tail : Text} {effect : Effect} {ps : List Piece} {stage stage' : Stage}
    (h : Fits (.token c tail effect :: ps) stage stage') (hdepth : stage'.depth = stage.depth)
    (hfloor : stage.floor ≤ stage.depth) :
    (stage.move? effect = none ∧ stage'.move? effect = none) ∨
      ∃ next next', stage.move? effect = some next ∧ stage'.move? effect = some next' ∧
        Fits ps next next' := by
  cases effect with
  | keeps => exact .inr ⟨_, _, rfl, rfl, h⟩
  | enters => exact .inr ⟨_, _, rfl, rfl, h⟩
  | ends => exact .inr ⟨_, _, rfl, rfl, h⟩
  | opens =>
    refine .inr ⟨_, _, rfl, rfl, h.imp id fun ⟨hle, hblocks⟩ => ⟨hle, ?_⟩⟩
    rw [Piece.blocksAfter?, ← Nat.sub_add_comm hfloor] at hblocks
    exact hblocks
  | closes =>
    rw [Stage.move?, Stage.move?]
    rcases h with heq | ⟨hle, hblocks⟩
    · rw [heq, hdepth]
      by_cases hbottom : stage.depth = stage.floor
      · exact .inl ⟨if_pos hbottom, if_pos hbottom⟩
      · exact .inr ⟨_, _, if_neg hbottom, if_neg hbottom, .inl rfl⟩
    · rw [Piece.blocksAfter?] at hblocks
      split at hblocks
      case isTrue => exact absurd rfl hblocks
      case isFalse hbottom =>
        rw [Nat.sub_right_comm] at hblocks
        exact .inr ⟨_, _, if_neg (by omega), if_neg (by omega), .inr ⟨hle, hblocks⟩⟩

/-- Two points of two plays from which the same pieces do the same. `A` and `B` is what
the outputs start with, and `imports` tells whether imports may follow. -/
structure Similar (A B : Text) (imports : Prop) (stage : Stage) (t : Session) (stage' : Stage)
    (t' : Session) : Prop where
  sound : stage.Sound
  sound' : stage'.Sound
  line : stage'.line = stage.line
  clear : stage'.clear = stage.clear
  depth : stage'.depth = stage.depth
  out : ∃ o, stage.out = A ++ o ∧ stage'.out = B ++ o ∧ (stage.clear = true → stage.line <:+ o)
  vars : ∀ n e, n ≤ stage.depth → n ≤ e →
    t'.vars.shift (min stage'.low n) e = t.vars.shift (min stage.low n) e
  workspace : t'.workspace = t.workspace
  files : t'.files = t.files
  stack : imports → t'.stack = t.stack

namespace Similar

variable {A B : Text} {imports : Prop} {stage stage' : Stage} {t t' : Session}

/-- A move to the scope of a directive makes the variables equal. -/
theorem shift_eq (h : Similar A B imports stage t stage' t') :
    t'.vars.shift stage'.low stage'.depth = t.vars.shift stage.low stage.depth := by
  have hvars := h.vars stage.depth stage.depth (Nat.le_refl _) (Nat.le_refl _)
  have hdepth' := h.sound'.depth
  rw [h.depth] at hdepth' ⊢
  rwa [Nat.min_eq_left h.sound.depth, Nat.min_eq_left hdepth'] at hvars

/-- Copy the same text. -/
theorem copy (h : Similar A B imports stage t stage' t') (text : Text) :
    Similar A B imports (stage.copy text) { t with vars := t.vars.keep stage.anchor }
      (stage'.copy text) { t' with vars := t'.vars.keep stage'.anchor } where
  sound := h.sound.copy text
  sound' := h.sound'.copy text
  line := by simp [Stage.copy, h.line]
  clear := by simp [Stage.copy, h.clear]
  depth := h.depth
  out := by
    obtain ⟨o, hout, hout', hsuffix⟩ := h.out
    exact ⟨o ++ text, by simp [Stage.copy, hout], by simp [Stage.copy, hout'], lineAfter_suffix hsuffix⟩
  vars := by
    intro n e hn he
    have hlow : min stage.low n ≤ stage.anchor := Nat.le_trans (Nat.min_le_left _ _) h.sound.anchor
    have hlow' : min stage'.low n ≤ stage'.anchor := Nat.le_trans (Nat.min_le_left _ _) h.sound'.anchor
    exact (shift_keep hlow' e).trans ((h.vars n e hn he).trans (shift_keep hlow e).symm)
  workspace := h.workspace
  files := h.files
  stack := h.stack

/-- Open or close the same block. -/
theorem move? (h : Similar A B imports stage t stage' t') {effect : Effect} {next next' : Stage}
    (hmove : stage.move? effect = some next) (hmove' : stage'.move? effect = some next') :
    Similar A B imports next t next' t' := by
  have hsound := h.sound.move? hmove
  have hsound' := h.sound'.move? hmove'
  have hlow := h.sound.depth
  have hlow' := h.sound'.depth
  have hdepth := h.depth
  obtain ⟨rfl, rfl⟩ | ⟨rfl, -, rfl⟩ | ⟨hopens, hcloses, rfl⟩ := Stage.move?_cases hmove
  · cases hmove'
    refine ⟨hsound, hsound', h.line, h.clear, by simp [hdepth], h.out, ?_, h.workspace, h.files, h.stack⟩
    intro n e hn he
    dsimp only at hn ⊢
    have hvars := h.vars (min n stage.depth) e (Nat.min_le_right _ _)
      (Nat.le_trans (Nat.min_le_left _ _) he)
    rwa [show min stage.low (min n stage.depth) = min stage.low n by omega,
      show min stage'.low (min n stage.depth) = min stage'.low n by omega] at hvars
  · obtain ⟨hne, -⟩ | ⟨-, -, rfl⟩ | ⟨-, hne, -⟩ := Stage.move?_cases hmove'
    · cases hne
    · refine ⟨hsound, hsound', h.line, h.clear, by simp [hdepth], h.out, ?_, h.workspace, h.files, h.stack⟩
      intro n e hn he
      dsimp only at hn ⊢
      have hvars := h.vars n e (by omega) he
      rwa [show min stage.low n = min (min stage.low (stage.depth - 1)) n by omega,
        show min stage'.low n = min (min stage'.low (stage'.depth - 1)) n by omega] at hvars
    · exact absurd rfl hne
  · obtain ⟨heq, -⟩ | ⟨heq, -, -⟩ | ⟨-, -, rfl⟩ := Stage.move?_cases hmove'
    · exact absurd heq hopens
    · exact absurd heq hcloses
    · exact h

/-- Land behind the same directive, in the same scopes. -/
theorem land (h : Similar A B imports stage t stage' t') (text : Text) {x : Text} {t₁ t₁' : Session}
    (hvars : t₁'.vars = t₁.vars) (hworkspace : t₁'.workspace = t₁.workspace)
    (hfiles : t₁'.files = t₁.files) (hstack : imports → t₁'.stack = t₁.stack) :
    Similar A B imports (stage.land text (A ++ x)) t₁ (stage'.land text (B ++ x)) t₁' where
  sound := h.sound.land text _
  sound' := h.sound'.land text _
  line := by simp [Stage.land, h.line]
  clear := by simp [Stage.land, h.line]
  depth := h.depth
  out := ⟨x, rfl, rfl, by simp +contextual [Stage.land]⟩
  vars := by
    intro n e _ _
    simp only [Stage.land, hvars, h.depth]
  workspace := hworkspace
  files := hfiles
  stack := hstack

/-- Imports are put behind outputs that differ only in their front. -/
theorem unindented_eq (h : Similar A B imports stage t stage' t') :
    ∃ x, stage.unindented = A ++ x ∧ stage'.unindented = B ++ x := by
  obtain ⟨o, hout, hout', hsuffix⟩ := h.out
  have hindent : stage'.indent = stage.indent := by
    rw [Stage.indent, Stage.indent, h.line, h.clear]
  obtain ⟨y, hy⟩ : stage.indent <:+ o := by
    unfold Stage.indent
    split
    · exact hsuffix ‹_›
    · exact List.nil_suffix
  refine ⟨y, ?_, ?_⟩
  · exact Stage.unindented_of_out (by rw [hout, ← hy, List.append_assoc])
  · exact Stage.unindented_of_out (by rw [hout', hindent, ← hy, List.append_assoc])

/-- Play the same directive. -/
theorem act {ps : List Piece} {c : Char} {found : Found} (h : Similar A B imports stage t stage' t')
    (hfits : Fits (.act c found :: ps) stage stage')
    (himports : (Piece.act c found).Imports → imports) (hopen : imports → B.isOpen = A.isOpen) :
    Agree (fun next t₁ next' t₁' => Similar A B imports next t₁ next' t₁' ∧ Fits ps next next')
      (playPiece options loader nested dir stage (.act c found))
      (playPiece options loader nested dir stage' (.act c found)) t t' := by
  refine .modifyVars_bind ?_
  rw [h.shift_eq]
  set vars := t.vars.shift stage.low stage.depth
  by_cases hkind : ∃ targets, found.kind = .imports targets
  · have hallowed := himports hkind
    obtain ⟨targets, hkind⟩ := hkind
    obtain ⟨x, hx, hx'⟩ := h.unindented_eq
    have hsession : ({ t' with vars } : Session) = { t with vars } := by
      rw [← h.workspace, ← h.files, ← h.stack hallowed]
    rw [hkind, hsession, perform, perform, hx, hx']
    refine .bind (playAll_front (hopen hallowed) targets x _) ?_
    rintro _ t₁ _ _ ⟨rfl, y, rfl, rfl⟩
    exact .pure ⟨h.land _ rfl rfl rfl fun _ => rfl, hfits⟩
  · have hkind' : ∀ targets, found.kind ≠ .imports targets := fun targets heq => hkind ⟨targets, heq⟩
    have hlevel : Level { t with vars } { t' with vars } := ⟨h.workspace, fun _ => rfl⟩
    rw [perform_eq_replacement hkind', perform_eq_replacement hkind', h.line, bind_assoc, bind_assoc]
    refine .bind (replacement_agree hlevel options 0 0 _ _ _) ?_
    rintro _ _ text _ ⟨rfl, w, f, -, rfl, rfl⟩
    obtain ⟨o, hout, hout', -⟩ := h.out
    rw [hout, hout', List.append_assoc, List.append_assoc]
    exact .pure ⟨h.land _ rfl rfl h.files h.stack, hfits⟩

/-- Play the same token. -/
theorem token {ps : List Piece} {c : Char} {tail : Text} {effect : Effect}
    (h : Similar A B imports stage t stage' t') (hfits : Fits (.token c tail effect :: ps) stage stage') :
    Agree (fun next t₁ next' t₁' => Similar A B imports next t₁ next' t₁' ∧ Fits ps next next')
      (playPiece options loader nested dir stage (.token c tail effect))
      (playPiece options loader nested dir stage' (.token c tail effect)) t t' := by
  have hcopy := h.copy (c :: tail)
  have hfits' : Fits (.token c tail effect :: ps) (stage.copy (c :: tail)) (stage'.copy (c :: tail)) := hfits
  rw [playPiece, playPiece]
  rcases hfits'.move? hcopy.depth (Nat.le_trans hcopy.sound.floor hcopy.sound.depth) with
    ⟨hmove, hmove'⟩ | ⟨next, next', hmove, hmove', hnext⟩
  · rw [hmove, hmove']
    exact .throw _ _
  · rw [hmove, hmove']
    exact .modifyVars_bind (.pure ⟨hcopy.move? hmove hmove', hnext⟩)

/-- Play the same pieces. -/
theorem pieces {ps : List Piece} (h : Similar A B imports stage t stage' t') (hfits : Fits ps stage stage')
    (himports : ∀ p ∈ ps, p.Imports → imports) (hopen : imports → B.isOpen = A.isOpen) :
    Agree (Similar A B imports) (playPieces options loader nested dir stage ps)
      (playPieces options loader nested dir stage' ps) t t' := by
  induction ps generalizing stage t stage' t' with
  | nil => exact .pure h
  | cons p ps ih =>
    have hrest : ∀ p ∈ ps, p.Imports → imports := fun q hq => himports q (List.mem_cons_of_mem _ hq)
    cases p with
    | act c found =>
      exact .bind (h.act hfits (himports _ List.mem_cons_self) hopen) fun next t₁ next' t₁' hnext =>
        ih hnext.1 hnext.2 hrest
    | token c tail effect =>
      exact .bind (h.token hfits) fun next t₁ next' t₁' hnext => ih hnext.1 hnext.2 hrest

end Similar

end Assembly

end StylePrep
