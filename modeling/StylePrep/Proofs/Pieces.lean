import StylePrep.Proofs.Cover

/-!
# The pieces of a text

A scan takes one piece after another: a directive or a token. Which pieces a text
has depends on two bits of the state alone, whether a word comes before and whether
a statement can start; places, lines and the numbers of blocks play no part. So the
pieces of a text are a function of the text and these two bits (`lex`).

A text in the middle of a sheet has the same pieces as long as its readers do not
look beyond its end. `Walk` describes the pieces of a text in front of another one.
Along a walk, the directives that a scan reports are put together from the pieces by
`trail`, which does not look at any text again (`Walk.scanFrom_eq`).
-/

namespace StylePrep.Scan

open Text Delimited

variable {functions : FunctionTable}

/-- What a scan takes in one step: a directive, or a token with its effect. -/
inductive Piece where
  | act (c : Char) (found : Found)
  | token (c : Char) (tail : Text) (effect : Effect)
  deriving DecidableEq, Repr

namespace Piece

def text : Piece → Text
  | act c found => c :: found.tail
  | token c tail _ => c :: tail

/-- Whether a statement can start behind a piece. -/
def statement : Piece → Bool → Bool
  | act _ found, _ => found.atStatement
  | token _ _ .keeps, statement => statement
  | token _ _ .enters, _ => false
  | token _ _ _, _ => true

def texts (ps : List Piece) : Text := (ps.map text).flatten

@[simp] theorem texts_nil : texts [] = [] := rfl

@[simp] theorem texts_cons (p : Piece) (ps : List Piece) : texts (p :: ps) = p.text ++ texts ps := rfl

@[simp] theorem texts_append (ps qs : List Piece) : texts (ps ++ qs) = texts ps ++ texts qs := by
  simp [texts]

theorem text_ne_nil (p : Piece) : p.text ≠ [] := by
  cases p <;> exact List.cons_ne_nil _ _

end Piece

/-- Whether a text ends in a character that continues a word, a selector or a
variable. -/
def endsWord (t : Text) : Bool :=
  match t.getLast? with
  | none => false
  | some c => isWordChar c || ['$', '@', '.', '#', '%', '&'].contains c

/-- A cursor that shows nothing but the two bits. -/
def probe (word statement : Bool) : Cursor :=
  ⟨⟨0, 0, 0⟩, if word then some 'a' else none, ⟨[], 0, statement⟩⟩

@[simp] theorem followsWord_probe (word statement : Bool) :
    (probe word statement).followsWord = word := by
  cases word <;> rfl

@[simp] theorem atStatement_probe (word statement : Bool) :
    (probe word statement).context.atStatement = statement := rfl

theorem followsWord_step (cur : Cursor) (c : Char) (tail : Text) (context : Context) :
    (cur.step c tail context).followsWord = endsWord (c :: tail) := by
  have hlast : (c :: tail).getLast? = some (tail.getLastD c) := by
    rw [List.getLast?_cons, List.getLastD_eq_getLast?]
  rw [endsWord, hlast]
  rfl

def piece? (functions : FunctionTable) (word statement : Bool) (c : Char) (t : Text) :
    Option Piece :=
  match recognize functions (probe word statement) c t with
  | .error _ => none
  | .ok (some found) => some (.act c found)
  | .ok none => (token? word c t).map fun (tail, effect) => .token c tail effect

/-- A piece is taken from the front of the text. -/
theorem piece?_text {word statement : Bool} {c : Char} {t : Text} {p : Piece}
    (h : piece? functions word statement c t = some p) : ∃ rest, c :: t = p.text ++ rest := by
  unfold piece? at h
  split at h
  case h_1 => cases h
  case h_2 found hfound =>
    cases h
    obtain ⟨-, rest, rfl, -⟩ := recognize_eq_some_iff.1 hfound
    exact ⟨rest, rfl⟩
  case h_3 =>
    obtain ⟨⟨tail, effect⟩, htoken, rfl⟩ := Option.map_eq_some_iff.1 h
    obtain ⟨rest, rfl, -⟩ := token?_eq_some_iff.1 htoken
    exact ⟨rest, rfl⟩

/-- The pieces of a text, and whether they reach its end. -/
def lex (functions : FunctionTable) (word statement : Bool) : Text → List Piece × Bool
  | [] => ([], true)
  | c :: t => match piece? functions word statement c t with
    | none => ([], false)
    | some p =>
      let (ps, complete) := lex functions (endsWord p.text) (p.statement statement)
        (t.drop (p.text.length - 1))
      (p :: ps, complete)
termination_by t => t.length
decreasing_by
  simp only [List.length_drop, List.length_cons]
  omega

/-- The pieces of `u` when `s` comes behind it, and the state behind them. -/
inductive Walk (functions : FunctionTable) (s : Text) :
    Bool → Bool → Text → List Piece → Bool → Bool → Prop where
  | done (word statement : Bool) : Walk functions s word statement [] [] word statement
  | step {word statement word' statement' : Bool} {c : Char} {tail u : Text} {p : Piece}
      {ps : List Piece} (hp : piece? functions word statement c (tail ++ (u ++ s)) = some p)
      (htext : p.text = c :: tail)
      (more : Walk functions s (endsWord p.text) (p.statement statement) u ps word' statement') :
      Walk functions s word statement (c :: (tail ++ u)) (p :: ps) word' statement'

namespace Walk

variable {s u : Text} {word statement word' statement' : Bool} {ps : List Piece}

theorem texts_eq (h : Walk functions s word statement u ps word' statement') :
    Piece.texts ps = u := by
  induction h with
  | done => rfl
  | step _ htext _ ih => simp [htext, ih]

/-- Walking over a text first gives the pieces of the whole. -/
theorem lex_eq (h : Walk functions s word statement u ps word' statement') :
    lex functions word statement (u ++ s) =
      (ps ++ (lex functions word' statement' s).1, (lex functions word' statement' s).2) := by
  induction h with
  | done => rfl
  | @step word statement word' statement' c tail u p ps hp htext _ ih =>
    have hdrop : (tail ++ (u ++ s)).drop (p.text.length - 1) = u ++ s := by
      rw [htext]
      exact List.drop_left' (by simp)
    rw [List.cons_append, List.append_assoc, lex, hp]
    simp only [hdrop, ih]
    rfl

theorem append {t : Text} {word'' statement'' : Bool} {qs : List Piece}
    (h : Walk functions (t ++ s) word statement u ps word' statement')
    (h' : Walk functions s word' statement' t qs word'' statement'') :
    Walk functions s word statement (u ++ t) (ps ++ qs) word'' statement'' := by
  induction h with
  | done => exact h'
  | @step _ _ _ _ c tail u p ps hp htext _ ih =>
    have hnext := ih h'
    rw [List.cons_append, List.append_assoc]
    refine .step ?_ htext hnext
    rwa [List.append_assoc]

end Walk

/-- A text from which no piece can be taken, though it is not empty. -/
def Stuck (functions : FunctionTable) (word statement : Bool) (t : Text) : Prop :=
  ∃ c t', t = c :: t' ∧ piece? functions word statement c t' = none

/-- The pieces of a text form a walk that ends at the end of the text, or where no
piece can be taken. -/
theorem exists_walk (functions : FunctionTable) (word statement : Bool) (t : Text) :
    ∃ u v word' statement', t = u ++ v ∧
      Walk functions v word statement u (lex functions word statement t).1 word' statement' ∧
      if (lex functions word statement t).2 then v = [] else Stuck functions word' statement' v := by
  induction ht : t.length using Nat.strongRecOn generalizing word statement t with
  | _ n ih =>
    subst ht
    cases t with
    | nil => exact ⟨[], [], word, statement, rfl, by rw [lex]; exact .done _ _, by simp [lex]⟩
    | cons c t =>
      cases hp : piece? functions word statement c t with
      | none =>
        rw [lex, hp]
        exact ⟨[], c :: t, word, statement, rfl, .done _ _, c, t, rfl, hp⟩
      | some p =>
        obtain ⟨rest, hrest⟩ := piece?_text hp
        obtain ⟨tail, htail⟩ : ∃ tail, p.text = c :: tail := by
          cases htext : p.text with
          | nil => exact absurd htext p.text_ne_nil
          | cons d tail =>
            rw [htext] at hrest
            exact ⟨tail, by rw [(List.cons.inj hrest).1]⟩
        have ht : t = tail ++ rest := by
          rw [htail] at hrest
          exact (List.cons.inj hrest).2
        have hdrop : t.drop (p.text.length - 1) = rest := by
          rw [htail, ht]
          exact List.drop_left' (by simp)
        have hlt : rest.length < (c :: t).length := by
          rw [ht, List.length_cons, List.length_append]
          omega
        obtain ⟨u, v, word', statement', rfl, hwalk, hend⟩ :=
          ih _ hlt (endsWord p.text) (p.statement statement) rest rfl
        rw [lex, hp]
        simp only [hdrop]
        refine ⟨c :: (tail ++ u), v, word', statement', by rw [ht]; simp, ?_, hend⟩
        rw [ht] at hp
        exact .step hp htail hwalk

/-! ### The directives along pieces -/

/-- What a scan reports along pieces, and where it stands behind them; nothing if a
brace closes no block. -/
def trail (cur : Cursor) (run : Run) : List Piece → Option (List Directive × Cursor × Run)
  | [] => some ([], cur, run)
  | .act c found :: ps =>
    let next := cur.step c found.tail { cur.context with atStatement := found.atStatement }
    (trail next (.fresh next) ps).map fun (ds, cur', run') =>
      (complete cur run c found ++ ds, cur', run')
  | .token c tail effect :: ps =>
    (effect.result? cur.context).bind fun context =>
      trail (cur.step c tail context) (run.extend (c :: tail)) ps

/-- Whether a statement can start behind a token. -/
theorem atStatement_result? {effect : Effect} {context context' : Context} {c : Char} {tail : Text}
    (h : effect.result? context = some context') :
    context'.atStatement = (Piece.token c tail effect).statement context.atStatement := by
  cases effect with
  | keeps => cases h; rfl
  | enters => cases h; rfl
  | opens => cases h; rfl
  | closes =>
    obtain ⟨blocks, nextBlock, atStatement⟩ := context
    cases blocks with
    | nil => cases h
    | cons block blocks => cases h; rfl
  | ends => cases h; rfl

/-- A cursor that shows the two bits. -/
structure Shows (cur : Cursor) (word statement : Bool) : Prop where
  word : cur.followsWord = word
  statement : cur.context.atStatement = statement

theorem Shows.recognize_toOption {cur : Cursor} {word statement : Bool} (h : Shows cur word statement)
    (c : Char) (t : Text) : (recognize functions cur c t).toOption =
      (recognize functions (probe word statement) c t).toOption :=
  Scan.recognize_toOption (by rw [h.word, followsWord_probe]) h.statement c t

section Steps

variable {cur : Cursor} {word statement : Bool} (hcur : Shows cur word statement) {c : Char}
variable {tail rest : Text}
include hcur

theorem scanFrom_act (run : Run) {found : Found}
    (h : recognize functions (probe word statement) c (found.tail ++ rest) = .ok (some found)) :
    scanFrom functions cur run (c :: (found.tail ++ rest)) =
      (scanFrom functions (cur.step c found.tail { cur.context with atStatement := found.atStatement })
        (.fresh (cur.step c found.tail { cur.context with atStatement := found.atStatement }))
        rest).prepend (complete cur run c found) := by
  have hfound : recognize functions cur c (found.tail ++ rest) = .ok (some found) := by
    rw [← toOption_eq_some_iff, hcur.recognize_toOption, toOption_eq_some_iff, h]
  rw [scanFrom, hfound]
  simp only [List.drop_left]

theorem recognize_eq_none
    (h : recognize functions (probe word statement) c rest = .ok none) :
    recognize functions cur c rest = .ok none := by
  rw [← toOption_eq_some_iff, hcur.recognize_toOption, toOption_eq_some_iff, h]

theorem scanFrom_token (run : Run) {effect : Effect} {context : Context}
    (h : recognize functions (probe word statement) c (tail ++ rest) = .ok none)
    (htoken : token? word c (tail ++ rest) = some (tail, effect))
    (hcontext : effect.result? cur.context = some context) :
    scanFrom functions cur run (c :: (tail ++ rest)) =
      scanFrom functions (cur.step c tail context) (run.extend (c :: tail)) rest := by
  have hskip : skip cur c (tail ++ rest) = .ok (tail, context) :=
    skip_eq_ok_iff.2 ⟨effect, by rw [hcur.word, htoken], hcontext⟩
  rw [scanFrom, recognize_eq_none hcur h, hskip]
  simp only [List.drop_left]

theorem scanFrom_unmatched (run : Run) {effect : Effect}
    (h : recognize functions (probe word statement) c (tail ++ rest) = .ok none)
    (htoken : token? word c (tail ++ rest) = some (tail, effect))
    (hcontext : effect.result? cur.context = none) :
    ∃ e, scanFrom functions cur run (c :: (tail ++ rest)) = ⟨[], some e⟩ := by
  have hskip : (skip cur c (tail ++ rest)).toOption = none := by
    rw [skip_toOption, hcur.word, htoken]
    simp [hcontext]
  rw [scanFrom, recognize_eq_none hcur h]
  revert hskip
  cases skip cur c (tail ++ rest) with
  | error e => exact fun _ => ⟨e, rfl⟩
  | ok result =>
    intro hskip
    cases hskip

theorem scanFrom_stuck (run : Run) (h : Stuck functions word statement rest) :
    ∃ e, scanFrom functions cur run rest = ⟨[], some e⟩ := by
  obtain ⟨c, t, rfl, hpiece⟩ := h
  unfold piece? at hpiece
  split at hpiece
  case h_1 e he =>
    have hnone := @Shows.recognize_toOption functions _ _ _ hcur c t
    rw [he] at hnone
    rw [scanFrom]
    revert hnone
    cases recognize functions cur c t with
    | error e' => exact fun _ => ⟨e', rfl⟩
    | ok found? =>
      intro hnone
      cases hnone
  case h_2 => cases hpiece
  case h_3 h =>
    have htoken : token? word c t = none := Option.map_eq_none_iff.1 hpiece
    have hskip : (skip cur c t).toOption = none := by
      rw [skip_toOption, hcur.word, htoken]
      rfl
    rw [scanFrom, recognize_eq_none hcur h]
    revert hskip
    cases skip cur c t with
    | error e => exact fun _ => ⟨e, rfl⟩
    | ok result =>
      intro hskip
      cases hskip

end Steps

theorem piece?_eq_act_iff {word statement : Bool} {c d : Char} {t : Text} {found : Found} :
    piece? functions word statement c t = some (.act d found) ↔
      d = c ∧ recognize functions (probe word statement) c t = .ok (some found) := by
  unfold piece?
  split
  case h_1 e he => simp [he]
  case h_2 found' hfound => simp [hfound, eq_comm]
  case h_3 h => simp [h]

theorem piece?_eq_token_iff {word statement : Bool} {c d : Char} {t tail : Text} {effect : Effect} :
    piece? functions word statement c t = some (.token d tail effect) ↔
      d = c ∧ recognize functions (probe word statement) c t = .ok none ∧
        token? word c t = some (tail, effect) := by
  unfold piece?
  split
  case h_1 e he => simp [he]
  case h_2 found' hfound => simp [hfound]
  case h_3 h =>
    rw [h]
    constructor
    · intro hmap
      obtain ⟨⟨tail', effect'⟩, htoken, heq⟩ := Option.map_eq_some_iff.1 hmap
      cases heq
      exact ⟨rfl, rfl, htoken⟩
    · rintro ⟨rfl, -, htoken⟩
      rw [htoken]
      rfl

/-- Along a walk a scan reports what the trail says and goes on behind it; where the
trail ends in an unmatched brace, so does the scan. -/
theorem Walk.scanFrom_eq {s u : Text} {word statement word' statement' : Bool} {ps : List Piece}
    (h : Walk functions s word statement u ps word' statement') {cur : Cursor}
    (hcur : Shows cur word statement) (run : Run) :
    (∀ ds cur' run', trail cur run ps = some (ds, cur', run') → Shows cur' word' statement' ∧
      scanFrom functions cur run (u ++ s) = (scanFrom functions cur' run' s).prepend ds) ∧
    (trail cur run ps = none → (scanFrom functions cur run (u ++ s)).error? ≠ none) := by
  induction h generalizing cur run with
  | done word statement =>
    refine ⟨?_, fun hnone => by cases hnone⟩
    rintro ds cur' run' htrail
    cases htrail
    exact ⟨hcur, rfl⟩
  | @step word statement word' statement' c tail u p ps hp htext _ ih =>
    cases p with
    | act d found =>
      obtain ⟨rfl, hfound⟩ := piece?_eq_act_iff.1 hp
      obtain rfl : found.tail = tail := (List.cons.inj htext).2
      have hscan := scanFrom_act hcur run hfound
      set next := cur.step d found.tail { cur.context with atStatement := found.atStatement }
      have hnext : Shows next (endsWord (d :: found.tail)) found.atStatement :=
        ⟨followsWord_step _ _ _ _, rfl⟩
      obtain ⟨hsome, hnone⟩ := ih hnext (.fresh next)
      rw [List.cons_append, List.append_assoc, hscan]
      constructor
      · intro ds cur' run' htrail
        obtain ⟨⟨ds', cur'', run''⟩, htrail', heq⟩ := Option.map_eq_some_iff.1 htrail
        cases heq
        obtain ⟨hshows, hrest⟩ := hsome _ _ _ htrail'
        refine ⟨hshows, ?_⟩
        rw [hrest]
        simp [Outcome.prepend]
      · intro htrail
        exact hnone (Option.map_eq_none_iff.1 htrail)
    | token d tail' effect =>
      obtain ⟨rfl, hnone', htoken⟩ := piece?_eq_token_iff.1 hp
      obtain rfl : tail' = tail := (List.cons.inj htext).2
      rw [List.cons_append, List.append_assoc, trail]
      cases hcontext : effect.result? cur.context with
      | none =>
        obtain ⟨e, he⟩ := scanFrom_unmatched hcur run hnone' htoken hcontext
        rw [he]
        refine ⟨?_, fun _ => by simp⟩
        intro ds cur' run' htrail
        cases htrail
      | some context =>
        rw [scanFrom_token hcur run hnone' htoken hcontext]
        refine ih ⟨followsWord_step _ _ _ _, ?_⟩ _
        rw [← hcur.statement]
        exact atStatement_result? hcontext

end StylePrep.Scan
