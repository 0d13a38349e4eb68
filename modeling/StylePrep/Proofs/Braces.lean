import StylePrep.Proofs.Blocks
import StylePrep.Proofs.ImportLine

/-!
# Braces make the scopes

A scan goes over a text token by token. A brace counts where a token starts with it; inside a
longer token, which is a string, a comment, a `url(…)` or an interpolation, and inside a
directive it does not. `Proceeds` goes from one place of the scan to a later one and notes what
counts on the way, and `replay?` is what these marks do to a scope: each opening brace adds the
next number, and each closing brace takes the last one away (`Proceeds.replay`).

The directives of a scan lie one behind the other on one such way (`scanFrom_lined`). A run has
the marks of its own text, and any other directive has none that counts. The only difficulty is
that an import owns the blanks in front of it, which the scan went over when they still were
part of the run; no token of the run reaches into them (`Proceeds.split_blanks`).
-/

namespace StylePrep

namespace Scan

open Text Delimited

variable {functions : FunctionTable} {cur cur' cur'' : Cursor} {t t' rest rest' : Text}

/-- What a scan comes across: a brace that counts, or a directive. -/
inductive Mark where
  | opening
  | closing
  | directive
  deriving DecidableEq, Repr

/-- The mark of a token, from its first character. -/
def marksOf (c : Char) : List Mark :=
  if c = '{' then [.opening] else if c = '}' then [.closing] else []

/-- From one place of a scan, in front of a text, to a later one. -/
inductive Proceeds (functions : FunctionTable) : Cursor → Text → List Mark → Cursor → Text → Prop where
  | done (cur : Cursor) (t : Text) : Proceeds functions cur t [] cur t
  | token {cur cur' : Cursor} {c : Char} {tail rest rest' : Text} {context : Context}
      {marks : List Mark} (hrecognize : recognize functions cur c (tail ++ rest) = .ok none)
      (hskip : skip cur c (tail ++ rest) = .ok (tail, context))
      (more : Proceeds functions (cur.step c tail context) rest marks cur' rest') :
      Proceeds functions cur (c :: (tail ++ rest)) (marksOf c ++ marks) cur' rest'
  | directive {cur cur' : Cursor} {c : Char} {found : Found} {rest rest' : Text} {marks : List Mark}
      (hrecognize : recognize functions cur c (found.tail ++ rest) = .ok (some found))
      (more : Proceeds functions
        (cur.step c found.tail { cur.context with atStatement := found.atStatement }) rest marks cur'
        rest') :
      Proceeds functions cur (c :: (found.tail ++ rest)) (.directive :: marks) cur' rest'

/-- What marks make of a scope, blocks being numbered from `n` on; none if a brace closes no
block. -/
def replay? (n : Nat) (scope : List Nat) : List Mark → Option (List Nat)
  | [] => some scope
  | .opening :: marks => replay? (n + 1) (scope ++ [n]) marks
  | .closing :: marks => if scope = [] then none else replay? n scope.dropLast marks
  | .directive :: marks => replay? n scope marks

/-! ### Marks and scopes -/

section Replay

variable {n : Nat} {p q r : List Nat} {marks marks' : List Mark}

theorem replay?_append :
    replay? n p (marks ++ marks') =
      (replay? n p marks).bind fun q => replay? (n + marks.count .opening) q marks' := by
  induction marks generalizing n p with
  | nil => rfl
  | cons mark marks ih =>
    cases mark with
    | opening =>
      rw [List.cons_append, replay?, replay?, ih, List.count_cons_self]
      simp only [Nat.add_assoc, Nat.add_comm 1]
    | closing =>
      rw [List.cons_append, replay?, replay?]
      split
      · rfl
      · rw [ih, List.count_cons_of_ne (by decide)]
    | directive => rw [List.cons_append, replay?, replay?, ih, List.count_cons_of_ne (by decide)]

/-- The numbers of a scope rise, and are below `n`. -/
def Rises (n : Nat) (scope : List Nat) : Prop := scope.Pairwise (· < ·) ∧ ∀ x ∈ scope, x < n

theorem Rises.replay? (hp : Rises n p) (h : Scan.replay? n p marks = some q) :
    Rises (n + marks.count .opening) q := by
  induction marks generalizing n p with
  | nil =>
    cases h
    exact hp
  | cons mark marks ih =>
    obtain ⟨hrise, hlt⟩ := hp
    cases mark with
    | opening =>
      have hopened : Rises (n + 1) (p ++ [n]) := by
        refine ⟨List.pairwise_append.2 ⟨hrise, List.pairwise_singleton _ _, fun x hx y hy => ?_⟩,
          fun x hx => ?_⟩
        · rw [List.mem_singleton.1 hy]
          exact hlt x hx
        · rcases List.mem_append.1 hx with hx | hx
          · exact Nat.lt_succ_of_lt (hlt x hx)
          · rw [List.mem_singleton.1 hx]
            exact Nat.lt_succ_self n
      rw [List.count_cons_self, Nat.add_comm _ 1, ← Nat.add_assoc]
      exact ih hopened h
    | closing =>
      rw [Scan.replay?] at h
      split at h
      · cases h
      · rw [List.count_cons_of_ne (by decide)]
        exact ih ⟨hrise.sublist (List.dropLast_sublist p), fun x hx => hlt x (List.dropLast_subset p hx)⟩
          h
    | directive =>
      rw [List.count_cons_of_ne (by decide)]
      exact ih ⟨hrise, hlt⟩ h

end Replay

/-! ### Ways -/

theorem eq_nil_of_length_append_le {x y : Text} (h : (x ++ y).length ≤ y.length) : x = [] := by
  rw [List.length_append] at h
  exact List.length_eq_zero_iff.1 (by omega)

namespace Proceeds

variable {marks marks' : List Mark}

theorem trans (h : Proceeds functions cur t marks cur' t')
    (h' : Proceeds functions cur' t' marks' cur'' rest) :
    Proceeds functions cur t (marks ++ marks') cur'' rest := by
  induction h with
  | done => exact h'
  | token hrecognize hskip more ih =>
    rw [List.append_assoc]
    exact .token hrecognize hskip (ih h')
  | directive hrecognize more ih => exact .directive hrecognize (ih h')

theorem length_le (h : Proceeds functions cur t marks cur' rest) : rest.length ≤ t.length := by
  induction h with
  | done => exact Nat.le_refl _
  | token _ _ more ih | directive _ more ih =>
    simp only [List.length_cons, List.length_append]
    omega

/-- Who takes no text does not move. -/
theorem eq_of_eq (h : Proceeds functions cur t marks cur' rest) (hrest : rest = t) :
    marks = [] ∧ cur' = cur := by
  cases h with
  | done => exact ⟨rfl, rfl⟩
  | token _ _ more | directive _ more =>
    have hle := more.length_le
    rw [hrest] at hle
    simp only [List.length_cons, List.length_append] at hle
    omega

theorem single {c : Char} {tail : Text} {context : Context}
    (hrecognize : recognize functions cur c (tail ++ rest) = .ok none)
    (hskip : skip cur c (tail ++ rest) = .ok (tail, context)) :
    Proceeds functions cur (c :: (tail ++ rest)) (marksOf c) (cur.step c tail context) rest := by
  simpa using Proceeds.token hrecognize hskip (.done _ _)

/-- A token does to the blocks what its mark says. -/
theorem replay_skip {c : Char} {tail : Text} {context : Context}
    (h : skip cur c t = .ok (tail, context)) :
    replay? cur.context.nextBlock cur.scope (marksOf c) = some context.blocks.reverse ∧
      context.nextBlock = cur.context.nextBlock + (marksOf c).count .opening := by
  obtain ⟨effect, htoken, hresult⟩ := skip_eq_ok_iff.1 h
  obtain ⟨rest, -, htoken⟩ := token_of_token? htoken
  have hother (hopens : c ≠ '{') (hcloses : c ≠ '}') (hblocks : context.blocks = cur.context.blocks)
      (hnext : context.nextBlock = cur.context.nextBlock) :
      replay? cur.context.nextBlock cur.scope (marksOf c) = some context.blocks.reverse ∧
        context.nextBlock = cur.context.nextBlock + (marksOf c).count .opening := by
    rw [marksOf, if_neg hopens, if_neg hcloses, hblocks, hnext]
    exact ⟨rfl, rfl⟩
  cases htoken with
  | lineComment | blockComment | interpolation | url =>
    cases hresult
    exact hother (by decide) (by decide) rfl rfl
  | string _ hquote =>
    cases hresult
    refine hother ?_ ?_ rfl rfl <;>
    · rintro rfl
      exact absurd hquote (by decide)
  | single =>
    unfold effectOf at hresult
    by_cases hopens : c = '{'
    · subst hopens
      cases hresult
      exact ⟨by simp [marksOf, replay?, Cursor.scope], rfl⟩
    rw [if_neg hopens] at hresult
    by_cases hcloses : c = '}'
    · subst hcloses
      rw [if_pos rfl] at hresult
      cases hblocks : cur.context.blocks with
      | nil => simp [Effect.result?, hblocks] at hresult
      | cons block blocks =>
        simp only [Effect.result?, hblocks, Option.some.injEq] at hresult
        subst hresult
        exact ⟨by simp [marksOf, replay?, Cursor.scope, hblocks], rfl⟩
    rw [if_neg hcloses] at hresult
    split at hresult
    · cases hresult
      exact hother hopens hcloses rfl rfl
    split at hresult
    all_goals
      cases hresult
      exact hother hopens hcloses rfl rfl

/-- Going on, the scope becomes what the marks make of it, and every opening brace takes the
next number. -/
theorem replay (h : Proceeds functions cur t marks cur' rest) :
    replay? cur.context.nextBlock cur.scope marks = some cur'.scope ∧
      cur'.context.nextBlock = cur.context.nextBlock + marks.count .opening := by
  induction h with
  | done => exact ⟨rfl, rfl⟩
  | token hrecognize hskip more ih =>
    obtain ⟨hscope, hnext⟩ := replay_skip hskip
    rw [replay?_append, hscope, List.count_append, ← Nat.add_assoc, ← hnext]
    exact ih
  | directive hrecognize more ih =>
    rw [List.count_cons_of_ne (by decide)]
    exact ih

/-- The blocks that are open are numbered. -/
theorem rises (h : Proceeds functions cur t marks cur' rest)
    (hcur : Rises cur.context.nextBlock cur.scope) : Rises cur'.context.nextBlock cur'.scope := by
  rw [h.replay.2]
  exact hcur.replay? h.replay.1

/-! ### Blanks in front of an import -/

/-- A token that ends in a blank is the blank, or a line comment, which goes on to the end of
its line. -/
theorem eq_nil_of_blank {c b : Char} {tail : Text} {context : Context}
    (hskip : skip cur c (tail ++ rest) = .ok (tail, context)) (hb : isBlank b = true)
    (hlast : (c :: tail).getLast? = some b) (hrest : ∃ d, rest.head? = some d ∧ d ≠ '\n') :
    tail = [] := by
  obtain ⟨effect, htoken, -⟩ := skip_eq_ok_iff.1 hskip
  obtain ⟨rest₀, hrest₀, htoken⟩ := token_of_token? htoken
  obtain rfl := List.append_cancel_left hrest₀
  have hends {e : Char} {body : Text} (hbody : body.getLast? = some e)
      (he : (c :: tail).getLast? = body.getLast?) : isBlank e = true := by
    rw [he, hbody] at hlast
    cases hlast
    exact hb
  have hcons (d : Char) {body : Text} {e : Char} (hbody : body.getLast? = some e) :
      (d :: body).getLast? = body.getLast? := by
    rw [List.getLast?_cons, hbody]
    rfl
  cases htoken with
  | single => rfl
  | lineComment _ hstops =>
    obtain ⟨d, hd, hne⟩ := hrest
    obtain ⟨rest, rfl⟩ := List.head?_eq_some_iff.1 hd
    exact absurd (hstops d (by simp)) (by simpa using hne)
  | blockComment _ hbody =>
    have hslash := commentTail_getLast? hbody
    exact absurd (hends hslash (by simp [List.getLast?_cons, hslash])) (by decide)
  | string _ hquote hbody =>
    have hquote' := hends (stringTail_getLast? hbody) (hcons c (stringTail_getLast? hbody))
    simp only [isQuote, Bool.or_eq_true, beq_iff_eq] at hquote
    rcases hquote with rfl | rfl <;> exact absurd hquote' (by decide)
  | interpolation _ hbody =>
    have hbrace := bracketTail_getLast? hbody
    exact absurd (hends hbrace (by simp [List.getLast?_cons, hbrace])) (by decide)
  | url _ _ hbody =>
    have hparen := bracketTail_getLast? hbody
    exact absurd (hends hparen (by simp [List.getLast?_cons, hparen])) (by decide)

/-- A blank in front of other text of its line is gone over by itself. -/
theorem split_blank {u : Text} {b : Char} (h : Proceeds functions cur (u ++ b :: rest) marks cur' rest)
    (hplain : .directive ∉ marks) (hb : isBlank b = true)
    (hrest : ∃ d, rest.head? = some d ∧ d ≠ '\n') :
    ∃ cur₁, Proceeds functions cur (u ++ b :: rest) marks cur₁ (b :: rest) ∧
      Proceeds functions cur₁ (b :: rest) [] cur' rest := by
  generalize ht : u ++ b :: rest = t at h
  induction h generalizing u with
  | done cur t =>
    have hlength := congrArg List.length ht
    simp only [List.length_append, List.length_cons] at hlength
    omega
  | @token cur cur' c tail rest₀ rest context marks hrecognize hskip more ih =>
    have hle := more.length_le
    have hmarks : marksOf b = [] := by
      simp only [isBlank, Bool.or_eq_true, beq_iff_eq] at hb
      rcases hb with rfl | rfl <;> rfl
    cases u with
    | nil =>
      obtain ⟨rfl, rfl⟩ : b = c ∧ rest = tail ++ rest₀ := by simpa using ht
      obtain rfl := eq_nil_of_length_append_le hle
      obtain ⟨rfl, rfl⟩ := more.eq_of_eq rfl
      have hway := single hrecognize hskip
      rw [hmarks] at hway ⊢
      exact ⟨cur, .done _ _, hway⟩
    | cons e u =>
      obtain ⟨rfl, heq⟩ : e = c ∧ u ++ b :: rest = tail ++ rest₀ := by simpa using ht
      have hsplit : ∃ x, u = tail ++ x ∧ rest₀ = x ++ b :: rest := by
        rcases List.append_eq_append_iff.1 heq with ⟨x, htail, hx⟩ | hsplit
        · cases x with
          | nil => exact ⟨[], by simpa using htail.symm, hx.symm⟩
          | cons d x =>
            -- The token would end in the blank.
            exfalso
            obtain ⟨rfl, rfl⟩ : b = d ∧ rest = x ++ rest₀ := by simpa using hx
            obtain rfl := eq_nil_of_length_append_le hle
            have hlast : (e :: tail).getLast? = some b := by
              rw [htail, ← List.cons_append, List.getLast?_concat]
            have hnil := eq_nil_of_blank hskip hb hlast hrest
            simp [htail] at hnil
        · exact hsplit
      obtain ⟨x, rfl, rfl⟩ := hsplit
      have hmore : .directive ∉ marks := fun h => hplain (List.mem_append_right _ h)
      obtain ⟨cur₁, hway, hblank⟩ := ih hmore hrest rfl
      exact ⟨cur₁, .token hrecognize hskip hway, hblank⟩
  | directive => exact absurd List.mem_cons_self hplain

/-- Blanks in front of other text of their line are gone over by themselves. -/
theorem split_blanks {u blanks : Text} (h : Proceeds functions cur (u ++ (blanks ++ rest)) marks cur' rest)
    (hplain : .directive ∉ marks) (hblanks : ∀ b ∈ blanks, isBlank b = true)
    (hrest : blanks ≠ [] → ∃ d, rest.head? = some d ∧ d ≠ '\n') :
    ∃ cur₁, Proceeds functions cur (u ++ (blanks ++ rest)) marks cur₁ (blanks ++ rest) ∧
      Proceeds functions cur₁ (blanks ++ rest) [] cur' rest := by
  induction blanks using List.reverseRecOn generalizing cur' rest with
  | nil => exact ⟨cur', h, .done _ _⟩
  | append_singleton blanks b ih =>
    have hb : isBlank b = true := hblanks b (by simp)
    have hnext : ∃ d, (b :: rest).head? = some d ∧ d ≠ '\n' := by
      refine ⟨b, rfl, ?_⟩
      rintro rfl
      exact absurd hb (by decide)
    rw [List.append_assoc, ← List.append_assoc] at h
    obtain ⟨cur₂, hway, hlast⟩ := h.split_blank hplain hb (hrest (by simp))
    rw [List.append_assoc] at hway
    obtain ⟨cur₁, hfront, hback⟩ := ih hway (fun c hc => hblanks c (by simp [hc])) fun _ => hnext
    rw [List.append_assoc]
    exact ⟨cur₁, hfront, by simpa using hback.trans hlast⟩

end Proceeds

/-! ### The directives of a scan -/

/-- A directive that a scan takes from the front of a text. -/
structure Taken (functions : FunctionTable) (cur : Cursor) (t : Text) (d : Directive)
    (marks : List Mark) (cur' : Cursor) (rest : Text) : Prop where
  text : t = d.raw ++ rest
  scope : d.scope = cur.scope
  way : Proceeds functions cur t marks cur' rest
  plain : d.kind = .plain → .directive ∉ marks
  other : d.kind ≠ .plain → marks = [.directive]

/-- Directives that a scan takes one after another. -/
inductive Lined (functions : FunctionTable) : Cursor → Text → List Directive → Prop where
  | nil (cur : Cursor) (t : Text) : Lined functions cur t []
  | cons {cur cur' : Cursor} {t rest : Text} {d : Directive} {marks : List Mark} {ds : List Directive}
      (htaken : Taken functions cur t d marks cur' rest) (more : Lined functions cur' rest ds) :
      Lined functions cur t (d :: ds)

/-- A run is taken by itself. -/
theorem Lined.flush {run : Run} {marks : List Mark} {ds : List Directive}
    (h : Proceeds functions cur (run.text ++ rest) marks cur' rest) (hplain : .directive ∉ marks)
    (hscope : run.scope = cur.scope) (more : Lined functions cur' rest ds) :
    Lined functions cur (run.text ++ rest) (run.flush ++ ds) := by
  unfold Run.flush
  split
  case isTrue hnil =>
    rw [hnil, List.nil_append] at h ⊢
    obtain ⟨-, rfl⟩ := h.eq_of_eq rfl
    exact more
  case isFalse => exact .cons ⟨rfl, hscope, h, fun _ => hplain, fun hkind => absurd rfl hkind⟩ more

/-- Whatever a scan reports is lined up, from the start of the run on. -/
theorem scanFrom_lined {cur₀ cur : Cursor} {run : Run} {t : Text} {marks : List Mark}
    (h : Proceeds functions cur₀ (run.text ++ t) marks cur t) (hplain : .directive ∉ marks)
    (hscope : run.scope = cur₀.scope) :
    Lined functions cur₀ (run.text ++ t) (scanFrom functions cur run t).directives := by
  fun_induction scanFrom functions cur run t generalizing cur₀ marks with
  | case1 cur run => simpa using Lined.flush h hplain hscope (.nil cur [])
  | case2 | case4 => exact .nil _ _
  | case3 cur run c t found hrecognize next =>
    rename_i ih
    obtain ⟨-, rest, rfl, hform⟩ := recognize_eq_some_iff.1 hrecognize
    rw [List.drop_left] at ih ⊢
    obtain ⟨u, indent, span, hrun, hcomplete, himports, hother⟩ := complete_eq cur run c found
    have hblanks : ∀ b ∈ indent, isBlank b = true := by
      by_cases hkind : ∃ targets, found.kind = .imports targets
      · obtain ⟨targets, hkind⟩ := hkind
        rw [himports targets hkind]
        exact fun b => Run.isBlank_of_mem_indent
      · rw [hother (not_exists.1 hkind)]
        simp
    have hstart : indent ≠ [] → ∃ d, (c :: (found.tail ++ rest)).head? = some d ∧ d ≠ '\n' := by
      intro hne
      obtain ⟨targets, hkind⟩ : ∃ targets, found.kind = .imports targets := by
        by_contra hkind
        exact hne (hother (not_exists.1 hkind))
      obtain ⟨rfl, -⟩ := hform.eq_of_imports hkind
      exact ⟨'@', rfl, by decide⟩
    rw [hrun, List.append_assoc] at h ⊢
    obtain ⟨cur₁, hfront, hindent⟩ := h.split_blanks hplain hblanks hstart
    have hrest : Lined functions next rest (scanFrom functions next (.fresh next) rest).directives :=
      ih (.done next rest) List.not_mem_nil rfl
    have hscope₁ : cur.scope = cur₁.scope := (Option.some.inj hindent.replay.1).symm
    have htaken : Taken functions cur₁ (indent ++ c :: (found.tail ++ rest))
        ⟨found.kind, span, indent ++ c :: found.tail, cur.scope⟩ [.directive] next rest :=
      ⟨by simp, hscope₁, hindent.trans (.directive hrecognize (.done next rest)),
        fun hkind => absurd hkind hform.kind_ne_plain, fun _ => rfl⟩
    simp only [Outcome.prepend, hcomplete, List.append_assoc]
    exact @Lined.flush functions _ _ _ { run with text := u } _ _ hfront hplain hscope (.cons htaken hrest)
  | case5 cur run c t hrecognize tail context hskip ih =>
    obtain ⟨effect, htoken, -⟩ := skip_eq_ok_iff.1 hskip
    obtain ⟨rest, rfl, -⟩ := token?_eq_some_iff.1 htoken
    rw [List.drop_left] at ih ⊢
    have hmarks : .directive ∉ marks ++ marksOf c := by
      unfold marksOf
      split
      · simpa using hplain
      split <;> simpa using hplain
    have htext : run.text ++ c :: (tail ++ rest) = (run.extend (c :: tail)).text ++ rest := by
      simp [Run.extend]
    have hway := h.trans (.single hrecognize hskip)
    rw [htext] at hway ⊢
    exact ih hway hmarks hscope

theorem scanText_lined (functions : FunctionTable) (mode : Mode) (first : Nat) (t : Text) :
    Lined functions (.start mode first) t (scanText functions mode first t).directives :=
  @scanFrom_lined functions _ _ (.fresh (.start mode first)) t [] (.done _ _) List.not_mem_nil rfl

/-- The way to a directive, and the numbers of the blocks in front of it. -/
theorem Lined.split {front ds : List Directive} (h : Lined functions cur t (front ++ ds))
    (hcur : Rises cur.context.nextBlock cur.scope) :
    ∃ before cur' rest, t = Directive.texts front ++ rest ∧ Proceeds functions cur t before cur' rest ∧
      Lined functions cur' rest ds ∧ Rises cur'.context.nextBlock cur'.scope ∧
      ∀ d ∈ front, ∀ x ∈ d.scope, x < cur'.context.nextBlock := by
  induction front generalizing cur t with
  | nil => exact ⟨[], cur, t, rfl, .done _ _, h, hcur, by simp⟩
  | cons d front ih =>
    cases h with
    | @cons _ cur₁ _ rest₁ _ marks _ htaken more =>
      obtain ⟨before, cur', rest, htext, hway, hlined, hrises, hfront⟩ := ih more (htaken.way.rises hcur)
      refine ⟨marks ++ before, cur', rest, ?_, htaken.way.trans hway, hlined, hrises, fun e he x hx => ?_⟩
      · rw [htaken.text, htext, Directive.texts_cons, List.append_assoc]
      · rcases List.mem_cons.1 he with rfl | he
        · have hlt := hcur.2 x (htaken.scope ▸ hx)
          have hfirst := htaken.way.replay.2
          have hsecond := hway.replay.2
          omega
        · exact hfront e he x hx

/-- A block that is left is never entered again. -/
theorem Descends.not_mem {n : Nat} {p : List Nat} {ds : List Directive} (h : Descends n p ds) {x : Nat}
    (hold : x < n) (hx : x ∉ p) : ∀ d ∈ ds, x ∉ d.scope := by
  induction ds generalizing n p with
  | nil => simp
  | cons d ds ih =>
    obtain ⟨⟨kept, fresh, hkept, hscope, hfresh⟩, m, hm, -, more⟩ := h
    have hd : x ∉ d.scope := by
      rw [hscope]
      intro hmem
      rcases List.mem_append.1 hmem with hmem | hmem
      · exact hx (hkept.subset hmem)
      · exact absurd (hfresh x hmem) (Nat.not_le_of_lt hold)
    exact List.forall_mem_cons.2 ⟨hd, ih more (Nat.lt_of_lt_of_le hold hm) hd⟩

theorem Descends.split {n : Nat} {p : List Nat} {front back : List Directive} {d : Directive}
    (h : Descends n p (front ++ d :: back)) :
    ∃ m, n ≤ m ∧ (∀ x ∈ d.scope, x < m) ∧ Descends m d.scope back := by
  induction front generalizing n p with
  | nil =>
    obtain ⟨-, hback⟩ := h
    exact hback
  | cons e front ih =>
    obtain ⟨-, m, hm, -, more⟩ := h
    obtain ⟨m', hm', hback⟩ := ih more
    exact ⟨m', Nat.le_trans hm hm', hback⟩

theorem Descends.not_mem_of_sublist {n : Nat} {p : List Nat} {ds : List Directive}
    (h : Descends n p ds) {d d' d'' : Directive} (hsub : [d, d', d''].Sublist ds) {x : Nat}
    (hd : x ∈ d.scope) (hd' : x ∉ d'.scope) : x ∉ d''.scope := by
  obtain ⟨_, behind, rfl, hmem, hsub'⟩ := List.cons_sublist_iff.1 hsub
  obtain ⟨_, behind', rfl, hmem', hsub''⟩ := List.cons_sublist_iff.1 hsub'
  obtain ⟨front, back, rfl⟩ := List.append_of_mem hmem
  obtain ⟨front', back', rfl⟩ := List.append_of_mem hmem'
  rw [List.append_assoc, List.cons_append] at h
  obtain ⟨m, -, hm, hrest⟩ := h.split
  rw [List.append_assoc, List.cons_append, ← List.append_assoc] at hrest
  obtain ⟨m', hle, -, hrest'⟩ := hrest.split
  exact hrest'.not_mem (Nat.lt_of_lt_of_le (hm x hd) hle) hd' d''
    (List.mem_append_right _ (List.singleton_sublist.1 hsub''))

/-- The scopes of the directives of a text follow its braces, and no block is entered twice. -/
theorem scopes_follow_braces (functions : FunctionTable) (mode : Mode) (first : Nat) (t : Text) :
    (∀ d ∈ (scanText functions mode first t).directives, d.scope.Pairwise (· < ·)) ∧
    -- from each directive to the next
    (∀ front d e back, (scanText functions mode first t).directives = front ++ d :: e :: back →
      ∃ before cur marks cur' rest,
        t = Directive.texts front ++ (d.raw ++ rest) ∧
        Proceeds functions (.start mode first) t before cur (d.raw ++ rest) ∧
        Taken functions cur (d.raw ++ rest) d marks cur' rest ∧
        replay? 0 [] before = some d.scope ∧
        replay? (before.count .opening) d.scope marks = some e.scope ∧
        (d.kind ≠ .plain → e.scope = d.scope) ∧
        ∀ d' ∈ front ++ [d], ∀ x ∈ d'.scope, x < before.count .opening) ∧
    -- a block that is left
    ∀ d d' d'', [d, d', d''].Sublist (scanText functions mode first t).directives →
      ∀ x ∈ d.scope, x ∉ d'.scope → x ∉ d''.scope := by
  have hstart : Rises (Cursor.start mode first).context.nextBlock (Cursor.start mode first).scope :=
    ⟨.nil, by simp [Cursor.scope, Cursor.start]⟩
  have hlined := scanText_lined functions mode first t
  refine ⟨fun d hd => ?_, fun front d e back hds => ?_, fun d d' d'' hsub x hd hd' => ?_⟩
  · obtain ⟨front, back, hds⟩ := List.append_of_mem hd
    obtain ⟨before, cur, rest, -, -, hback, hrises, -⟩ := (hds ▸ hlined).split hstart
    cases hback with
    | cons htaken _ => exact htaken.scope ▸ hrises.1
  · obtain ⟨before, cur, rest₀, htext, hway, hback, hrises, hfront⟩ := (hds ▸ hlined).split hstart
    have hcount : cur.context.nextBlock = before.count .opening :=
      hway.replay.2.trans (Nat.zero_add _)
    cases hback with
    | @cons _ cur' _ rest _ marks _ htaken more =>
      cases more with
      | cons hnext _ =>
        obtain rfl := htaken.text
        have hreplay := htaken.way.replay.1
        rw [hcount, ← htaken.scope, ← hnext.scope] at hreplay
        refine ⟨before, cur, marks, cur', rest, htext, hway, htaken, htaken.scope ▸ hway.replay.1,
          hreplay, fun hkind => ?_, fun d' hd' x hx => ?_⟩
        · rw [htaken.other hkind] at hreplay
          exact (Option.some.inj hreplay).symm
        · rw [← hcount]
          rcases List.mem_append.1 hd' with hd' | hd'
          · exact hfront d' hd' x hx
          · rw [List.mem_singleton.1 hd', htaken.scope] at hx
            exact hrises.2 x hx
  · have hdescends : Descends 0 [] (scanText functions mode first t).directives :=
      @scanFrom_descends functions (.start mode first) (.fresh (.start mode first)) t 0 (.refl 0 [])
        (Nat.le_refl 0) (by simp [Run.fresh, Cursor.scope, Cursor.start]) (by simp [Cursor.start])
    exact hdescends.not_mem_of_sublist hsub hd hd'

example : (scan .empty "a{image-url(x)}b{image-url(y)}".toList).directives.map (·.scope) =
    [[], [0], [0], [1], [1]] := by decide +kernel

end Scan

end StylePrep
