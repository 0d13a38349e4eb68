import StylePrep.Proofs.Cover
import StylePrep.Proofs.Provenance

/-!
# Where a scan fails

The error that ends a scan names a line. The readers count lines on their own: that of an import
adds up the line feeds of the white space and the items it has read, that of a statement those of
the strings, comments and interpolations.

`Halts` says where a scan comes to a halt, and counts no lines: the directives and tokens in front
are stepped over, and then comes one that cannot be taken. It is at fault itself, or else
something in it that never ends (`Rejects`). In each reader the line counted so far is that of the
place reached, so the error that ends a scan is on the line of what is at fault
(`Scan.halts_of_scanFrom`). That line is one of the text (`Scan.onLine_of_scan`).
-/

namespace StylePrep

open Text

/-- A line of a text whose lines are numbered from `first`: some character stands on it. -/
def Text.OnLine (first : Nat) (t : Text) (line : Nat) : Prop :=
  ∃ before rest, t = before ++ rest ∧ rest ≠ [] ∧ line = first + before.newlines

/-- Such a line is one of the physical lines. -/
theorem Text.OnLine.bounds {t : Text} {line : Nat} (h : OnLine 1 t line) :
    1 ≤ line ∧ line ≤ t.physicalLines := by
  obtain ⟨before, rest, rfl, hrest, rfl⟩ := h
  exact ⟨Nat.le_add_right 1 _, le_physicalLines before hrest⟩

/-- Complaints about a directive as a whole. -/
def Complaint.isWhole : Complaint → Bool
  | importWithoutName | assignmentWithoutValue | unterminatedCall _ | unboundSpriteMap => true
  | _ => false

namespace Scan

open Delimited

/-! ### What is at fault -/

/-- A text that starts with an item of an import that never ends. -/
inductive EndlessItem : Complaint → Text → Prop where
  | string {quote : Char} {t : Text} (hquote : isQuote quote = true)
      (ht : stringTail quote t = none) : EndlessItem .unterminatedImportString (quote :: t)
  | url {t : Text} (ht : parenTail t = none) :
      EndlessItem .unterminatedImportUrl ("url(".toList ++ t)

/-- A text that starts with a part of a statement that never ends. -/
inductive EndlessPart : Complaint → Text → Prop where
  | string {quote : Char} {t : Text} (hquote : isQuote quote = true)
      (ht : stringTail quote t = none) : EndlessPart .unterminatedString (quote :: t)
  | comment {t : Text} (ht : commentTail t = none) :
      EndlessPart .unterminatedComment ('/' :: '*' :: t)
  | interpolation {t : Text} (ht : braceTail t = none) :
      EndlessPart .unterminatedInterpolation ('#' :: '{' :: t)

/-- Items of an import, each with the comma behind it. -/
inductive Listed : Text → Prop where
  | nil : Listed []
  | item {space blank more : Text} {target : Target} (hspace : ∀ c ∈ space, isAsciiSpace c = true)
      (hitem : Item target) (hblank : ∀ c ∈ blank, isBlank c = true) (hmore : Listed more) :
      Listed (space ++ target.spelling ++ blank ++ ',' :: more)

/-- Neither a directive nor a token can be taken from the front of `before ++ rest`, and what
`rest` starts with is at fault: all of it, an item of an import, or a part of the value of an
assignment. -/
inductive Rejects (functions : FunctionTable) (cur : Cursor) : Text → Text → Complaint → Prop where
  | directive {c : Char} {t : Text} {e : ScanError} (he : recognize functions cur c t = .error e)
      (hwhole : e.complaint.isWhole = true) : Rejects functions cur [] (c :: t) e.complaint
  | item {items space rest : Text} {complaint : Complaint}
      (hstatement : cur.context.atStatement = true)
      (hhead : ((items ++ space ++ rest).head?.map fun c => isAsciiSpace c || isQuote c).getD false = true)
      (hitems : Listed items) (hspace : ∀ c ∈ space, isAsciiSpace c = true)
      (hrest : EndlessItem complaint rest) :
      Rejects functions cur ('@' :: ("import".toList ++ (items ++ space))) rest complaint
  | value {name space gap body rest : Text} {complaint : Complaint}
      (hstatement : cur.context.atStatement = true) (hname : name ≠ [])
      (hword : ∀ c ∈ name, isWordChar c = true) (hspace : ∀ c ∈ space, isAsciiSpace c = true)
      (hgap : ∀ c ∈ gap, isAsciiSpace c = true) (hstops : Stops isAsciiSpace (body ++ rest))
      (hbody : Statement 0 body [] []) (hrest : EndlessPart complaint rest) :
      Rejects functions cur ('$' :: (name ++ space ++ ':' :: gap ++ body)) rest complaint
  | token {c : Char} {t : Text} {e : ScanError} (hnone : recognize functions cur c t = .ok none)
      (he : skip cur c t = .error e) : Rejects functions cur [] (c :: t) e.complaint

/-- A scan of `before ++ rest` comes to a halt at what `rest` starts with. -/
inductive Halts (functions : FunctionTable) : Cursor → Text → Text → Complaint → Prop where
  | here {cur : Cursor} {before rest : Text} {complaint : Complaint}
      (h : Rejects functions cur before rest complaint) : Halts functions cur before rest complaint
  | directive {cur : Cursor} {c : Char} {found : Found} {before rest : Text} {complaint : Complaint}
      (hfound : recognize functions cur c (found.tail ++ (before ++ rest)) = .ok (some found))
      (more : Halts functions (cur.step c found.tail { cur.context with atStatement := found.atStatement })
        before rest complaint) :
      Halts functions cur (c :: (found.tail ++ before)) rest complaint
  | token {cur : Cursor} {c : Char} {tail before rest : Text} {context : Context}
      {complaint : Complaint}
      (hnone : recognize functions cur c (tail ++ (before ++ rest)) = .ok none)
      (hskip : skip cur c (tail ++ (before ++ rest)) = .ok (tail, context))
      (more : Halts functions (cur.step c tail context) before rest complaint) :
      Halts functions cur (c :: (tail ++ before)) rest complaint

variable {functions : FunctionTable} {first line depth : Nat} {cur : Cursor} {c : Char} {t : Text}
variable {before rest : Text} {complaint : Complaint} {e : ScanError}

theorem EndlessItem.ne_nil (h : EndlessItem complaint t) : t ≠ [] := by
  cases h <;> exact List.cons_ne_nil _ _

theorem EndlessPart.ne_nil (h : EndlessPart complaint t) : t ≠ [] := by
  cases h <;> exact List.cons_ne_nil _ _

theorem Rejects.ne_nil (h : Rejects functions cur before rest complaint) : rest ≠ [] := by
  cases h with
  | directive => exact List.cons_ne_nil _ _
  | item _ _ _ _ hrest => exact hrest.ne_nil
  | value _ _ _ _ _ _ _ hrest => exact hrest.ne_nil
  | token => exact List.cons_ne_nil _ _

theorem Halts.ne_nil (h : Halts functions cur before rest complaint) : rest ≠ [] := by
  induction h with
  | here h => exact h.ne_nil
  | directive _ _ ih => exact ih
  | token _ _ _ ih => exact ih

/-- The line feeds of items, one of them apart: the blanks and the comma behind it have none. -/
theorem newlines_item {blank : Text} (hblank : ∀ c ∈ blank, isBlank c = true)
    (space spelling items space' : Text) :
    newlines (space ++ spelling ++ blank ++ ',' :: items ++ space') =
      newlines space + (newlines spelling + newlines (items ++ space')) := by
  have hnone : newlines blank = 0 :=
    List.count_eq_zero.2 fun hmem => absurd (hblank _ hmem) (by decide)
  rw [List.append_assoc _ _ space', List.cons_append, newlines_append, newlines_cons,
    newlines_append, newlines_append, hnone, if_neg (by decide), Nat.add_zero, Nat.add_zero,
    Nat.add_assoc]

/-! ### Readers -/

/-- A sequence that fails does so in one of its parts. -/
theorem exists_of_bind_eq_error {α β : Type} {x : Except ScanError α} {f : α → Except ScanError β}
    (h : x >>= f = .error e) : x = .error e ∨ ∃ a, x = .ok a ∧ f a = .error e := by
  cases x with
  | error e' =>
    cases h
    exact .inl rfl
  | ok a => exact .inr ⟨a, rfl, h⟩

/-- An item of an import is missing, or it never ends. -/
theorem endless_of_readTarget (h : readTarget first line t = .error e) :
    e = ⟨first, .importWithoutName⟩ ∨ e.line = line ∧ EndlessItem e.complaint t := by
  unfold readTarget at h
  split at h
  · cases h
    exact .inl rfl
  · rename_i c rest
    split at h
    case isTrue hquote =>
      split at h <;> cases h
      exact .inr ⟨rfl, .string hquote (by assumption)⟩
    case isFalse =>
      split at h
      · cases h
        exact .inl rfl
      · rename_i inner hinner
        split at h <;> cases h
        rw [after?_eq_some_iff.1 hinner]
        exact .inr ⟨rfl, .url (by assumption)⟩

theorem endless_of_readTargets (h : readTargets first line t = .error e) :
    e = ⟨first, .importWithoutName⟩ ∨ ∃ items space rest, t = items ++ space ++ rest ∧ Listed items ∧
      (∀ c ∈ space, isAsciiSpace c = true) ∧ EndlessItem e.complaint rest ∧
      e.line = line + newlines (items ++ space) := by
  induction ht : t.length using Nat.strongRecOn generalizing line t with
  | _ n ih =>
    subst ht
    cases htarget : readTarget first (line + newlines (t.takeWhile isAsciiSpace))
        (t.dropWhile isAsciiSpace) with
    | error e' =>
      rw [readTargets] at h
      simp only [htarget, bind, Except.bind, Except.error.injEq] at h
      subst h
      refine (endless_of_readTarget htarget).imp_right ?_
      rintro ⟨hline, hrest⟩
      exact ⟨[], t.takeWhile isAsciiSpace, t.dropWhile isAsciiSpace,
        (List.takeWhile_append_dropWhile).symm, .nil, fun c => of_mem_takeWhile, hrest, hline⟩
    | ok target =>
      obtain ⟨space, blank, next, rfl, hspace, hitem, hblank, -, hround⟩ :=
        readTargets_of_readTarget htarget
      rw [h, readFurther.eq_def] at hround
      split at hround
      case h_1 more =>
        rcases exists_of_bind_eq_error hround.symm with hmore | ⟨others, -, hpure⟩
        · refine (ih _ (by simp; omega) hmore rfl).imp_right ?_
          rintro ⟨items, space', rest, rfl, hitems, hspace', hrest, hline⟩
          refine ⟨_, space', rest, ?_, .item hspace hitem hblank hitems, hspace', hrest, ?_⟩
          · simp
          · rw [hline, newlines_item hblank, Nat.add_assoc, Nat.add_assoc]
        · cases hpure
      case h_2 => cases hround
      case h_3 => cases hround

/-- A statement behind a string, a comment or interpolation, which is taken as a whole. -/
theorem endless_behind (part : Text)
    (hpart : ∀ body, Statement depth body [] [] → Statement depth (part ++ body) [] [])
    (h : ∃ body rest, t = body ++ rest ∧ Statement depth body [] [] ∧ EndlessPart e.complaint rest ∧
      e.line = line + newlines part + newlines body) :
    ∃ body rest, part ++ t = body ++ rest ∧ Statement depth body [] [] ∧
      EndlessPart e.complaint rest ∧ e.line = line + newlines body := by
  obtain ⟨body, rest, rfl, hstatement, hrest, hline⟩ := h
  refine ⟨part ++ body, rest, by simp, hpart body hstatement, hrest, ?_⟩
  rw [hline, newlines_append, Nat.add_assoc]

theorem endless_of_readStatement (h : readStatement line depth t = .error e) :
    ∃ body rest, t = body ++ rest ∧ Statement depth body [] [] ∧ EndlessPart e.complaint rest ∧
      e.line = line + newlines body := by
  fun_induction readStatement line depth t with
  | case1 => cases h
  | case2 line depth c t hquote hbody =>
    cases h
    exact ⟨[], c :: t, rfl, .atEnd depth, .string hquote hbody, rfl⟩
  | case3 line depth c t hquote string hstring ih =>
    rcases exists_of_bind_eq_error h with hmore | ⟨_, -, hpure⟩
    · obtain ⟨u, rfl⟩ := stringTail_isPrefix hstring
      rw [List.drop_left] at ih hmore
      have hc : c ≠ '\n' := by
        rintro rfl
        cases hquote
      have hpart : newlines (c :: string) = newlines string := by
        rw [newlines_cons, if_neg hc, Nat.add_zero]
      rw [← hpart] at ih hmore
      refine endless_behind (c :: string) (fun body hstatement => ?_) (ih hmore)
      exact .string hquote (by simpa using stringTail_congr hstring []) hstatement
    · cases hpure
  | case4 line depth c t _ hc hbody =>
    cases h
    obtain ⟨rfl, ht⟩ := hc
    obtain ⟨t, rfl⟩ := List.head?_eq_some_iff.1 ht
    exact ⟨[], _, rfl, .atEnd depth, .comment hbody, rfl⟩
  | case5 line depth c t _ hc comment hcomment ih =>
    rcases exists_of_bind_eq_error h with hmore | ⟨_, -, hpure⟩
    · obtain ⟨rfl, ht⟩ := hc
      obtain ⟨t, rfl⟩ := List.head?_eq_some_iff.1 ht
      obtain ⟨u, rfl⟩ := commentTail_isPrefix hcomment
      rw [List.tail_cons, List.drop_left] at ih hmore
      refine endless_behind ('/' :: '*' :: comment) (fun body hstatement => ?_) (ih hmore)
      exact .comment (by simpa using commentTail_congr hcomment []) hstatement
    · cases hpure
  | case6 line depth c t _ _ hc hbody =>
    cases h
    obtain ⟨rfl, ht⟩ := hc
    obtain ⟨t, rfl⟩ := List.head?_eq_some_iff.1 ht
    exact ⟨[], _, rfl, .atEnd depth, .interpolation hbody, rfl⟩
  | case7 line depth c t _ _ hc braced hbraced ih =>
    rcases exists_of_bind_eq_error h with hmore | ⟨_, -, hpure⟩
    · obtain ⟨rfl, ht⟩ := hc
      obtain ⟨t, rfl⟩ := List.head?_eq_some_iff.1 ht
      obtain ⟨u, rfl⟩ := bracketTail_isPrefix hbraced
      rw [List.tail_cons, List.drop_left] at ih hmore
      refine endless_behind ('#' :: '{' :: braced) (fun body hstatement => ?_) (ih hmore)
      exact .interpolation (by simpa using braceTail_congr hbraced []) hstatement
    · cases hpure
  | case8 => cases h
  | case9 => cases h
  | case10 line depth c t hquote hc hb hs he depth' ih =>
    rcases exists_of_bind_eq_error h with hmore | ⟨_, -, hpure⟩
    · obtain ⟨body, rest, rfl, hstatement, hrest, hline⟩ := ih hmore
      -- what stands behind the character starts as the whole does, or is empty
      have hhead {d : Char} (h : (body ++ ([] ++ [])).head? = some d) :
          (body ++ rest).head? = some d := by
        cases body with
        | nil => cases h
        | cons b body => exact h
      refine ⟨c :: body, rest, rfl, .char hquote (fun h => hc ⟨h.1, hhead h.2⟩)
        (fun h => hb ⟨h.1, hhead h.2⟩) hs he ?_, hrest, ?_⟩
      · simpa [depth', depthAfter] using hstatement
      · rw [hline, Nat.add_assoc, ← newlines_append, List.singleton_append]
    · cases hpure

/-! ### Directives and tokens -/

theorem endless_of_readImport (h : readImport line t = .error e) :
    e = ⟨line, .importWithoutName⟩ ∨ ∃ items space rest,
      t = "import".toList ++ (items ++ space ++ rest) ∧
      ((items ++ space ++ rest).head?.map fun c => isAsciiSpace c || isQuote c).getD false = true ∧
      Listed items ∧ (∀ c ∈ space, isAsciiSpace c = true) ∧ EndlessItem e.complaint rest ∧
      e.line = line + newlines (items ++ space) := by
  unfold readImport at h
  split at h
  · cases h
  · rename_i rest hrest
    obtain rfl := after?_eq_some_iff.1 hrest
    split at h
    case isTrue hhead =>
      rcases exists_of_bind_eq_error h with htargets | ⟨targets, -, hpure⟩
      · refine (endless_of_readTargets htargets).imp_right ?_
        rintro ⟨items, space, rest, rfl, hfault⟩
        exact ⟨items, space, rest, rfl, hhead, hfault⟩
      · split at hpure <;> cases hpure
    case isFalse => cases h

theorem endless_of_readAssignment (h : readAssignment line t = .error e) :
    e = ⟨line, .assignmentWithoutValue⟩ ∨ ∃ name space gap body rest,
      t = name ++ space ++ ':' :: gap ++ body ++ rest ∧ name ≠ [] ∧
      (∀ c ∈ name, isWordChar c = true) ∧
      (∀ c ∈ space, isAsciiSpace c = true) ∧ (∀ c ∈ gap, isAsciiSpace c = true) ∧
      Stops isAsciiSpace (body ++ rest) ∧ Statement 0 body [] [] ∧ EndlessPart e.complaint rest ∧
      e.line = line + newlines (name ++ space ++ ':' :: gap ++ body) := by
  unfold readAssignment at h
  dsimp only at h
  split at h
  case isTrue => cases h
  case isFalse hname =>
    split at h
    · rename_i after hafter
      rcases exists_of_bind_eq_error h with hvalue | ⟨⟨body, stop⟩, -, hpure⟩
      · obtain ⟨body, rest, hbody, hstatement, hrest, hline⟩ := endless_of_readStatement hvalue
        refine .inr ⟨t.takeWhile isWordChar, (t.dropWhile isWordChar).takeWhile isAsciiSpace,
          after.takeWhile isAsciiSpace, body, rest, ?_, hname, fun c => of_mem_takeWhile,
          fun c => of_mem_takeWhile, fun c => of_mem_takeWhile, ?_, hstatement, hrest, ?_⟩
        · rw [List.append_assoc _ body, ← hbody, List.append_assoc, List.cons_append,
            List.takeWhile_append_dropWhile, List.append_assoc, ← hafter,
            List.takeWhile_append_dropWhile, List.takeWhile_append_dropWhile]
        · rw [← hbody]
          exact stops_dropWhile isAsciiSpace after
        · rw [hline, newlines_append _ body, Nat.add_assoc]
      · dsimp only at hpure
        split at hpure <;> cases hpure
        exact .inl rfl
    · cases h

theorem whole_of_readCall (h : readCall functions line c t = .error e) :
    e.line = line ∧ e.complaint.isWhole = true := by
  unfold readCall at h
  dsimp only at h
  split at h
  · split at h
    · cases h
    · split at h
      · cases h
        exact ⟨rfl, rfl⟩
      · split at h <;> cases h
        exact ⟨rfl, rfl⟩
  · cases h

/-- A directive that cannot be recognized is reported on the line of what is at fault. -/
theorem rejects_of_recognize (h : recognize functions cur c t = .error e) :
    ∃ before rest, c :: t = before ++ rest ∧ Rejects functions cur before rest e.complaint ∧
      e.line = cur.line + newlines before := by
  have hself (hline : e.line = cur.line) (hwhole : e.complaint.isWhole = true) :
      ∃ before rest, c :: t = before ++ rest ∧ Rejects functions cur before rest e.complaint ∧
        e.line = cur.line + newlines before :=
    ⟨[], c :: t, rfl, .directive h hwhole, hline⟩
  have hreads := h
  unfold recognize at hreads
  split at hreads
  case isTrue hc =>
    rcases endless_of_readImport hreads with rfl | ⟨items, space, rest, rfl, hhead, hitems, hspace,
      hrest, hline⟩
    · exact hself rfl rfl
    · obtain ⟨rfl, hstatement⟩ := hc
      exact ⟨_, rest, by simp, .item hstatement hhead hitems hspace hrest, hline⟩
  case isFalse =>
    split at hreads
    case isTrue hc =>
      rcases endless_of_readAssignment hreads with rfl | ⟨name, space, gap, body, rest, rfl, hname,
        hword, hspace, hgap, hstops, hbody, hrest, hline⟩
      · exact hself rfl rfl
      · obtain ⟨rfl, hstatement⟩ := hc
        exact ⟨_, rest, by simp, .value hstatement hname hword hspace hgap hstops hbody hrest, hline⟩
    case isFalse =>
      split at hreads
      · exact hself (whole_of_readCall hreads).1 (whole_of_readCall hreads).2
      · cases hreads

theorem line_of_skip (h : skip cur c t = .error e) : e.line = cur.line := by
  unfold skip at h
  dsimp only at h
  split at h
  · cases h
  split at h
  · split at h <;> cases h
    rfl
  split at h
  · split at h <;> cases h
    rfl
  split at h
  · split at h <;> cases h
    rfl
  split at h
  · split at h <;> cases h
    rfl
  split at h
  · cases h
  split at h
  · split at h <;> cases h
    rfl
  split at h
  · cases h
  split at h <;> cases h

/-! ### Scans -/

theorem line_step (cur : Cursor) (c : Char) (tail : Text) (context : Context) :
    (cur.step c tail context).line = cur.line + newlines (c :: tail) := Location.advance_line _ _

/-- The error that ends a scan is on the line of what the scan comes to a halt at. -/
theorem halts_of_scanFrom {run : Run} (h : (scanFrom functions cur run t).error? = some e) :
    ∃ before rest, t = before ++ rest ∧ Halts functions cur before rest e.complaint ∧
      e.line = cur.line + newlines before := by
  fun_induction scanFrom functions cur run t with
  | case1 => cases h
  | case2 cur run c t e' hrecognize =>
    cases h
    obtain ⟨before, rest, ht, hrejects, hline⟩ := rejects_of_recognize hrecognize
    exact ⟨before, rest, ht, .here hrejects, hline⟩
  | case3 cur run c t found hrecognize next ih =>
    obtain ⟨-, rest, rfl, -⟩ := recognize_eq_some_iff.1 hrecognize
    rw [List.drop_left] at ih h
    obtain ⟨before, rest, rfl, hhalts, hline⟩ := ih h
    refine ⟨c :: (found.tail ++ before), rest, by simp, .directive hrecognize hhalts, ?_⟩
    rw [hline, line_step, ← List.cons_append, newlines_append, Nat.add_assoc]
  | case4 cur run c t hnone e' hskip =>
    cases h
    exact ⟨[], c :: t, rfl, .here (.token hnone hskip), line_of_skip hskip⟩
  | case5 cur run c t hnone tail context hskip ih =>
    obtain ⟨effect, htoken, -⟩ := skip_eq_ok_iff.1 hskip
    obtain ⟨rest, rfl, -⟩ := token?_eq_some_iff.1 htoken
    rw [List.drop_left] at ih h
    obtain ⟨before, rest, rfl, hhalts, hline⟩ := ih h
    refine ⟨c :: (tail ++ before), rest, by simp, .token hnone hskip hhalts, ?_⟩
    rw [hline, line_step, ← List.cons_append, newlines_append, Nat.add_assoc]

/-! ### What a halt comes to -/

theorem EndlessItem.stops_space (h : EndlessItem complaint t) : Stops isAsciiSpace t := by
  cases h with
  | string hquote =>
    refine stops_cons ?_ _
    simp only [isQuote, Bool.or_eq_true, beq_iff_eq] at hquote
    rcases hquote with rfl | rfl <;> decide
  | url => exact stops_cons (by decide) _

theorem EndlessItem.readTarget (h : EndlessItem complaint t) (first line : Nat) :
    readTarget first line t = .error ⟨line, complaint⟩ := by
  cases h with
  | string hquote ht => simp [Scan.readTarget, hquote, ht]
  | @url t ht =>
    have hafter : after? "url(".toList ('u' :: 'r' :: 'l' :: '(' :: t) = some t :=
      after?_eq_some_iff.2 rfl
    change Scan.readTarget first line ('u' :: 'r' :: 'l' :: '(' :: t) = _
    simp only [Scan.readTarget, hafter, ht]
    rfl

theorem Listed.readTargets {items space : Text} (h : Listed items)
    (hspace : ∀ c ∈ space, isAsciiSpace c = true) (hrest : EndlessItem complaint rest)
    (first line : Nat) : readTargets first line (items ++ space ++ rest) =
      .error ⟨line + newlines (items ++ space), complaint⟩ := by
  induction h generalizing line with
  | nil =>
    rw [List.nil_append, Scan.readTargets]
    simp only [takeWhile_append_of_stops hspace hrest.stops_space,
      dropWhile_append_of_stops hspace hrest.stops_space, hrest.readTarget, bind, Except.bind]
  | @item space' blank more target hspace' hitem hblank _ ih =>
    have hnext : Stops isBlank (',' :: (more ++ space ++ rest)) := stops_cons rfl _
    have hround := readTargets_append first line hspace' hitem hblank hnext
    rw [readFurther, ih, Nat.add_assoc, Nat.add_assoc, ← newlines_item hblank] at hround
    simpa using hround

theorem EndlessPart.head?_ne (h : EndlessPart complaint t) :
    t.head? ≠ some '*' ∧ t.head? ≠ some '{' := by
  cases h with
  | string hquote => constructor <;> (rintro hc; cases hc; cases hquote)
  | comment => simp
  | interpolation => simp

theorem EndlessPart.readStatement (h : EndlessPart complaint t) (line depth : Nat) :
    readStatement line depth t = .error ⟨line, complaint⟩ := by
  cases h with
  | string hquote ht => simp [Scan.readStatement, hquote, ht]
  | comment ht => simp [Scan.readStatement, isQuote, ht]
  | interpolation ht => simp [Scan.readStatement, isQuote, ht]

/-- A statement that goes on with a part that never ends fails there. -/
theorem Statement.readStatement_append {body stop after : Text}
    (h : Statement depth body stop after) (hstop : stop = []) (hafter : after = [])
    (hrest : EndlessPart complaint rest) (line : Nat) :
    Scan.readStatement line depth (body ++ rest) = .error ⟨line + newlines body, complaint⟩ := by
  induction h generalizing line with
  | atEnd depth => exact hrest.readStatement line depth
  | semicolon => cases hstop
  | brace => cases hafter
  | @string quote string body stop after depth hquote hstring _ ih =>
    have hread := stringTail_congr hstring (body ++ rest)
    have hc : quote ≠ '\n' := by
      rintro rfl
      cases hquote
    simp [Scan.readStatement, hquote, hread, ih hstop hafter, hc, bind, Except.bind, Nat.add_assoc]
  | @comment comment body stop after depth hcomment _ ih =>
    have hread := commentTail_congr hcomment (body ++ rest)
    simp [Scan.readStatement, isQuote, hread, ih hstop hafter, bind, Except.bind, Nat.add_assoc]
  | @interpolation braced body stop after depth hbraced _ ih =>
    have hread := braceTail_congr hbraced (body ++ rest)
    simp [Scan.readStatement, isQuote, hread, ih hstop hafter, bind, Except.bind, Nat.add_assoc]
  | @char c body stop after depth hquote hcomment hbrace hsemicolon hend _ ih =>
    subst hstop hafter
    have hhead {d : Char} (hd : rest.head? ≠ some d) (h : (body ++ rest).head? = some d) :
        (body ++ ([] ++ [])).head? = some d := by
      cases body with
      | nil => exact absurd h hd
      | cons b body => exact h
    have hmore := ih rfl rfl (line + newlines [c])
    simp only [depthAfter] at hmore
    rw [List.cons_append, Scan.readStatement, if_neg hquote,
      if_neg fun h => hcomment ⟨h.1, hhead hrest.head?_ne.1 h.2⟩,
      if_neg fun h => hbrace ⟨h.1, hhead hrest.head?_ne.2 h.2⟩, if_neg hsemicolon, if_neg hend]
    simp only [hmore]
    rw [Nat.add_assoc, ← newlines_append, List.singleton_append]
    rfl

theorem Rejects.eq_nil_of_isWhole (h : Rejects functions cur before rest complaint)
    (hwhole : complaint.isWhole = true) : before = [] := by
  cases h with
  | directive => rfl
  | item _ _ _ _ hrest => cases hrest <;> cases hwhole
  | value _ _ _ _ _ _ _ hrest => cases hrest <;> cases hwhole
  | token => rfl

theorem recognize_item {items space : Text} (hstatement : cur.context.atStatement = true)
    (hhead : ((items ++ space ++ rest).head?.map fun c => isAsciiSpace c || isQuote c).getD false = true)
    (hitems : Listed items) (hspace : ∀ c ∈ space, isAsciiSpace c = true)
    (hrest : EndlessItem complaint rest) :
    recognize functions cur '@' ("import".toList ++ (items ++ space ++ rest)) =
      .error ⟨cur.line + newlines (items ++ space), complaint⟩ := by
  rw [recognize, if_pos ⟨rfl, hstatement⟩, readImport, after?_append]
  simp only [hhead, if_true, hitems.readTargets hspace hrest]
  rfl

theorem recognize_value {name space gap body : Text} (hstatement : cur.context.atStatement = true)
    (hname : name ≠ []) (hword : ∀ c ∈ name, isWordChar c = true)
    (hspace : ∀ c ∈ space, isAsciiSpace c = true) (hgap : ∀ c ∈ gap, isAsciiSpace c = true)
    (hstops : Stops isAsciiSpace (body ++ rest)) (hbody : Statement 0 body [] [])
    (hrest : EndlessPart complaint rest) :
    recognize functions cur '$' (name ++ (space ++ ':' :: (gap ++ (body ++ rest)))) =
      .error ⟨cur.line + newlines (name ++ space ++ ':' :: gap ++ body), complaint⟩ := by
  have hcolon : Stops isAsciiSpace (':' :: (gap ++ (body ++ rest))) := stops_cons (by decide) _
  have hbehind : Stops isWordChar (space ++ ':' :: (gap ++ (body ++ rest))) := by
    cases space with
    | nil => exact stops_cons (by decide) _
    | cons c space => exact stops_cons (isWordChar_of_isAsciiSpace (hspace c List.mem_cons_self)) _
  rw [recognize, if_neg fun h => absurd h.1 (by decide), if_pos ⟨rfl, hstatement⟩, readAssignment]
  simp only [takeWhile_append_of_stops hword hbehind, dropWhile_append_of_stops hword hbehind,
    takeWhile_append_of_stops hspace hcolon, dropWhile_append_of_stops hspace hcolon,
    takeWhile_append_of_stops hgap hstops, dropWhile_append_of_stops hgap hstops, if_neg hname,
    hbody.readStatement_append rfl rfl hrest]
  rw [newlines_append _ body, ← Nat.add_assoc]
  rfl

/-- What cannot be taken ends the scan with an error on its line. -/
theorem Rejects.error?_scanFrom (h : Rejects functions cur before rest complaint) (run : Run) :
    (scanFrom functions cur run (before ++ rest)).error? =
      some ⟨cur.line + newlines before, complaint⟩ := by
  have hscan {c : Char} {t : Text} {e : ScanError} (h : recognize functions cur c t = .error e) :
      (scanFrom functions cur run (c :: t)).error? = some e := by
    rw [scanFrom, h]
  cases h with
  | @directive c t e he hwhole =>
    obtain ⟨before, rest, -, hrejects, hline⟩ := rejects_of_recognize he
    rw [hrejects.eq_nil_of_isWhole hwhole] at hline
    rw [List.nil_append, hscan he, ← hline]
  | @item items space rest complaint hstatement hhead hitems hspace hrest =>
    have he := hscan (recognize_item hstatement hhead hitems hspace hrest)
    simpa using he
  | @value name space gap body rest complaint hstatement hname hword hspace hgap hstops hbody hrest =>
    have he := hscan
      (recognize_value hstatement hname hword hspace hgap hstops hbody hrest)
    simpa using he
  | @token c t e hnone he =>
    rw [List.nil_append, scanFrom, hnone, he, newlines_nil, Nat.add_zero, ← line_of_skip he]

/-- A scan that comes to a halt fails with an error on the line of the place. -/
theorem Halts.error?_scanFrom (h : Halts functions cur before rest complaint) (run : Run) :
    (scanFrom functions cur run (before ++ rest)).error? =
      some ⟨cur.line + newlines before, complaint⟩ := by
  induction h generalizing run with
  | here h => exact h.error?_scanFrom run
  | @directive cur c found before rest complaint hfound _ ih =>
    rw [List.cons_append, List.append_assoc, scanFrom, hfound]
    simp only [List.drop_left, Outcome.prepend, ih]
    rw [line_step, ← List.cons_append, newlines_append, Nat.add_assoc]
  | @token cur c tail before rest context complaint hnone hskip _ ih =>
    rw [List.cons_append, List.append_assoc, scanFrom, hnone, hskip]
    simp only [List.drop_left, ih]
    rw [line_step, ← List.cons_append, newlines_append, Nat.add_assoc]

/-- A scan fails exactly where it halts, and on the line of the place. -/
theorem error?_scanFrom_iff {run : Run} : (scanFrom functions cur run t).error? = some e ↔
    ∃ before rest, t = before ++ rest ∧ Halts functions cur before rest e.complaint ∧
      e.line = cur.line + newlines before := by
  constructor
  · exact halts_of_scanFrom
  · rintro ⟨before, rest, rfl, hhalts, hline⟩
    rw [hhalts.error?_scanFrom run, ← hline]

/-- The error that ends a scan names a line of the text that was scanned. -/
theorem onLine_of_scan (h : (scan functions t).error? = some e) : t.OnLine 1 e.line := by
  obtain ⟨before, rest, ht, hhalts, hline⟩ := halts_of_scanFrom h
  exact ⟨before, rest, ht, hhalts.ne_nil, hline⟩

end Scan

end StylePrep
