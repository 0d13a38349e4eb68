import StylePrep.Proofs.ImportLine
import StylePrep.Proofs.Trimmed
import StylePrep.Proofs.Values

/-!
# The parts of an assignment

An assignment is spelled `$name`, white space, a colon, white space, the value, and behind the
value flags and white space in any order and a semicolon, if there is one. The value is found in
two steps: the end of the statement by going forward over strings, block comments, interpolation
and brackets (`Crosses`), and from there the end of the value by taking flags and white space off,
one after another. `AssignmentParts` says that nothing is lost or taken twice in between, and that
the statement goes no further than its first end.
-/

namespace StylePrep

namespace Scan

open Text Delimited

variable {functions : FunctionTable}

/-! ### Flags -/

/-- What stands behind a value, piece by piece: a flag, or a white-space character. -/
def IsTrailer (p : Text) : Prop :=
  p = "!default".toList ∨ p = "!global".toList ∨ ∃ c, isSpace c = true ∧ p = [c]

/-- Each flag has a letter of its own. -/
theorem IsTrailer.eq_default {p : Text} (h : IsTrailer p) (hd : 'd' ∈ p) : p = "!default".toList := by
  rcases h with rfl | rfl | ⟨c, hc, rfl⟩
  · rfl
  · exact absurd hd (by decide)
  · obtain rfl := List.mem_singleton.1 hd
    exact absurd hc (by decide)

theorem IsTrailer.eq_global {p : Text} (h : IsTrailer p) (hg : 'g' ∈ p) : p = "!global".toList := by
  rcases h with rfl | rfl | ⟨c, hc, rfl⟩
  · exact absurd hg (by decide)
  · rfl
  · obtain rfl := List.mem_singleton.1 hg
    exact absurd hc (by decide)

/-- White space, piece by piece. -/
def spaces (u : Text) : List Text := u.map fun c => [c]

@[simp] theorem flatten_spaces (u : Text) : (spaces u).flatten = u := by
  induction u with
  | nil => rfl
  | cons c u ih => exact congrArg (c :: ·) ih

theorem isTrailer_of_mem_spaces {u p : Text} (hu : ∀ c ∈ u, isSpace c = true) (hp : p ∈ spaces u) :
    IsTrailer p := by
  obtain ⟨c, hc, rfl⟩ := List.mem_map.1 hp
  exact .inr (.inr ⟨c, hu c hc, rfl⟩)

theorem not_mem_spaces {p : Text} (hp : p.length ≠ 1) (u : Text) : p ∉ spaces u := by
  intro hmem
  obtain ⟨c, -, rfl⟩ := List.mem_map.1 hmem
  exact hp rfl

/-- Pieces with a flag and white space behind them. -/
theorem forall_isTrailer {pieces : List Text} {flag u : Text} (hpieces : ∀ p ∈ pieces, IsTrailer p)
    (hflag : IsTrailer flag) (hu : ∀ c ∈ u, isSpace c = true) :
    ∀ p ∈ pieces ++ flag :: spaces u, IsTrailer p := by
  intro p hp
  rcases List.mem_append.1 hp with hp | hp
  · exact hpieces p hp
  · rcases List.mem_cons.1 hp with rfl | hp
    · exact hflag
    · exact isTrailer_of_mem_spaces hu hp

/-- The flags of a value, and the white space around them, are the pieces behind it. -/
theorem splitFlags_pieces (t : Text) :
    ∃ pieces : List Text, t = (splitFlags t).1 ++ pieces.flatten ∧ (∀ p ∈ pieces, IsTrailer p) ∧
      ((splitFlags t).2.isDefault = true ↔ "!default".toList ∈ pieces) ∧
      ((splitFlags t).2.isGlobal = true ↔ "!global".toList ∈ pieces) := by
  fun_induction splitFlags t with
  | case1 t rest hd _ value flags hrest ih =>
    obtain ⟨u, ht, hu⟩ := exists_spaces t
    obtain ⟨pieces, htext, hpieces, hdefault, hglobal⟩ := ih
    rw [hrest] at htext hdefault hglobal
    rw [before?_eq_some_iff.1 hd, htext] at ht
    refine ⟨pieces ++ "!default".toList :: spaces u, by simpa using ht,
      forall_isTrailer hpieces (.inl rfl) hu, by simp, ?_⟩
    simpa [not_mem_spaces] using hglobal
  | case2 t _ rest hg _ value flags hrest ih =>
    obtain ⟨u, ht, hu⟩ := exists_spaces t
    obtain ⟨pieces, htext, hpieces, hdefault, hglobal⟩ := ih
    rw [hrest] at htext hdefault hglobal
    rw [before?_eq_some_iff.1 hg, htext] at ht
    refine ⟨pieces ++ "!global".toList :: spaces u, by simpa using ht,
      forall_isTrailer hpieces (.inr (.inl rfl)) hu, ?_, by simp⟩
    simpa [not_mem_spaces] using hdefault
  | case3 t hd hg =>
    obtain ⟨u, ht, hu⟩ := exists_spaces t
    exact ⟨spaces u, by simpa using ht, fun p hp => isTrailer_of_mem_spaces hu hp,
      by simp [not_mem_spaces], by simp [not_mem_spaces]⟩

/-- No flag is left at the end of a value. -/
theorem splitFlags_not_isSuffix (t : Text) :
    ¬ "!default".toList <:+ (splitFlags t).1 ∧ ¬ "!global".toList <:+ (splitFlags t).1 := by
  fun_induction splitFlags t with
  | case1 t rest hd _ value flags hrest ih | case2 t _ rest hg _ value flags hrest ih =>
    rw [hrest] at ih
    exact ih
  | case3 t hd hg =>
    refine ⟨?_, ?_⟩
    · rintro ⟨rest, hrest⟩
      rw [before?_eq_some_iff.2 hrest.symm] at hd
      cases hd
    · rintro ⟨rest, hrest⟩
      rw [before?_eq_some_iff.2 hrest.symm] at hg
      cases hg

theorem isSpace_of_getLast?_trimEnd {t : Text} {c : Char} (h : (trimEnd t).getLast? = some c) :
    isSpace c = false := by
  rw [trimEnd, List.getLast?_reverse] at h
  exact stops_dropWhile isSpace t.reverse c h

/-- No white space is left at the end of a value. -/
theorem splitFlags_getLast? (t : Text) {c : Char} (h : (splitFlags t).1.getLast? = some c) :
    isSpace c = false := by
  fun_induction splitFlags t with
  | case1 t rest hd _ value flags hrest ih | case2 t _ rest hg _ value flags hrest ih =>
    rw [hrest] at ih
    exact ih h
  | case3 t hd hg => exact isSpace_of_getLast?_trimEnd h

/-- A flag that has a letter of its own stands in pieces only as one of them. -/
theorem isInfix_flatten_iff {flag stop : Text} {pieces : List Text} {c : Char} (hc : c ∈ flag)
    (hpieces : ∀ p ∈ pieces, c ∈ p → p = flag) (hstop : c ∉ stop) :
    flag <:+: pieces.flatten ++ stop ↔ flag ∈ pieces := by
  constructor
  · intro h
    rcases List.mem_append.1 (h.subset hc) with hmem | hmem
    · obtain ⟨p, hp, hcp⟩ := List.mem_flatten.1 hmem
      exact hpieces p hp hcp ▸ hp
    · exact absurd hmem hstop
  · intro h
    obtain ⟨front, back, rfl⟩ := List.append_of_mem h
    exact ⟨front.flatten, back.flatten ++ stop, by simp⟩

/-! ### The end of a statement -/

/-- Going over `u`, in front of `rest`: strings, block comments and interpolation are taken as a
whole, and of other characters the brackets are counted. -/
inductive Crosses : Nat → Text → Text → Nat → Prop where
  | done (depth : Nat) (rest : Text) : Crosses depth [] rest depth
  | string {quote : Char} {body u rest : Text} {depth depth' : Nat} (hquote : isQuote quote = true)
      (hbody : stringTail quote body = some body) (more : Crosses depth u rest depth') :
      Crosses depth (quote :: (body ++ u)) rest depth'
  | comment {body u rest : Text} {depth depth' : Nat} (hbody : commentTail body = some body)
      (more : Crosses depth u rest depth') : Crosses depth ('/' :: '*' :: (body ++ u)) rest depth'
  | interpolation {body u rest : Text} {depth depth' : Nat} (hbody : braceTail body = some body)
      (more : Crosses depth u rest depth') : Crosses depth ('#' :: '{' :: (body ++ u)) rest depth'
  | char {c : Char} {u rest : Text} {depth depth' : Nat} (hquote : ¬ isQuote c = true)
      (hcomment : ¬ (c = '/' ∧ (u ++ rest).head? = some '*'))
      (hbrace : ¬ (c = '#' ∧ (u ++ rest).head? = some '{'))
      (more : Crosses (depthAfter depth c) u rest depth') : Crosses depth (c :: u) rest depth'

def IsEnd (c : Char) : Prop := c = ';' ∨ c = '{' ∨ c = '}'

instance (c : Char) : Decidable (IsEnd c) := inferInstanceAs (Decidable (_ ∨ _ ∨ _))

/-- A statement `body` ends in front of `stop` and `rest`, and not earlier. -/
structure Ends (body stop rest : Text) : Prop where
  closes : ∃ depth, Crosses 0 body (stop ++ rest) depth ∧
    (stop = [';'] ∧ depth = 0 ∨ stop = [] ∧ depth = 0 ∧ (rest.head? = some '{' ∨ rest.head? = some '}') ∨
      stop = [] ∧ rest = [])
  first : ∀ u c v, body = u ++ c :: v → Crosses 0 u (c :: (v ++ (stop ++ rest))) 0 → ¬ IsEnd c

theorem not_isEnd_of_isQuote {c : Char} (h : isQuote c = true) : ¬ IsEnd c := by
  simp only [isQuote, Bool.or_eq_true, beq_iff_eq] at h
  rcases h with rfl | rfl <;> decide

theorem Statement.crosses {depth : Nat} {body stop rest : Text} (h : Statement depth body stop rest) :
    ∃ depth', Crosses depth body (stop ++ rest) depth' ∧
      (stop = [';'] ∧ depth' = 0 ∨
        stop = [] ∧ depth' = 0 ∧ (rest.head? = some '{' ∨ rest.head? = some '}') ∨
        stop = [] ∧ rest = []) := by
  induction h with
  | atEnd depth => exact ⟨depth, .done _ _, .inr (.inr ⟨rfl, rfl⟩)⟩
  | semicolon rest => exact ⟨0, .done _ _, .inl ⟨rfl, rfl⟩⟩
  | brace rest hc =>
    refine ⟨0, .done _ _, .inr (.inl ⟨rfl, rfl, ?_⟩)⟩
    rcases hc with rfl | rfl
    · exact .inl rfl
    · exact .inr rfl
  | string hquote hbody _ ih =>
    obtain ⟨depth', hcrosses, hend⟩ := ih
    exact ⟨depth', .string hquote hbody hcrosses, hend⟩
  | comment hbody _ ih =>
    obtain ⟨depth', hcrosses, hend⟩ := ih
    exact ⟨depth', .comment hbody hcrosses, hend⟩
  | interpolation hbody _ ih =>
    obtain ⟨depth', hcrosses, hend⟩ := ih
    exact ⟨depth', .interpolation hbody hcrosses, hend⟩
  | char hquote hcomment hbrace _ _ _ ih =>
    obtain ⟨depth', hcrosses, hend⟩ := ih
    exact ⟨depth', .char hquote hcomment hbrace hcrosses, hend⟩

/-- What two readers of a front part both take is the same part. -/
theorem same_part {read : Text → Option Text} {x y s t : Text} (hx : ∀ rest, read (x ++ rest) = some x)
    (hy : ∀ rest, read (y ++ rest) = some y) (h : x ++ s = y ++ t) : x = y ∧ s = t := by
  obtain rfl : x = y := Option.some.inj ((hx s).symm.trans (h ▸ hy t))
  exact ⟨rfl, List.append_cancel_left h⟩

/-! A crossing that has begun with a string, a comment or interpolation has taken it as a whole. -/

section Over

variable {depth depth' : Nat} {u rest body t : Text}

theorem Crosses.over_string {quote : Char} (h : Crosses depth (quote :: u) rest depth')
    (hquote : isQuote quote = true) (hbody : stringTail quote body = some body)
    (heq : u ++ rest = body ++ t) : ∃ u', u = body ++ u' ∧ Crosses depth u' rest depth' := by
  cases h with
  | @string _ body' u' _ _ _ _ hbody' more =>
    rw [List.append_assoc] at heq
    obtain ⟨rfl, -⟩ := same_part (stringTail_congr hbody') (stringTail_congr hbody) heq
    exact ⟨u', rfl, more⟩
  | comment | interpolation => exact absurd hquote (by decide)
  | char hquote' => exact absurd hquote hquote'

theorem Crosses.over_comment (h : Crosses depth ('/' :: u) rest depth')
    (hbody : commentTail body = some body) (heq : u ++ rest = '*' :: (body ++ t)) :
    ∃ u', u = '*' :: (body ++ u') ∧ Crosses depth u' rest depth' := by
  cases h with
  | string hquote => exact absurd hquote (by decide)
  | @comment body' u' _ _ _ hbody' more =>
    replace heq : body' ++ (u' ++ rest) = body ++ t := by simpa using heq
    obtain ⟨rfl, -⟩ := same_part (commentTail_congr hbody') (commentTail_congr hbody) heq
    exact ⟨u', rfl, more⟩
  | char _ hcomment => exact absurd ⟨rfl, by rw [heq]; rfl⟩ hcomment

theorem Crosses.over_interpolation (h : Crosses depth ('#' :: u) rest depth')
    (hbody : braceTail body = some body) (heq : u ++ rest = '{' :: (body ++ t)) :
    ∃ u', u = '{' :: (body ++ u') ∧ Crosses depth u' rest depth' := by
  cases h with
  | string hquote => exact absurd hquote (by decide)
  | @interpolation body' u' _ _ _ hbody' more =>
    replace heq : body' ++ (u' ++ rest) = body ++ t := by simpa using heq
    obtain ⟨rfl, -⟩ := same_part (braceTail_congr hbody') (braceTail_congr hbody) heq
    exact ⟨u', rfl, more⟩
  | char _ _ hbrace => exact absurd ⟨rfl, by rw [heq]; rfl⟩ hbrace

end Over

/-- Where no bracket is open, no character of a statement ends it. -/
theorem Statement.not_isEnd {depth : Nat} {body stop rest u v : Text} {c : Char}
    (h : Statement depth body stop rest) (hbody : body = u ++ c :: v)
    (hu : Crosses depth u (c :: (v ++ (stop ++ rest))) 0) : ¬ IsEnd c := by
  induction h generalizing u with
  | atEnd | semicolon | brace => simp at hbody
  | @string quote body₀ value stop rest depth hquote hbody₀ _ ih =>
    cases u with
    | nil =>
      obtain ⟨rfl, -⟩ := List.cons.inj hbody
      exact not_isEnd_of_isQuote hquote
    | cons e u =>
      obtain ⟨rfl, heq⟩ : quote = e ∧ body₀ ++ value = u ++ c :: v := by simpa using hbody
      obtain ⟨u, rfl, more⟩ := hu.over_string (t := value ++ (stop ++ rest)) hquote hbody₀
        (by simpa using congrArg (· ++ (stop ++ rest)) heq.symm)
      exact ih (by simpa using heq) more
  | @comment body₀ value stop rest depth hbody₀ _ ih =>
    cases u with
    | nil =>
      obtain ⟨rfl, -⟩ := List.cons.inj hbody
      decide
    | cons e u =>
      obtain ⟨rfl, heq⟩ : '/' = e ∧ '*' :: (body₀ ++ value) = u ++ c :: v := by simpa using hbody
      obtain ⟨u, rfl, more⟩ := hu.over_comment (t := value ++ (stop ++ rest)) hbody₀
        (by simpa using congrArg (· ++ (stop ++ rest)) heq.symm)
      exact ih (by simpa using heq) more
  | @interpolation body₀ value stop rest depth hbody₀ _ ih =>
    cases u with
    | nil =>
      obtain ⟨rfl, -⟩ := List.cons.inj hbody
      decide
    | cons e u =>
      obtain ⟨rfl, heq⟩ : '#' = e ∧ '{' :: (body₀ ++ value) = u ++ c :: v := by simpa using hbody
      obtain ⟨u, rfl, more⟩ := hu.over_interpolation (t := value ++ (stop ++ rest)) hbody₀
        (by simpa using congrArg (· ++ (stop ++ rest)) heq.symm)
      exact ih (by simpa using heq) more
  | @char d value stop rest depth hquote hcomment hbrace hsemicolon hend _ ih =>
    cases u with
    | nil =>
      obtain ⟨rfl, -⟩ := List.cons.inj hbody
      cases hu
      rintro (rfl | hc)
      · exact hsemicolon ⟨rfl, rfl⟩
      · exact hend ⟨hc, rfl⟩
    | cons e u =>
      obtain ⟨rfl, rfl⟩ : d = e ∧ value = u ++ c :: v := by simpa using hbody
      cases hu with
      | string hquote' => exact absurd hquote' hquote
      | comment => exact absurd ⟨rfl, rfl⟩ hcomment
      | interpolation => exact absurd ⟨rfl, rfl⟩ hbrace
      | char _ _ _ more => exact ih rfl more

theorem Statement.ends_first {body stop rest : Text} (h : Statement 0 body stop rest) :
    Ends body stop rest :=
  ⟨h.crosses, fun _ _ _ hbody hu => h.not_isEnd hbody hu⟩

/-! ### Assignments of a scan -/

/-- A directive that is no plain text has its form where it stands; only an import owns text in
front of it. -/
theorem exists_form {mode : Mode} {first : Nat} {t : Text} {ds ds' : List Directive} {d : Directive}
    (h : (scanText functions mode first t).directives = ds ++ d :: ds') (hplain : d.kind ≠ .plain) :
    ∃ indent c found rest, t = Directive.texts ds ++ (d.raw ++ rest) ∧
      d.raw = indent ++ c :: found.tail ∧ found.kind = d.kind ∧ Form functions c found rest ∧
      ((∀ targets, d.kind ≠ .imports targets) → indent = []) := by
  obtain ⟨u, ps, cur, run, c, found, rest, hr⟩ := exists_reached h hplain
  obtain ⟨_, _, indent, hreports⟩ := hr.reports
  have hbefore : Directive.texts ds ++ indent = u := hreports.before
  refine ⟨indent, c, found, rest, ?_, hreports.raw, hreports.kind.symm, hreports.form, hreports.others⟩
  rw [hr.text, hreports.raw, ← hbefore]
  simp

/-- The parts of an assignment, in front of the text `rest`: `w₁` and `w₂` are the white space
around the colon, and `pieces` and `stop` the flags and white space and the semicolon behind the
value. -/
structure AssignmentParts (name lead value tail : Text) (flags : AssignFlags) (w₁ w₂ : Text)
    (pieces : List Text) (stop rest : Text) : Prop where
  name_ne_nil : name ≠ []
  name_word : ∀ c ∈ name, isWordChar c = true
  lead_eq : lead = '$' :: (name ++ w₁ ++ ':' :: w₂)
  space : ∀ c ∈ w₁ ++ w₂, isAsciiSpace c = true
  value_ne_nil : value ≠ []
  value_head : ∀ c, value.head? = some c → isAsciiSpace c = false
  value_last : ∀ c, value.getLast? = some c → isSpace c = false
  value_flags : ¬ "!default".toList <:+ value ∧ ¬ "!global".toList <:+ value
  tail_eq : tail = pieces.flatten ++ stop
  trailer : ∀ p ∈ pieces, IsTrailer p
  stop_eq : stop = [] ∨ stop = [';']
  isDefault_iff : flags.isDefault = true ↔ "!default".toList <:+: tail
  isGlobal_iff : flags.isGlobal = true ↔ "!global".toList <:+: tail
  ends : Ends (value ++ pieces.flatten) stop rest

theorem Form.assignmentParts {c : Char} {found : Found} {rest : Text} (h : Form functions c found rest)
    {name lead value tail : Text} {flags : AssignFlags}
    (hkind : found.kind = .assign name lead value tail flags) :
    ∃ w₁ w₂ pieces stop, AssignmentParts name lead value tail flags w₁ w₂ pieces stop rest := by
  cases h with
  | imports => cases hkind
  | call _ _ _ _ hcall => exact absurd hkind (callKind?_ne_assign hcall)
  | @assign name space gap body stop rest hname hword hspace hgap hbody hstatement hvalue =>
    obtain ⟨rfl, rfl, rfl, rfl, rfl⟩ := assignment_eq_assign hkind
    obtain ⟨pieces, htext, hpieces, hdefault, hglobal⟩ := splitFlags_pieces body
    have htail : body.drop (splitFlags body).1.length = pieces.flatten :=
      (congrArg (List.drop _) htext).trans List.drop_left
    have hstop : stop = [] ∨ stop = [';'] := hstatement.ends.symm.imp_left And.left
    have hletter {c : Char} (hc : c ≠ ';') : c ∉ stop := by
      rcases hstop with rfl | rfl <;> simp [hc]
    refine ⟨space, gap, pieces, stop, ?_⟩
    rw [htail]
    exact
      { name_ne_nil := hname
        name_word := hword
        lead_eq := rfl
        space := List.forall_mem_append.2 ⟨hspace, hgap⟩
        value_ne_nil := hvalue
        value_head := fun c hc => hbody c (by rw [htext, List.append_assoc, List.head?_append, hc]; rfl)
        value_last := fun c => splitFlags_getLast? body
        value_flags := splitFlags_not_isSuffix body
        tail_eq := rfl
        trailer := hpieces
        stop_eq := hstop
        isDefault_iff := hdefault.trans (isInfix_flatten_iff (by decide)
          (fun p hp => (hpieces p hp).eq_default) (hletter (by decide))).symm
        isGlobal_iff := hglobal.trans (isInfix_flatten_iff (by decide)
          (fun p hp => (hpieces p hp).eq_global) (hletter (by decide))).symm
        ends := by
          rw [← htext]
          exact hstatement.ends_first }

/-- Every assignment that a scan reports has its parts, and lies where it stands in the text. -/
theorem assignment_parts {mode : Mode} {first : Nat} {t : Text} {ds ds' : List Directive} {d : Directive}
    (h : (scanText functions mode first t).directives = ds ++ d :: ds') {name lead value tail : Text}
    {flags : AssignFlags} (hkind : d.kind = .assign name lead value tail flags) :
    ∃ w₁ w₂ pieces stop rest, t = Directive.texts ds ++ (d.raw ++ rest) ∧ d.raw = lead ++ value ++ tail ∧
      AssignmentParts name lead value tail flags w₁ w₂ pieces stop rest := by
  have hplain : d.kind ≠ .plain := by simp [hkind]
  obtain ⟨indent, c, found, rest, ht, hraw, hfound, hform, hindent⟩ := exists_form h hplain
  rw [hindent (by simp [hkind]), List.nil_append] at hraw
  obtain ⟨w₁, w₂, pieces, stop, hparts⟩ := hform.assignmentParts (hfound.trans hkind)
  exact ⟨w₁, w₂, pieces, stop, rest, ht, hraw.trans (hform.assign_text (hfound.trans hkind)), hparts⟩

/-- An assignment with a semicolon in its value, behind which there are two flags. -/
def flagged : Text := "$gap : \"a;b\" !global !default ; p { }".toList

theorem assignment_parts_flagged :
    ∃ w₁ w₂ pieces stop rest, flagged = "$gap : \"a;b\" !global !default ;".toList ++ rest ∧
      AssignmentParts "gap".toList "$gap : ".toList "\"a;b\"".toList " !global !default ;".toList
        ⟨true, true⟩ w₁ w₂ pieces stop rest := by
  have hfirst : (scanText .empty .sheet 1 flagged).directives.head?.map (·.kind) =
      some (.assign "gap".toList "$gap : ".toList "\"a;b\"".toList " !global !default ;".toList
        ⟨true, true⟩) := by decide +kernel
  obtain ⟨d, hd, hkind⟩ := Option.map_eq_some_iff.1 hfirst
  obtain ⟨ds', hds⟩ : ∃ ds', (scanText .empty .sheet 1 flagged).directives = [] ++ d :: ds' :=
    List.head?_eq_some_iff.1 hd
  obtain ⟨w₁, w₂, pieces, stop, rest, ht, hraw, hparts⟩ := assignment_parts hds hkind
  rw [hraw] at ht
  exact ⟨w₁, w₂, pieces, stop, rest, ht, hparts⟩

end Scan

end StylePrep
