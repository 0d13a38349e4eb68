import StylePrep.Proofs.Readers

/-!
# The forms of directives

`Form` lists the ways a directive can be spelled: an import, an assignment or a
call, in front of the text that follows. Recognition succeeds exactly on these
forms, at the places where it looks for them (`recognize_eq_some_iff`). What a
directive is therefore depends on its own text and on the first character behind
it, and on nothing else: neither on the line it is on nor on the rest of the sheet
(`Form.congr`).
-/

namespace StylePrep.Scan

open Text Delimited

variable {functions : FunctionTable}

/-- What a call of a function is, if it is a directive at all. A sprite map is one
only as the value of a variable. -/
def callKind? (functions : FunctionTable) (name body : Text) : Option DirectiveKind :=
  match SpriteFunction.ofName? name with
  | some .spriteMap => none
  | some function => some (.sprite function (Call.splitArgs body.dropLast) none)
  | none =>
    if functions.contains name then some (.custom name (Call.splitArgs body.dropLast)) else none

/-- White space behind an import on its line. -/
def isTrailing (c : Char) : Bool := isBlank c || c == '\r'

/-- The line end that an import takes, in front of the text `rest`. -/
inductive LineEnd : Text → Text → Prop where
  | taken (rest : Text) : LineEnd ['\n'] rest
  | absent {rest : Text} (h : Stops (fun c => isTrailing c || c == '\n') rest) : LineEnd [] rest

/-- The forms of directives: what starts with a character, in front of the text
that follows. -/
inductive Form (functions : FunctionTable) : Char → Found → Text → Prop where
  | imports {items : Targets} {blank lineEnd rest : Text}
      (hhead : (items.spelling.head?.map fun c => isAsciiSpace c || isQuote c).getD false = true)
      (hitems : ItemList items (blank ++ (lineEnd ++ rest))) (hcss : items.isCss = false)
      (hblank : ∀ c ∈ blank, isTrailing c = true) (hend : LineEnd lineEnd rest) :
      Form functions '@'
        ⟨.imports items.names, "import".toList ++ items.spelling ++ blank ++ lineEnd, true⟩ rest
  | assign {name space gap body stop rest : Text} (hname : name ≠ [])
      (hword : ∀ c ∈ name, isWordChar c = true) (hspace : ∀ c ∈ space, isAsciiSpace c = true)
      (hgap : ∀ c ∈ gap, isAsciiSpace c = true)
      (hbody : Stops isAsciiSpace (body ++ (stop ++ rest))) (hstatement : Statement 0 body stop rest)
      (hvalue : (splitFlags body).1 ≠ []) :
      Form functions '$'
        ⟨assignment name ('$' :: (name ++ space ++ ':' :: gap)) (splitFlags body).1
            (body.drop (splitFlags body).1.length ++ stop) (splitFlags body).2,
          name ++ space ++ ':' :: gap ++ body ++ stop, true⟩ rest
  | call {c : Char} {word body : Text} {kind : DirectiveKind} (rest : Text)
      (hc : isWordStart c = true) (hword : ∀ d ∈ word, isWordChar d = true)
      (hbody : parenTail body = some body)
      (hkind : callKind? functions (c :: word) body = some kind) :
      Form functions c ⟨kind, word ++ '(' :: body, false⟩ rest

theorem after?_append (lead t : Text) : after? lead (lead ++ t) = some t :=
  after?_eq_some_iff.2 rfl

/-- White space is no part of a word. -/
theorem isWordChar_of_isAsciiSpace {c : Char} (h : isAsciiSpace c = true) : isWordChar c = false := by
  simp only [isAsciiSpace, Bool.or_eq_true, beq_iff_eq] at h
  rcases h with (((rfl | rfl) | rfl) | rfl) | rfl <;> decide

/-! ### Imports -/

theorem head?_append_of_ne_nil {s : Text} (h : s ≠ []) (t : Text) : (s ++ t).head? = s.head? := by
  cases s with
  | nil => exact absurd rfl h
  | cons c s => rfl

theorem ItemList.spelling_ne_nil {items : Targets} {rest : Text} (h : ItemList items rest) :
    items.spelling ≠ [] := by
  have hitem {target : Target} (h : Item target) : target.spelling ≠ [] := by
    cases h <;> simp
  cases h <;> simp [*]

/-- The white space behind an import and its line end, read back. -/
theorem LineEnd.take {blank lineEnd rest : Text} (h : LineEnd lineEnd rest)
    (hblank : ∀ c ∈ blank, isTrailing c = true) :
    (blank ++ (lineEnd ++ rest)).takeWhile isTrailing = blank ∧
      ((lineEnd ++ rest).take 1).filter (· == '\n') = lineEnd := by
  cases h with
  | taken => exact ⟨takeWhile_append_of_stops hblank (stops_cons rfl _), by simp⟩
  | absent hrest =>
    refine ⟨takeWhile_append_of_stops hblank ?_, ?_⟩
    · rintro c hc
      exact (Bool.or_eq_false_iff.1 (hrest c hc)).1
    · cases rest with
      | nil => rfl
      | cons c rest =>
        have := (Bool.or_eq_false_iff.1 (hrest c rfl)).2
        simp [this]

theorem exists_lineEnd (t : Text) :
    ∃ blank lineEnd rest, t = blank ++ (lineEnd ++ rest) ∧ (∀ c ∈ blank, isTrailing c = true) ∧
      LineEnd lineEnd rest := by
  have hsplit := (List.takeWhile_append_dropWhile (p := isTrailing) (l := t)).symm
  have hblank : ∀ c ∈ t.takeWhile isTrailing, isTrailing c = true := fun c => of_mem_takeWhile
  have hstop := stops_dropWhile isTrailing t
  cases hrest : t.dropWhile isTrailing with
  | nil =>
    refine ⟨t.takeWhile isTrailing, [], [], by rw [hrest] at hsplit; exact hsplit, hblank, .absent ?_⟩
    intro c hc
    cases hc
  | cons c rest =>
    rw [hrest] at hsplit hstop
    by_cases hc : c = '\n'
    · subst hc
      exact ⟨_, ['\n'], rest, hsplit, hblank, .taken rest⟩
    · refine ⟨_, [], c :: rest, hsplit, hblank, .absent (stops_cons ?_ _)⟩
      simp [hstop c rfl, hc]

theorem form_of_readImport {line : Nat} {t : Text} {found : Found}
    (h : readImport line t = .ok (some found)) :
    ∃ rest, t = found.tail ++ rest ∧ Form functions '@' found rest := by
  unfold readImport at h
  split at h
  case h_1 => cases h
  case h_2 t' ht' =>
    split at h
    case isFalse => cases h
    case isTrue hhead =>
      obtain ⟨items, hitems, h⟩ := exists_of_bind_eq_ok h
      obtain ⟨after, rfl, hlist⟩ := readTargets_eq_ok_iff.1 hitems
      split at h
      case isTrue => cases h
      case isFalse hcss =>
        obtain ⟨blank, lineEnd, rest, rfl, hblank, hend⟩ := exists_lineEnd after
        obtain ⟨htake, hfilter⟩ := hend.take hblank
        have htake' : (blank ++ (lineEnd ++ rest)).takeWhile (fun c => isBlank c || c == '\r') =
            blank := htake
        simp only [List.drop_left, htake', hfilter, pure, Except.pure] at h
        cases h
        refine ⟨rest, ?_, .imports ?_ hlist (by simpa using hcss) hblank hend⟩
        · rw [after?_eq_some_iff.1 ht']
          simp
        · rwa [head?_append_of_ne_nil hlist.spelling_ne_nil] at hhead

theorem readImport_of_form {found : Found} {rest : Text} (h : Form functions '@' found rest)
    (line : Nat) : readImport line (found.tail ++ rest) = .ok (some found) := by
  cases h with
  | @imports items blank lineEnd rest hhead hitems hcss hblank hend =>
    have ht : "import".toList ++ items.spelling ++ blank ++ lineEnd ++ rest =
        "import".toList ++ (items.spelling ++ (blank ++ (lineEnd ++ rest))) := by simp
    have hhead' : ((items.spelling ++ (blank ++ (lineEnd ++ rest))).head?.map
        fun c => isAsciiSpace c || isQuote c).getD false = true := by
      rwa [head?_append_of_ne_nil hitems.spelling_ne_nil]
    obtain ⟨htake, hfilter⟩ := hend.take hblank
    have htake' : (blank ++ (lineEnd ++ rest)).takeWhile (fun c => isBlank c || c == '\r') =
        blank := htake
    simp only [readImport, ht, after?_append, hhead', if_true, hitems.readTargets, hcss,
      List.drop_left, htake', hfilter, bind, Except.bind, Bool.false_eq_true, if_false]
    rfl
  | call _ hc => exact absurd hc (by decide)

/-! ### Assignments -/

theorem form_of_readAssignment {line : Nat} {t : Text} {found : Found}
    (h : readAssignment line t = .ok (some found)) :
    ∃ rest, t = found.tail ++ rest ∧ Form functions '$' found rest := by
  unfold readAssignment at h
  simp only at h
  split at h
  case isTrue => cases h
  case isFalse hname =>
    split at h
    case h_2 => cases h
    case h_1 after hafter =>
      obtain ⟨⟨body, stop⟩, hbody, h⟩ := exists_of_bind_eq_ok h
      obtain ⟨rest, hrest, hstatement⟩ := readStatement_eq_ok_iff.1 hbody
      simp only at h
      split at h
      case isTrue => cases h
      case isFalse hvalue =>
        cases h
        have hsplit : t = t.takeWhile isWordChar ++ ((t.dropWhile isWordChar).takeWhile isAsciiSpace ++
            ':' :: (after.takeWhile isAsciiSpace ++ (body ++ (stop ++ rest)))) := by
          rw [← hrest, List.takeWhile_append_dropWhile, ← hafter, List.takeWhile_append_dropWhile,
            List.takeWhile_append_dropWhile]
        refine ⟨rest, ?_, .assign hname (fun c => of_mem_takeWhile) (fun c => of_mem_takeWhile)
          (fun c => of_mem_takeWhile) (hrest ▸ stops_dropWhile isAsciiSpace after) hstatement hvalue⟩
        simpa using hsplit

theorem readAssignment_of_form {found : Found} {rest : Text} (h : Form functions '$' found rest)
    (line : Nat) : readAssignment line (found.tail ++ rest) = .ok (some found) := by
  cases h with
  | @assign name space gap body stop rest hname hword hspace hgap hbody hstatement hvalue =>
    have ht : name ++ space ++ ':' :: gap ++ body ++ stop ++ rest =
        name ++ (space ++ ':' :: (gap ++ (body ++ (stop ++ rest)))) := by simp
    have hcolon : Stops isAsciiSpace (':' :: (gap ++ (body ++ (stop ++ rest)))) :=
      stops_cons rfl _
    have hafter : Stops isWordChar (space ++ ':' :: (gap ++ (body ++ (stop ++ rest)))) := by
      cases space with
      | nil => exact stops_cons rfl _
      | cons d space =>
        exact stops_cons (isWordChar_of_isAsciiSpace (hspace d List.mem_cons_self)) _
    have hname₁ := takeWhile_append_of_stops hword hafter
    have hname₂ := dropWhile_append_of_stops hword hafter
    have hspace₁ := takeWhile_append_of_stops hspace hcolon
    have hspace₂ := dropWhile_append_of_stops hspace hcolon
    have hgap₁ := takeWhile_append_of_stops hgap hbody
    have hgap₂ := dropWhile_append_of_stops hgap hbody
    simp only [readAssignment, ht, hname₁, hname₂, hspace₁, hspace₂, hgap₁, hgap₂, hname, if_false,
      hstatement.readStatement, hvalue, bind, Except.bind]
    rfl
  | call _ hc => exact absurd hc (by decide)

/-! ### Calls -/

theorem form_of_readCall {line : Nat} {c : Char} {t : Text} {found : Found}
    (hc : isWordStart c = true) (h : readCall functions line c t = .ok (some found)) :
    ∃ rest, t = found.tail ++ rest ∧ Form functions c found rest := by
  unfold readCall at h
  simp only at h
  split at h
  case h_2 => cases h
  case h_1 after hafter =>
    split at h
    case isTrue => cases h
    case isFalse hknown =>
      split at h
      case h_1 => cases h
      case h_2 body hbody =>
        obtain ⟨rest, rfl⟩ := bracketTail_isPrefix hbody
        have ht : t = t.takeWhile isWordChar ++ '(' :: (body ++ rest) := by
          rw [← hafter, List.takeWhile_append_dropWhile]
        have hself : parenTail body = some body := by simpa using parenTail_congr hbody []
        have hword : ∀ d ∈ t.takeWhile isWordChar, isWordChar d = true := fun d => of_mem_takeWhile
        split at h
        case h_1 => cases h
        case h_2 function hmap hsprite =>
          cases h
          refine ⟨rest, by simpa using ht, .call rest hc hword hself ?_⟩
          simp [callKind?, hsprite]
        case h_3 hnone =>
          cases h
          refine ⟨rest, by simpa using ht, .call rest hc hword hself ?_⟩
          have hcontains : functions.contains (c :: t.takeWhile isWordChar) = true := by
            simpa [hnone] using hknown
          simp [callKind?, hnone, hcontains]

theorem readCall_of_form {c : Char} {found : Found} {rest : Text} (hc : isWordStart c = true)
    (h : Form functions c found rest) (line : Nat) :
    readCall functions line c (found.tail ++ rest) = .ok (some found) := by
  cases h with
  | imports => exact absurd hc (by decide)
  | assign => exact absurd hc (by decide)
  | @call c word body kind rest _ hword hbody hkind =>
    have ht : word ++ '(' :: body ++ rest = word ++ '(' :: (body ++ rest) := by simp
    have hparen : Stops isWordChar ('(' :: (body ++ rest)) := stops_cons rfl _
    simp only [readCall, ht, takeWhile_append_of_stops hword hparen,
      dropWhile_append_of_stops hword hparen, parenTail_congr hbody rest]
    unfold callKind? at hkind
    split at hkind
    case h_1 => cases hkind
    case h_2 function hmap hsprite =>
      cases hkind
      simp [hsprite]
    case h_3 hnone =>
      split at hkind
      case isTrue hcontains =>
        cases hkind
        simp [hnone, hcontains]
      case isFalse => cases hkind

/-! ### Recognition -/

/-- Where a directive that starts with a character is looked for. -/
def Admits (cur : Cursor) (c : Char) : Prop :=
  if c = '@' ∨ c = '$' then cur.context.atStatement = true else cur.followsWord = false

/-- A directive is recognized exactly if it has one of the forms and stands where
it is looked for. -/
theorem recognize_eq_some_iff {cur : Cursor} {c : Char} {t : Text} {found : Found} :
    recognize functions cur c t = .ok (some found) ↔
      Admits cur c ∧ ∃ rest, t = found.tail ++ rest ∧ Form functions c found rest := by
  unfold recognize Admits
  by_cases hat : c = '@'
  · subst hat
    cases hs : cur.context.atStatement with
    | false => simp [isWordStart]
    | true =>
      simp only [and_self, if_true, true_or, true_and]
      constructor
      · exact form_of_readImport
      · rintro ⟨rest, rfl, h⟩
        exact readImport_of_form h _
  · by_cases hdollar : c = '$'
    · subst hdollar
      cases hs : cur.context.atStatement with
      | false => simp [isWordStart]
      | true =>
        simp only [and_self, if_true, or_true, true_and]
        constructor
        · exact form_of_readAssignment
        · rintro ⟨rest, rfl, h⟩
          exact readAssignment_of_form h _
    · simp only [hat, hdollar, false_and, or_self, if_false]
      constructor
      · intro h
        split at h
        case isTrue hc => exact ⟨by simpa using hc.2, form_of_readCall hc.1 h⟩
        case isFalse => cases h
      · rintro ⟨hword, rest, rfl, h⟩
        have hc : isWordStart c = true := by
          cases h with
          | imports => exact absurd rfl hat
          | assign => exact absurd rfl hdollar
          | call _ hc => exact hc
        rw [if_pos ⟨hc, by simpa using hword⟩]
        exact readCall_of_form hc h _

/-! ### What follows a directive -/

theorem stops_congr {p : Char → Bool} {rest rest' : Text} (hhead : rest'.head? = rest.head?)
    (h : Stops p rest) : Stops p rest' := by
  intro c hc
  exact h c (hhead ▸ hc)

theorem head?_append_congr {rest rest' : Text} (hhead : rest'.head? = rest.head?) (s : Text) :
    (s ++ rest').head? = (s ++ rest).head? := by
  cases s with
  | nil => exact hhead
  | cons c s => rfl

theorem ItemList.congr {items : Targets} {rest rest' : Text} (h : ItemList items rest)
    (hhead : rest'.head? = rest.head?) : ItemList items rest' := by
  induction h with
  | comma hspace hitem hblank _ ih => exact .comma hspace hitem hblank (ih hhead)
  | semicolon rest hspace hitem hblank => exact .semicolon rest' hspace hitem hblank
  | @bare space blank rest target hspace hitem hblank hrest =>
    have hmedia : isMedia rest = isMedia rest' := by rw [isMedia, isMedia, hhead]
    rw [hmedia]
    exact .bare hspace hitem hblank (stops_congr hhead hrest)

theorem LineEnd.congr {lineEnd rest rest' : Text} (h : LineEnd lineEnd rest)
    (hhead : rest'.head? = rest.head?) : LineEnd lineEnd rest' := by
  cases h with
  | taken => exact .taken rest'
  | absent h => exact .absent (stops_congr hhead h)

theorem Statement.congr {depth : Nat} {value stop rest rest' : Text}
    (h : Statement depth value stop rest) (hhead : rest'.head? = rest.head?) :
    Statement depth value stop rest' := by
  induction h with
  | atEnd depth =>
    obtain rfl : rest' = [] := List.head?_eq_none_iff.1 hhead
    exact .atEnd depth
  | semicolon rest => exact .semicolon rest'
  | brace rest hc =>
    obtain ⟨more, rfl⟩ := List.head?_eq_some_iff.1 hhead
    exact .brace more hc
  | string hquote hbody _ ih => exact .string hquote hbody (ih hhead)
  | comment hbody _ ih => exact .comment hbody (ih hhead)
  | interpolation hbody _ ih => exact .interpolation hbody (ih hhead)
  | @char c value stop rest depth hquote hcomment hbrace hsemicolon hend _ ih =>
    have hnext : (value ++ (stop ++ rest')).head? = (value ++ (stop ++ rest)).head? :=
      head?_append_congr (head?_append_congr hhead stop) value
    exact .char hquote (hnext ▸ hcomment) (hnext ▸ hbrace) hsemicolon hend (ih hhead)

/-- Only the first character behind a directive matters to it. -/
theorem Form.congr {c : Char} {found : Found} {rest rest' : Text} (h : Form functions c found rest)
    (hhead : rest'.head? = rest.head?) : Form functions c found rest' := by
  cases h with
  | imports hstart hitems hcss hblank hend =>
    exact .imports hstart (hitems.congr (head?_append_congr (head?_append_congr hhead _) _)) hcss
      hblank (hend.congr hhead)
  | @assign name space gap body stop _ hname hword hspace hgap hbody hstatement hvalue =>
    have hnext := head?_append_congr (head?_append_congr hhead stop) body
    exact .assign hname hword hspace hgap (stops_congr hnext hbody) (hstatement.congr hhead) hvalue
  | call _ hc hword hbody hkind => exact .call rest' hc hword hbody hkind

/-- A directive that is recognized is no plain text. -/
theorem Form.kind_ne_plain {c : Char} {found : Found} {rest : Text}
    (h : Form functions c found rest) : found.kind ≠ .plain := by
  cases h with
  | imports => simp
  | assign =>
    simp only [assignment]
    split
    · split <;> simp
    · simp
  | call _ _ _ _ hkind =>
    rintro rfl
    unfold callKind? at hkind
    split at hkind
    · cases hkind
    · cases hkind
    · split at hkind <;> cases hkind

end StylePrep.Scan
