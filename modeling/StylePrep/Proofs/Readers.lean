import Mathlib.Data.List.Basic
import StylePrep.Scan

/-!
# What the readers take

Every reader of the scanner takes a front part of the text it is given. For the
delimited ones that part alone decides: it ends in its closing delimiter, so what
follows cannot change it (`stringTail_congr` and the like).

An import and the statement of an assignment look one character beyond what they
take. `ItemList` and `Statement` give their grammar with the text that follows as
an argument of its own, so that it is visible how far a reader looks. They do not
speak of lines: a line number reaches a reader only for the sake of its errors.
-/

namespace StylePrep

namespace Delimited

/-- What follows a string does not matter to it. -/
theorem stringTail_congr {quote : Char} {t body : Text} (h : stringTail quote t = some body)
    (rest : Text) : stringTail quote (body ++ rest) = some body := by
  fun_induction stringTail quote t generalizing body with
  | case1 => simp at h
  | case2 => simp at h
  | case3 c t ih =>
    obtain ⟨tail, htail, rfl⟩ := Option.map_eq_some_iff.1 h
    simp [stringTail, ih htail]
  | case4 => simp at h
  | case5 =>
    obtain rfl := Option.some.inj h
    simp_all [stringTail]
  | case6 c t _ _ _ ih =>
    obtain ⟨tail, htail, rfl⟩ := Option.map_eq_some_iff.1 h
    simp_all [stringTail]

theorem commentTail_ne_nil {t body : Text} (h : commentTail t = some body) : body ≠ [] := by
  rintro rfl
  fun_induction commentTail t <;> simp_all

theorem bracketTail_ne_nil {opening closing : Char} {depth : Nat} {t body : Text}
    (h : bracketTail opening closing depth t = some body) : body ≠ [] := by
  rintro rfl
  fun_induction bracketTail opening closing depth t <;> simp_all

/-- A front part that is not empty starts as the whole does. -/
theorem head?_append_of_isPrefix {part t : Text} (h : part <+: t) (hne : part ≠ []) (rest : Text) :
    (part ++ rest).head? = t.head? := by
  obtain ⟨u, rfl⟩ := h
  cases part with
  | nil => exact absurd rfl hne
  | cons c part => rfl

/-- What follows a comment does not matter to it. -/
theorem commentTail_congr {t body : Text} (h : commentTail t = some body) (rest : Text) :
    commentTail (body ++ rest) = some body := by
  fun_induction commentTail t generalizing body with
  | case1 => simp at h
  | case2 c t hc =>
    obtain rfl := Option.some.inj h
    simp [commentTail]
  | case3 c t hc ih =>
    obtain ⟨tail, htail, rfl⟩ := Option.map_eq_some_iff.1 h
    have hhead := head?_append_of_isPrefix (commentTail_isPrefix htail) (commentTail_ne_nil htail)
      rest
    simp [commentTail, hhead, hc, ih htail]

/-- What follows a bracketed text does not matter to it. -/
theorem bracketTail_congr {opening closing : Char} {depth : Nat} {t body : Text}
    (hclosing : closing ≠ '/') (h : bracketTail opening closing depth t = some body) (rest : Text) :
    bracketTail opening closing depth (body ++ rest) = some body := by
  fun_induction bracketTail opening closing depth t generalizing body with
  | case1 => simp at h
  | case2 => simp at h
  | case3 depth c t hq inner hinner ih =>
    obtain ⟨tail, htail, rfl⟩ := Option.map_eq_some_iff.1 h
    have hstring := stringTail_congr hinner (tail ++ rest)
    simp [bracketTail, hq, hstring, ih htail]
  | case4 => simp at h
  | case5 depth c t hq hc inner hinner ih =>
    obtain ⟨tail, htail, rfl⟩ := Option.map_eq_some_iff.1 h
    have hcomment := commentTail_congr hinner (tail ++ rest)
    simp [bracketTail, isQuote, hcomment, ih htail]
  | case6 depth t hq hc ih =>
    obtain ⟨tail, htail, rfl⟩ := Option.map_eq_some_iff.1 h
    have hhead := head?_append_of_isPrefix (bracketTail_isPrefix htail) (bracketTail_ne_nil htail)
      rest
    simp [bracketTail, hhead, hq, hc, ih htail]
  | case7 depth t hd hq hc ho =>
    obtain rfl := Option.some.inj h
    simp [bracketTail, hq, ho, hd, hclosing]
  | case8 depth t hq hc ho hd ih =>
    obtain ⟨tail, htail, rfl⟩ := Option.map_eq_some_iff.1 h
    have hhead := head?_append_of_isPrefix (bracketTail_isPrefix htail) (bracketTail_ne_nil htail)
      rest
    simp [bracketTail, hhead, hq, hc, ho, hd, ih htail]
  | case9 depth c t hq hc ho hcl ih =>
    obtain ⟨tail, htail, rfl⟩ := Option.map_eq_some_iff.1 h
    have hhead := head?_append_of_isPrefix (bracketTail_isPrefix htail) (bracketTail_ne_nil htail)
      rest
    simp [bracketTail, hhead, hq, hc, ho, hcl, ih htail]

theorem parenTail_congr {t body : Text} (h : parenTail t = some body) (rest : Text) :
    parenTail (body ++ rest) = some body := bracketTail_congr (by decide) h rest

theorem braceTail_congr {t body : Text} (h : braceTail t = some body) (rest : Text) :
    braceTail (body ++ rest) = some body := bracketTail_congr (by decide) h rest

end Delimited

namespace Text

variable {p : Char → Bool} {s t : Text}

/-- No text, or one whose first character is not in a class. -/
def Stops (p : Char → Bool) (t : Text) : Prop := ∀ c, t.head? = some c → p c = false

instance (p : Char → Bool) (t : Text) : Decidable (Stops p t) :=
  decidable_of_iff (t.head?.all (!p ·) = true) (by cases t <;> simp [Stops])

theorem stops_cons {c : Char} (hc : p c = false) (t : Text) : Stops p (c :: t) := by
  rintro d hd
  obtain rfl : c = d := by simpa using hd
  exact hc

theorem takeWhile_append_of_stops (hs : ∀ c ∈ s, p c = true) (ht : Stops p t) :
    (s ++ t).takeWhile p = s := by
  rw [List.takeWhile_append_of_pos hs]
  cases t with
  | nil => simp
  | cons c t => simp [ht c rfl]

theorem dropWhile_append_of_stops (hs : ∀ c ∈ s, p c = true) (ht : Stops p t) :
    (s ++ t).dropWhile p = t := by
  rw [List.dropWhile_append_of_pos hs]
  cases t with
  | nil => simp
  | cons c t => simp [ht c rfl]

theorem stops_dropWhile (p : Char → Bool) (t : Text) : Stops p (t.dropWhile p) := by
  intro c h
  have := List.head?_dropWhile_not p t
  rw [h] at this
  simpa using this

theorem of_mem_takeWhile {c : Char} (h : c ∈ t.takeWhile p) : p c = true := by
  induction t with
  | nil => simp at h
  | cons d t ih =>
    rw [List.takeWhile_cons] at h
    split at h
    case isTrue hd =>
      rcases List.mem_cons.1 h with rfl | h
      · exact hd
      · exact ih h
    case isFalse => simp at h

end Text

namespace Scan

open Text Delimited

/-- A sequence that succeeds has parts that do. -/
theorem exists_of_bind_eq_ok {α β : Type} {x : Except ScanError α} {f : α → Except ScanError β}
    {b : β} (h : x >>= f = .ok b) : ∃ a, x = .ok a ∧ f a = .ok b := by
  cases x with
  | error e => cases h
  | ok a => exact ⟨a, rfl, h⟩

inductive Item : Target → Prop where
  | quoted {quote : Char} {body : Text} (hquote : isQuote quote = true)
      (hbody : stringTail quote body = some body) :
      Item ⟨quote :: body, some body.dropLast, isCssTarget body.dropLast⟩
  | url {body : Text} (hbody : parenTail body = some body) :
      Item ⟨"url(".toList ++ body, none, true⟩

theorem Item.stops_space {target : Target} (h : Item target) (rest : Text) :
    Stops isAsciiSpace (target.spelling ++ rest) := by
  cases h with
  | quoted hquote hbody =>
    refine stops_cons ?_ _
    simp only [isQuote, Bool.or_eq_true, beq_iff_eq] at hquote
    rcases hquote with rfl | rfl <;> decide
  | url hbody => exact stops_cons (by decide) _

/-- Reading an item takes a complete one from the front of the text. -/
theorem readTarget_eq_ok_iff {first line : Nat} {t : Text} {target : Target} :
    readTarget first line t = .ok target ↔ Item target ∧ target.spelling <+: t := by
  constructor
  · intro h
    unfold readTarget at h
    split at h
    case h_1 => simp at h
    case h_2 c rest =>
      split at h
      case isTrue hquote =>
        split at h
        case h_1 => simp at h
        case h_2 body hbody =>
          obtain rfl := Except.ok.inj h
          refine ⟨.quoted hquote ?_, ?_⟩
          · simpa using stringTail_congr hbody []
          · simpa using stringTail_isPrefix hbody
      case isFalse =>
        split at h
        case h_1 => simp at h
        case h_2 inner hinner =>
          split at h
          case h_1 => simp at h
          case h_2 body hbody =>
            obtain rfl := Except.ok.inj h
            refine ⟨.url ?_, ?_⟩
            · simpa using parenTail_congr hbody []
            · rw [after?_eq_some_iff.1 hinner]
              exact (List.prefix_append_right_inj _).2 (bracketTail_isPrefix hbody)
  · rintro ⟨hitem, rest, rfl⟩
    cases hitem with
    | quoted hquote hbody =>
      have := stringTail_congr hbody rest
      simp [readTarget, hquote, this]
    | @url body hbody =>
      have hafter : after? "url(".toList ('u' :: 'r' :: 'l' :: '(' :: (body ++ rest)) =
          some (body ++ rest) := after?_eq_some_iff.2 rfl
      have := parenTail_congr hbody rest
      change readTarget first line ('u' :: 'r' :: 'l' :: '(' :: (body ++ rest)) = _
      simp only [readTarget, hafter, this]
      rfl

/-- Whether what follows the items of an import is a media query. -/
def isMedia (rest : Text) : Bool :=
  match rest.head? with
  | some c => !(['}', '\n', '\r'].contains c)
  | none => false

/-- The items of an import, in front of the text `rest`. Only the last form looks
at what follows. -/
inductive ItemList : Targets → Text → Prop where
  | comma {space blank rest : Text} {target : Target} {others : Targets}
      (hspace : ∀ c ∈ space, isAsciiSpace c = true) (hitem : Item target)
      (hblank : ∀ c ∈ blank, isBlank c = true) (more : ItemList others rest) :
      ItemList ⟨space ++ target.spelling ++ blank ++ ',' :: others.spelling,
        target.name?.toList ++ others.names, target.isCss || others.isCss⟩ rest
  | semicolon {space blank : Text} (rest : Text) {target : Target}
      (hspace : ∀ c ∈ space, isAsciiSpace c = true) (hitem : Item target)
      (hblank : ∀ c ∈ blank, isBlank c = true) :
      ItemList ⟨space ++ target.spelling ++ blank ++ [';'], target.name?.toList, target.isCss⟩ rest
  | bare {space blank rest : Text} {target : Target}
      (hspace : ∀ c ∈ space, isAsciiSpace c = true) (hitem : Item target)
      (hblank : ∀ c ∈ blank, isBlank c = true)
      (hrest : Stops (fun c => isBlank c || c == ',' || c == ';') rest) :
      ItemList ⟨space ++ target.spelling ++ blank, target.name?.toList,
        target.isCss || isMedia rest⟩ rest

/-- How reading the items of an import goes on behind an item and the blanks after
it, all of which is spelled `spelling`. -/
def readFurther (first line : Nat) (spelling : Text) (target : Target) :
    Text → Except ScanError Targets
  | ',' :: more => do
    let others ← readTargets first line more
    pure ⟨spelling ++ ',' :: others.spelling, target.name?.toList ++ others.names,
      target.isCss || others.isCss⟩
  | ';' :: _ => pure ⟨spelling ++ [';'], target.name?.toList, target.isCss⟩
  | rest => pure ⟨spelling, target.name?.toList, target.isCss || isMedia rest⟩

/-- One round of reading the items of an import. -/
theorem readTargets_append (first line : Nat) {space blank next : Text} {target : Target}
    (hspace : ∀ c ∈ space, isAsciiSpace c = true) (hitem : Item target)
    (hblank : ∀ c ∈ blank, isBlank c = true) (hnext : Stops isBlank next) :
    readTargets first line (space ++ target.spelling ++ blank ++ next) =
      readFurther first (line + newlines space + newlines target.spelling)
        (space ++ target.spelling ++ blank) target next := by
  have hstop := hitem.stops_space (blank ++ next)
  have htake : (space ++ target.spelling ++ blank ++ next).takeWhile isAsciiSpace = space := by
    simpa using takeWhile_append_of_stops hspace hstop
  have hdrop : (space ++ target.spelling ++ blank ++ next).dropWhile isAsciiSpace =
      target.spelling ++ (blank ++ next) := by
    simpa using dropWhile_append_of_stops hspace hstop
  have hread (line : Nat) : readTarget first line (target.spelling ++ (blank ++ next)) =
      .ok target := readTarget_eq_ok_iff.2 ⟨hitem, List.prefix_append _ _⟩
  have hrest : (space ++ target.spelling ++ blank ++ next).drop
      (space.length + target.spelling.length) = blank ++ next := by
    rw [List.append_assoc, List.drop_left' (by simp)]
  have htakeBlank := takeWhile_append_of_stops hblank hnext
  have hdropBlank : ((space ++ target.spelling ++ blank ++ next).drop
      (((space ++ target.spelling ++ blank ++ next).takeWhile isAsciiSpace).length +
        target.spelling.length)).dropWhile isBlank = next := by
    rw [htake, hrest, dropWhile_append_of_stops hblank hnext]
  rw [readTargets]
  simp only [htake, hdrop, hread, hrest, htakeBlank, bind, Except.bind]
  split
  case h_1 more hmore =>
    obtain rfl := hdropBlank.symm.trans hmore
    rfl
  case h_2 tail htail =>
    obtain rfl := hdropBlank.symm.trans htail
    rfl
  case h_3 hnil =>
    obtain rfl := hdropBlank.symm.trans hnil
    simp [readFurther, isMedia]
  case h_4 c tail hcomma hsemicolon hcons =>
    obtain rfl := hdropBlank.symm.trans hcons
    rw [readFurther]
    · simp [isMedia]
    · simpa using hcomma
    · simpa using hsemicolon

/-- Behind its first item, reading the items of an import takes the blanks and goes on. -/
theorem readTargets_of_readTarget {first line : Nat} {t : Text} {target : Target}
    (h : readTarget first (line + newlines (t.takeWhile isAsciiSpace)) (t.dropWhile isAsciiSpace) =
      .ok target) :
    ∃ space blank next, t = space ++ target.spelling ++ blank ++ next ∧
      (∀ c ∈ space, isAsciiSpace c = true) ∧ Item target ∧ (∀ c ∈ blank, isBlank c = true) ∧
      Stops isBlank next ∧ readTargets first line t =
        readFurther first (line + newlines space + newlines target.spelling)
          (space ++ target.spelling ++ blank) target next := by
  obtain ⟨hitem, after, hafter⟩ := readTarget_eq_ok_iff.1 h
  have ht : t = t.takeWhile isAsciiSpace ++ target.spelling ++ after.takeWhile isBlank ++
      after.dropWhile isBlank := by
    rw [List.append_assoc, List.takeWhile_append_dropWhile, List.append_assoc, hafter,
      List.takeWhile_append_dropWhile]
  have hspace : ∀ c ∈ t.takeWhile isAsciiSpace, isAsciiSpace c = true := fun c => of_mem_takeWhile
  have hblank : ∀ c ∈ after.takeWhile isBlank, isBlank c = true := fun c => of_mem_takeWhile
  have hnext := stops_dropWhile isBlank after
  refine ⟨_, _, _, ht, hspace, hitem, hblank, hnext, ?_⟩
  rw [← readTargets_append first line hspace hitem hblank hnext, ← ht]

theorem itemList_of_readTargets {first line : Nat} {t : Text} {items : Targets}
    (h : readTargets first line t = .ok items) :
    ∃ rest, t = items.spelling ++ rest ∧ ItemList items rest := by
  induction ht : t.length using Nat.strongRecOn generalizing line t items with
  | _ n ih =>
    subst ht
    cases htarget : readTarget first (line + newlines (t.takeWhile isAsciiSpace))
        (t.dropWhile isAsciiSpace) with
    | error e =>
      rw [readTargets] at h
      simp [htarget, bind, Except.bind] at h
    | ok target =>
      obtain ⟨space, blank, next, ht, hspace, hitem, hblank, hnext, hround⟩ :=
        readTargets_of_readTarget htarget
      rw [h, readFurther.eq_def] at hround
      split at hround
      case h_1 more =>
        cases hothers : readTargets first (line + newlines space + newlines target.spelling) more with
        | error e => simp [hothers, bind, Except.bind] at hround
        | ok others =>
          rw [hothers] at hround
          obtain rfl := Except.ok.inj hround
          have hlt : more.length < t.length := by
            rw [ht]
            simp
            omega
          obtain ⟨rest, hrest, hlist⟩ := ih _ hlt hothers rfl
          refine ⟨rest, ?_, .comma hspace hitem hblank hlist⟩
          rw [ht, hrest]
          simp
      case h_2 tail =>
        obtain rfl := Except.ok.inj hround
        exact ⟨tail, by simp [ht], .semicolon tail hspace hitem hblank⟩
      case h_3 hcomma hsemicolon =>
        obtain rfl := Except.ok.inj hround
        refine ⟨next, ht, .bare hspace hitem hblank ?_⟩
        intro c hc
        obtain ⟨tail, htail⟩ := List.head?_eq_some_iff.1 hc
        have hblankc := hnext c hc
        have h₁ : c ≠ ',' := fun h => hcomma tail (h ▸ htail)
        have h₂ : c ≠ ';' := fun h => hsemicolon tail (h ▸ htail)
        simp [hblankc, h₁, h₂]

theorem ItemList.readTargets {items : Targets} {rest : Text} (h : ItemList items rest)
    (first line : Nat) : readTargets first line (items.spelling ++ rest) = .ok items := by
  induction h generalizing line with
  | @comma space blank rest target others hspace hitem hblank _ ih =>
    have hnext : Stops isBlank (',' :: (others.spelling ++ rest)) := stops_cons rfl _
    have hround := readTargets_append first line hspace hitem hblank hnext
    rw [readFurther, ih] at hround
    simpa using hround
  | @semicolon space blank rest target hspace hitem hblank =>
    have hnext : Stops isBlank (';' :: rest) := stops_cons rfl _
    have hround := readTargets_append first line hspace hitem hblank hnext
    simpa [readFurther, pure, Except.pure] using hround
  | @bare space blank rest target hspace hitem hblank hrest =>
    have hnext : Stops isBlank rest := by
      intro c hc
      have := hrest c hc
      simp only [Bool.or_eq_false_iff] at this
      exact this.1.1
    rw [readTargets_append first line hspace hitem hblank hnext, readFurther]
    · rfl
    · rintro more rfl
      simpa using hrest ',' rfl
    · rintro more rfl
      simpa using hrest ';' rfl

/-- Reading the items of an import succeeds exactly on what the grammar allows. -/
theorem readTargets_eq_ok_iff {first line : Nat} {t : Text} {items : Targets} :
    readTargets first line t = .ok items ↔ ∃ rest, t = items.spelling ++ rest ∧ ItemList items rest := by
  constructor
  · exact itemList_of_readTargets
  · rintro ⟨rest, rfl, h⟩
    exact h.readTargets first line

/-! ### Statements -/

/-- The number of brackets open behind a character. -/
def depthAfter (depth : Nat) (c : Char) : Nat :=
  if c = '(' ∨ c = '[' then depth + 1 else if c = ')' ∨ c = ']' then depth - 1 else depth

/-- The text of a statement and the semicolon that ends it, if one does, in front
of the text `rest`. Without a semicolon it is the end of the text or a brace that
ends the statement, and stays in `rest`. -/
inductive Statement : Nat → Text → Text → Text → Prop where
  | atEnd (depth : Nat) : Statement depth [] [] []
  | semicolon (rest : Text) : Statement 0 [] [';'] rest
  | brace {c : Char} (rest : Text) (hc : c = '{' ∨ c = '}') : Statement 0 [] [] (c :: rest)
  | string {quote : Char} {body value stop rest : Text} {depth : Nat}
      (hquote : isQuote quote = true) (hbody : stringTail quote body = some body)
      (more : Statement depth value stop rest) :
      Statement depth (quote :: (body ++ value)) stop rest
  | comment {body value stop rest : Text} {depth : Nat} (hbody : commentTail body = some body)
      (more : Statement depth value stop rest) :
      Statement depth ('/' :: '*' :: (body ++ value)) stop rest
  | interpolation {body value stop rest : Text} {depth : Nat} (hbody : braceTail body = some body)
      (more : Statement depth value stop rest) :
      Statement depth ('#' :: '{' :: (body ++ value)) stop rest
  | char {c : Char} {value stop rest : Text} {depth : Nat} (hquote : ¬ isQuote c = true)
      (hcomment : ¬ (c = '/' ∧ (value ++ (stop ++ rest)).head? = some '*'))
      (hbrace : ¬ (c = '#' ∧ (value ++ (stop ++ rest)).head? = some '{'))
      (hsemicolon : ¬ (c = ';' ∧ depth = 0)) (hend : ¬ ((c = '{' ∨ c = '}') ∧ depth = 0))
      (more : Statement (depthAfter depth c) value stop rest) :
      Statement depth (c :: value) stop rest

theorem statement_of_readStatement {line depth : Nat} {t value stop : Text}
    (h : readStatement line depth t = .ok (value, stop)) :
    ∃ rest, t = value ++ (stop ++ rest) ∧ Statement depth value stop rest := by
  fun_induction readStatement line depth t generalizing value stop with
  | case1 =>
    cases h
    exact ⟨[], rfl, .atEnd _⟩
  | case2 => cases h
  | case3 line depth c t hquote body hbody ih =>
    obtain ⟨⟨more, stop'⟩, hmore, hpure⟩ := exists_of_bind_eq_ok h
    cases hpure
    obtain ⟨rest, hrest, hstatement⟩ := ih hmore
    refine ⟨rest, ?_, .string hquote (by simpa using stringTail_congr hbody []) hstatement⟩
    obtain ⟨u, rfl⟩ := stringTail_isPrefix hbody
    simp_all
  | case4 => cases h
  | case5 line depth c t hquote hc body hbody ih =>
    obtain ⟨⟨more, stop'⟩, hmore, hpure⟩ := exists_of_bind_eq_ok h
    cases hpure
    obtain ⟨rest, hrest, hstatement⟩ := ih hmore
    obtain ⟨rfl, ht⟩ := hc
    obtain ⟨t, rfl⟩ := List.head?_eq_some_iff.1 ht
    refine ⟨rest, ?_, .comment (by simpa using commentTail_congr hbody []) hstatement⟩
    obtain ⟨u, rfl⟩ := commentTail_isPrefix hbody
    simp_all
  | case6 => cases h
  | case7 line depth c t hquote _ hc body hbody ih =>
    obtain ⟨⟨more, stop'⟩, hmore, hpure⟩ := exists_of_bind_eq_ok h
    cases hpure
    obtain ⟨rest, hrest, hstatement⟩ := ih hmore
    obtain ⟨rfl, ht⟩ := hc
    obtain ⟨t, rfl⟩ := List.head?_eq_some_iff.1 ht
    refine ⟨rest, ?_, .interpolation (by simpa using braceTail_congr hbody []) hstatement⟩
    obtain ⟨u, rfl⟩ := bracketTail_isPrefix hbody
    simp_all
  | case8 line depth c t hquote hc hb hs =>
    cases h
    obtain ⟨rfl, rfl⟩ := hs
    exact ⟨t, rfl, .semicolon t⟩
  | case9 line depth c t hquote hc hb hs he =>
    cases h
    obtain ⟨hc, rfl⟩ := he
    exact ⟨c :: t, rfl, .brace t hc⟩
  | case10 line depth c t hquote hc hb hs he depth' =>
    rename_i ih
    obtain ⟨⟨more, stop'⟩, hmore, hpure⟩ := exists_of_bind_eq_ok h
    cases hpure
    obtain ⟨rest, rfl, hstatement⟩ := ih hmore
    refine ⟨rest, rfl, .char hquote hc hb hs he ?_⟩
    simpa [depth', depthAfter] using hstatement

theorem Statement.readStatement {depth : Nat} {value stop rest : Text}
    (h : Statement depth value stop rest) (line : Nat) :
    readStatement line depth (value ++ (stop ++ rest)) = .ok (value, stop) := by
  induction h generalizing line with
  | atEnd depth => simp [Scan.readStatement]
  | semicolon rest => simp [Scan.readStatement, isQuote]
  | brace rest hc => rcases hc with rfl | rfl <;> simp [Scan.readStatement, isQuote]
  | @string quote body value stop rest depth hquote hbody _ ih =>
    have hstring := stringTail_congr hbody (value ++ (stop ++ rest))
    simp [Scan.readStatement, hquote, hstring, ih, bind, Except.bind, pure, Except.pure]
  | @comment body value stop rest depth hbody _ ih =>
    have hcomment := commentTail_congr hbody (value ++ (stop ++ rest))
    simp [Scan.readStatement, isQuote, hcomment, ih, bind, Except.bind, pure, Except.pure]
  | @interpolation body value stop rest depth hbody _ ih =>
    have hbrace := braceTail_congr hbody (value ++ (stop ++ rest))
    simp [Scan.readStatement, isQuote, hbrace, ih, bind, Except.bind, pure, Except.pure]
  | @char c value stop rest depth hquote hcomment hbrace hsemicolon hend _ ih =>
    simp only [depthAfter] at ih
    rw [List.cons_append, Scan.readStatement, if_neg hquote, if_neg hcomment, if_neg hbrace,
      if_neg hsemicolon, if_neg hend]
    simp only [ih]
    rfl

/-- Reading a statement succeeds exactly on what the grammar allows. -/
theorem readStatement_eq_ok_iff {line depth : Nat} {t value stop : Text} :
    readStatement line depth t = .ok (value, stop) ↔
      ∃ rest, t = value ++ (stop ++ rest) ∧ Statement depth value stop rest := by
  constructor
  · exact statement_of_readStatement
  · rintro ⟨rest, rfl, h⟩
    exact h.readStatement line

end Scan

end StylePrep
