import StylePrep.Proofs.Preamble

/-!
# Import statements

An import statement names its targets in quotes, with commas between them. There is white space of
three kinds in it: around the statement only blanks, which stay on its line; behind `@import` and
behind each comma also line ends; and at its end the one line end that belongs to it. However it is
spelled within these rules, it is one directive that owns all of its lines, and what follows is
scanned as a sheet of its own (`scan_importStatement`).
-/

namespace StylePrep.Scan

open Text Delimited

variable {functions : FunctionTable}

/-- A name that reads the same in quotes of either kind, and that is not left to the browser. -/
structure Importable (name : Text) : Prop where
  double : '"' ∉ name
  single : '\'' ∉ name
  backslash : '\\' ∉ name
  newline : '\n' ∉ name
  css : ¬ ".css".toList <:+ name
  http : ¬ "http://".toList <+: name
  https : ¬ "https://".toList <+: name
  slashes : ¬ "//".toList <+: name

instance (name : Text) : Decidable (Importable name) :=
  decidable_of_iff ('"' ∉ name ∧ '\'' ∉ name ∧ '\\' ∉ name ∧ '\n' ∉ name ∧
      ¬ ".css".toList <:+ name ∧ ¬ "http://".toList <+: name ∧ ¬ "https://".toList <+: name ∧
      ¬ "//".toList <+: name)
    ⟨fun ⟨double, single, backslash, newline, css, http, https, slashes⟩ =>
      ⟨double, single, backslash, newline, css, http, https, slashes⟩,
    fun h => ⟨h.double, h.single, h.backslash, h.newline, h.css, h.http, h.https, h.slashes⟩⟩

/-- Names in quotes with commas between them, blanks before a comma and white space behind it. -/
inductive Listing : List Text → Text → Prop where
  | last {quote : Char} (name : Text) (hquote : isQuote quote = true) :
      Listing [name] (quote :: name ++ [quote])
  | more {quote : Char} {blank space t : Text} {names : List Text} (name : Text)
      (hquote : isQuote quote = true) (hblank : ∀ c ∈ blank, isBlank c = true)
      (hspace : ∀ c ∈ space, isAsciiSpace c = true) (ht : Listing names t) :
      Listing (name :: names) (quote :: name ++ [quote] ++ blank ++ ',' :: (space ++ t))

inductive ImportStatement (names : List Text) : Text → Prop where
  | intro {indent space listing blank stop trailing : Text}
      (hindent : ∀ c ∈ indent, isBlank c = true) (hspace : ∀ c ∈ space, isAsciiSpace c = true)
      (hlisting : Listing names listing) (hblank : ∀ c ∈ blank, isBlank c = true)
      (hstop : stop = [] ∨ stop = [';']) (htrailing : ∀ c ∈ trailing, isBlank c = true) :
      ImportStatement names
        (indent ++ "@import".toList ++ space ++ listing ++ blank ++ stop ++ trailing ++ ['\n'])

/-! ### Names -/

theorem Importable.isCssTarget {name : Text} (h : Importable name) : isCssTarget name = false := by
  have hbefore : before? ".css".toList name = none := by
    rw [Option.eq_none_iff_forall_ne_some]
    intro rest hrest
    exact h.css ⟨rest, (before?_eq_some_iff.1 hrest).symm⟩
  have hafter {lead : Text} (hlead : ¬ lead <+: name) : after? lead name = none := by
    rw [Option.eq_none_iff_forall_ne_some]
    intro rest hrest
    exact hlead ⟨rest, (after?_eq_some_iff.1 hrest).symm⟩
  rw [Scan.isCssTarget, hbefore, hafter h.http, hafter h.https, hafter h.slashes]
  rfl

theorem Importable.stringRest {name : Text} (h : Importable name) {quote : Char}
    (hquote : isQuote quote = true) : StringRest quote (name ++ [quote]) := by
  have hplain : ∀ c ∈ name, c ≠ quote ∧ c ≠ '\\' ∧ c ≠ '\n' := by
    intro c hc
    refine ⟨?_, ?_, ?_⟩
    · rintro rfl
      simp only [isQuote, Bool.or_eq_true, beq_iff_eq] at hquote
      rcases hquote with rfl | rfl
      · exact h.double hc
      · exact h.single hc
    · rintro rfl
      exact h.backslash hc
    · rintro rfl
      exact h.newline hc
  clear h
  induction name with
  | nil => exact .close
  | cons c name ih =>
    obtain ⟨hne, hslash, hline⟩ := hplain c List.mem_cons_self
    exact .char hne hslash hline (ih fun d hd => hplain d (List.mem_cons_of_mem c hd))

/-- A name in quotes is an item of an import. -/
theorem Importable.item {name : Text} (h : Importable name) {quote : Char}
    (hquote : isQuote quote = true) : Item ⟨quote :: name ++ [quote], some name, false⟩ := by
  have hbody : stringTail quote (name ++ [quote]) = some (name ++ [quote]) := by
    simpa using (h.stringRest hquote).stringTail hquote []
  have hitem := Item.quoted hquote hbody
  rwa [List.dropLast_concat, h.isCssTarget] at hitem

/-! ### Items -/

/-- A listing, in front of the rest of its statement, is a list of items with these names. Blanks
that are left behind it stand in front of the line end. -/
theorem Listing.exists_itemList {names : List Text} {listing : Text} (h : Listing names listing)
    (hnames : ∀ name ∈ names, Importable name) {space blank stop trailing : Text}
    (hspace : ∀ c ∈ space, isAsciiSpace c = true) (hblank : ∀ c ∈ blank, isBlank c = true)
    (hstop : stop = [] ∨ stop = [';']) (htrailing : ∀ c ∈ trailing, isBlank c = true)
    (rest : Text) :
    ∃ spelling left, space ++ listing ++ blank ++ stop ++ trailing = spelling ++ left ∧
      (∀ c ∈ left, isBlank c = true) ∧ ItemList ⟨spelling, names, false⟩ (left ++ '\n' :: rest) := by
  induction h generalizing space with
  | @last quote name hquote =>
    have hitem := (hnames name (by simp)).item hquote
    rcases hstop with rfl | rfl
    · have hblanks : ∀ c ∈ blank ++ trailing, isBlank c = true := by
        intro c hc
        rcases List.mem_append.1 hc with hc | hc
        · exact hblank c hc
        · exact htrailing c hc
      have hline : Stops (fun c => isBlank c || c == ',' || c == ';') ('\n' :: rest) :=
        stops_cons rfl _
      exact ⟨_, [], by simp, by simp, .bare hspace hitem hblanks hline⟩
    · exact ⟨_, trailing, by simp, htrailing, .semicolon _ hspace hitem hblank⟩
  | @more quote blank' space' t names name hquote hblank' hspace' _ ih =>
    have hitem := (hnames name (by simp)).item hquote
    obtain ⟨spelling, left, htext, hleft, hlist⟩ :=
      ih (fun name hname => hnames name (List.mem_cons_of_mem _ hname)) hspace'
    refine ⟨_, left, ?_, hleft, .comma hspace hitem hblank' hlist⟩
    simp only [List.append_assoc] at htext
    simp [htext]

theorem Listing.exists_quote {names : List Text} {listing : Text} (h : Listing names listing) :
    ∃ quote tail, listing = quote :: tail ∧ isQuote quote = true := by
  cases h with
  | last name hquote => exact ⟨_, _, rfl, hquote⟩
  | more name hquote => exact ⟨_, _, rfl, hquote⟩

/-! ### Statements -/

/-- An import statement is a directive behind its indentation. -/
theorem ImportStatement.exists_form (functions : FunctionTable) {names : List Text} {line : Text}
    (h : ImportStatement names line) (hnames : ∀ name ∈ names, Importable name) (rest : Text) :
    ∃ indent tail, line = indent ++ '@' :: tail ∧ (∀ c ∈ indent, isBlank c = true) ∧
      tail.getLast? = some '\n' ∧ Form functions '@' ⟨.imports names, tail, true⟩ rest := by
  obtain @⟨indent, space, listing, blank, stop, trailing, hindent, hspace, hlisting, hblank, hstop,
    htrailing⟩ := h
  obtain ⟨spelling, left, htext, hleft, hlist⟩ :=
    hlisting.exists_itemList hnames hspace hblank hstop htrailing rest
  have hhead : (spelling.head?.map fun c => isAsciiSpace c || isQuote c).getD false = true := by
    obtain ⟨quote, tail, rfl, hquote⟩ := hlisting.exists_quote
    rw [← head?_append_of_ne_nil hlist.spelling_ne_nil left, ← htext]
    cases space with
    | nil => simp [hquote]
    | cons c space => simp [hspace c List.mem_cons_self]
  refine ⟨indent, "import".toList ++ spelling ++ left ++ ['\n'], ?_, hindent,
    List.getLast?_concat, ?_⟩
  · rw [List.append_assoc "import".toList, ← htext]
    simp
  · exact .imports hhead hlist rfl (fun c hc => isTrailing_of_isBlank (hleft c hc)) (.taken rest)

/-- Blanks are white space. -/
theorem preamble_of_blank {t : Text} (h : ∀ c ∈ t, isBlank c = true) : Preamble t := by
  induction t with
  | nil => exact .nil
  | cons c t ih =>
    exact .space (isAsciiSpace_of_isBlank (h c List.mem_cons_self))
      (ih fun d hd => h d (List.mem_cons_of_mem c hd))

/-- A run of blanks at the beginning of a sheet is indentation. -/
theorem indent_of_blank {t : Text} (h : ∀ c ∈ t, isBlank c = true) (scope : List Nat) :
    (⟨t, .start 1, scope⟩ : Run).indent = t := by
  have hline : ∀ c ∈ t.reverse, (c != '\n') = true := by
    intro c hc
    have hblank := h c (List.mem_reverse.1 hc)
    rw [bne_iff_ne]
    rintro rfl
    cases hblank
  have htake : t.reverse.takeWhile (· != '\n') = t.reverse := by
    simpa using takeWhile_append_of_stops (t := []) hline (by simp [Stops])
  have hall : t.all isBlank = true := List.all_eq_true.2 h
  unfold Run.indent
  simp [htake, hall, Location.start]

/-- An import statement at the beginning of a sheet is one directive, and behind it the rest is
scanned as it would be on its own. -/
theorem scan_importStatement {names : List Text} {line : Text} (h : ImportStatement names line)
    (hnames : ∀ name ∈ names, Importable name) (rest : Text) :
    scan functions (line ++ rest) =
      ((scan functions rest).moved line.utf8Size line.newlines).prepend
        [⟨.imports names, ⟨.start 1, (Location.start 1).advance line⟩, line, []⟩] := by
  obtain ⟨indent, tail, rfl, hindent, hend, hform⟩ :=
    h.exists_form functions hnames rest
  set start := Cursor.start .sheet 1
  set run := (Run.fresh start).extend indent
  have hrecognize : recognize functions (start.behind indent) '@' (tail ++ rest) =
      .ok (some ⟨.imports names, tail, true⟩) :=
    recognize_eq_some_iff.2 ⟨rfl, rest, rfl, hform⟩
  have hnext : Shifted (indent ++ '@' :: tail).utf8Size (indent ++ '@' :: tail).newlines start
      ((start.behind indent).step '@' tail ⟨[], 0, true⟩) := by
    have hcursor : (start.behind indent).step '@' tail ⟨[], 0, true⟩ =
        ⟨(Location.start 1).advance (indent ++ '@' :: tail), some '\n', start.context⟩ := by
      rw [Cursor.step, List.getLastD_eq_getLast?, hend, Location.advance_append]
      rfl
    rw [hcursor]
    refine .of_newline ?_
    rw [List.getLast?_append, List.getLast?_cons, hend]
    rfl
  have howned : run.owned (.imports names) = indent := indent_of_blank hindent []
  have hcomplete : complete (start.behind indent) run '@' ⟨.imports names, tail, true⟩ =
      [⟨.imports names, ⟨.start 1, (Location.start 1).advance (indent ++ '@' :: tail)⟩,
        indent ++ '@' :: tail, []⟩] := by
    have htext : run.text = [] ++ run.owned (.imports names) := howned.symm
    refine (complete_eq_of_text htext).trans ?_
    rw [howned]
    rfl
  rw [scan, scanText, List.append_assoc, (preamble_of_blank hindent).scanFrom_eq,
    List.cons_append, scanFrom, hrecognize]
  simp only [List.drop_left]
  rw [hcomplete]
  refine congrArg (Outcome.prepend _) ?_
  rw [scan, scanText, ← scanFrom_moved hnext, ← hnext.fresh]
  rfl

/-- Two targets in different quotes on two lines. -/
theorem scan_importStatement_lines :
    let names : List Text := ["a".toList, "b c".toList]
    let listing : Text := '"' :: "a".toList ++ ['"'] ++ " ".toList ++
      ',' :: ("\n ".toList ++ ('\'' :: "b c".toList ++ ['\'']))
    let line : Text := "\t".toList ++ "@import".toList ++ [] ++ listing ++ " ".toList ++
      ";".toList ++ " ".toList ++ ['\n']
    let rest : Text := "@import \"d\";\n".toList
    ImportStatement names line ∧ (∀ name ∈ names, Importable name) ∧
      scan .empty (line ++ rest) =
        ((scan .empty rest).moved line.utf8Size line.newlines).prepend
          [⟨.imports names, ⟨.start 1, (Location.start 1).advance line⟩, line, []⟩] ∧
      line = "\t@import\"a\" ,\n 'b c' ; \n".toList := by
  intro names listing line rest
  have hlisting : Listing names listing :=
    .more "a".toList rfl (by simp [isBlank]) (by simp [isAsciiSpace]) (.last "b c".toList rfl)
  have hline : ImportStatement names line :=
    .intro (by simp [isBlank]) (by simp) hlisting (by simp [isBlank]) (.inr rfl) (by simp [isBlank])
  have hnames : ∀ name ∈ names, Importable name := by decide
  exact ⟨hline, hnames, scan_importStatement hline hnames rest, by decide⟩

end StylePrep.Scan
