import StylePrep.Proofs.Located
import StylePrep.Proofs.Silence

/-!
# No call is left

Where no call of a sprite function starts at a lexeme of a text, a scan finds none in it, and none
in the values that it assigns (`Silent.spriteless`): what is found there starts at a lexeme of the
whole text, as long as the assignments in front of it end where lexemes do.

So a compilation leaves no call in its output (`Request.run_spriteless`) if what it copies has
none. It copies the arguments of registered functions, and there calls are not replaced: see
`Request.run_leaves_call`.
-/

namespace StylePrep

open Text

def Directive.isSprite (d : Directive) : Bool :=
  match d.kind with
  | .sprite .. => true
  | _ => false

def Directive.value? (d : Directive) : Option Text :=
  match d.kind with
  | .assign _ _ value _ _ => some value
  | _ => none

theorem Directive.exists_of_isSprite {d : Directive} (h : d.isSprite = true) :
    ∃ f args binding, d.kind = .sprite f args binding := by
  unfold isSprite at h
  split at h
  · exact ⟨_, _, _, ‹_›⟩
  · cases h

theorem Directive.exists_of_mem_value? {d : Directive} {value : Text} (h : value ∈ d.value?) :
    ∃ name lead tail flags, d.kind = .assign name lead value tail flags := by
  unfold value? at h
  split at h
  · obtain rfl := Option.some.inj h
    exact ⟨_, _, _, _, ‹_›⟩
  · cases h

namespace Scan

open Delimited Directive

variable {functions : FunctionTable} {t s u x : Text} {word word' : Bool}

/-- Lexemes end in front of the rest `s` of a text. -/
def CodeAt (t : Text) (word : Bool) (s : Text) : Prop := ∃ ts, t = ts.flatten ++ s ∧ Cut s false ts word

theorem CodeAt.start (t : Text) : CodeAt t false t := ⟨[], rfl, .done false⟩

theorem CodeAt.step (h : CodeAt t word (u ++ s)) (hu : Lexed s word u word') : CodeAt t word' s := by
  obtain ⟨ts, rfl, hcut⟩ := h
  obtain ⟨ts', rfl, hcut'⟩ := hu
  exact ⟨ts ++ ts', by simp, hcut.append hcut'⟩

/-- Where a directive starts, only its first character matters to the lexemes in front of it. -/
theorem Cut.extend {ts : List Text} (h : Cut s word ts word') (hs : Starts word' s) (x : Text) :
    Cut (s ++ x) word ts word' := by
  refine h.congr (.of_getLast? fun c d hc hd => ?_) fun body hbody => absurd hbody (hs.closed h body)
  have hne : ts ≠ [] := by
    rintro rfl
    cases hc
  have hstarts := hs.append x
  rw [h.word_eq hne] at hstarts
  exact hstarts.joins_eq_false hc hd

/-- No call starts at a lexeme of a silent text. -/
theorem Silent.not_startsCall (h : Silent t) (hs : CodeAt t false s) : ¬ StartsCall s := by
  intro hcall
  obtain ⟨ts, word, hts, hquiet⟩ := h
  obtain ⟨ts₁, htext, hcut⟩ := hs
  have hne : s ≠ [] := by
    rintro rfl
    exact absurd hcall.mem (List.not_mem_nil)
  -- the lexemes of the text are those in front of the call, and others
  obtain ⟨ts₂, rfl⟩ : ∃ ts₂, ts = ts₁ ++ ts₂ := by
    have hall := hquiet.cut.lexemes_eq
    rw [hts, List.append_nil, htext, hcut.lexemes_eq, lexemes, List.append_nil] at hall
    exact ⟨_, hall.symm⟩
  obtain rfl : ts₂.flatten = s := by
    rw [List.flatten_append, htext] at hts
    exact List.append_cancel_left hts
  obtain ⟨word₁, hfront, hback⟩ := hquiet.cut.split
  obtain rfl : word₁ = false := by
    by_cases hnil : ts₁ = []
    · subst hnil
      cases hfront
      rfl
    · rw [hfront.word_eq hnil, ← hcut.word_eq hnil]
  have hfree := (hfront.callFree_append.1 hquiet.callFree).2
  cases ts₂ with
  | nil => exact hne rfl
  | cons t ts₂ => exact hfree.1 rfl (by simpa using hcall)

/-! ### Directives for sprite functions -/

theorem endsWord_of_isSpace {t : Text} (ht : ∀ c, t.getLast? = some c → isSpace c = true) :
    endsWord t = false := by
  unfold endsWord
  split
  · rfl
  · rename_i c hc
    have hne (d : Char) (hd : isSpace d = false) : c ≠ d := by
      rintro rfl
      simp [ht c hc] at hd
    simp [isWordChar_of_isSpace (ht c hc), hne '$' (by decide), hne '@' (by decide), hne '.' (by decide),
      hne '#' (by decide), hne '%' (by decide), hne '&' (by decide)]

/-- No word comes before what stands behind white space. -/
theorem Lexed.of_gap {space : Text} (hspace : ∀ c ∈ space, isSpace c = true) (s : Text) :
    Lexed s false space false := by
  obtain ⟨word', h⟩ := Lexed.of_spaces hspace s false
  by_cases hnil : space = []
  · subst hnil
    exact ⟨[], rfl, .done false⟩
  · obtain rfl := h.word_eq hnil
    rwa [endsWord_of_isSpace (fun c hc => hspace c (List.mem_of_getLast? hc))] at h

/-- What stands in front of the value of an assignment consists of lexemes. -/
theorem lexed_lead {name space gap : Text} (hname : ∀ c ∈ name, isWordChar c = true)
    (hspace : ∀ c ∈ space, isAsciiSpace c = true) (hgap : ∀ c ∈ gap, isSpace c = true) (s : Text)
    (word : Bool) : Lexed s word ('$' :: (name ++ space ++ ':' :: gap)) false := by
  have hdollar (s : Text) : Lexed s word ['$'] true :=
    .of_token (.of_plain (by decide) (by decide) (by decide) (by simp) _)
  have hcolon (word : Bool) : Lexed (gap ++ s) word [':'] false :=
    .of_token (.of_plain (by decide) (by decide) (by decide) (by simp) _)
  obtain ⟨word₁, hspaces⟩ := Lexed.of_spaces (fun c hc => isSpace_of_isAsciiSpace (hspace c hc))
    ([':'] ++ gap ++ s) true
  have hvalue : Lexed s word₁ ([':'] ++ gap) false := (hcolon word₁).append (.of_gap hgap s)
  have hback : Lexed s true (space ++ ([':'] ++ gap)) false := hspaces.append hvalue
  have hall := (hdollar _).append ((Lexed.of_wordChars hname _).append hback)
  simpa using hall

/-- A value that is a call starts with it, white space apart. -/
theorem exists_of_parse? {value : Text} {call : Call} (h : Call.parse? value = some call) :
    ∃ space rest, value = space ++ (call.name ++ '(' :: rest) ∧ ∀ c ∈ space, isSpace c = true := by
  obtain ⟨rest, hrest⟩ := trimEnd_isPrefix (trimStart value)
  have hvalue : value = value.takeWhile isSpace ++ (trim value ++ rest) := by
    rw [trim, hrest, trimStart, List.takeWhile_append_dropWhile]
  unfold Call.parse? at h
  dsimp only at h
  split at h
  case isFalse => cases h
  split at h
  case h_2 => cases h
  case h_1 inner hinner =>
    split at h
    case h_2 => cases h
    split at h <;> cases h
    refine ⟨value.takeWhile isSpace, inner ++ rest, ?_, fun c => of_mem_takeWhile⟩
    conv_lhs => rw [hvalue, ← List.takeWhile_append_dropWhile (p := isWordChar) (l := trim value), hinner]
    simp

/-- Where a directive for a sprite function stands, a call starts at a lexeme. -/
theorem Form.exists_startsCall {c : Char} {found : Found} {rest : Text} {f : SpriteFunction}
    {args : List Text} {binding : Option Binding} (h : Form functions c found rest)
    (hkind : found.kind = .sprite f args binding) (hword : c = '@' ∨ c = '$' ∨ word = false)
    (hat : CodeAt t word (c :: (found.tail ++ x))) : ∃ s, CodeAt t false s ∧ StartsCall s := by
  cases h with
  | imports => cases hkind
  | @assign name space gap body stop rest hname hname' hspace hgap hbody hstatement hvalue =>
    obtain ⟨back, hback⟩ := splitFlags_isPrefix body
    -- the value is a call of the function for sprite maps
    obtain ⟨call, hcall, hmap⟩ : ∃ call, Call.parse? (splitFlags body).1 = some call ∧
        call.name = SpriteFunction.spriteMap.name := by
      unfold assignment at hkind
      split at hkind
      · rename_i call hcall
        split at hkind
        · exact ⟨call, hcall, ‹_›⟩
        · cases hkind
      · cases hkind
    obtain ⟨front, inner, htext, hfront⟩ := exists_of_parse? hcall
    have hlead : ∀ c ∈ gap ++ front, isSpace c = true := List.forall_mem_append.2
      ⟨fun c hc => isSpace_of_isAsciiSpace (hgap c hc), hfront⟩
    refine ⟨call.name ++ '(' :: inner ++ back ++ stop ++ x,
      .step (u := '$' :: (name ++ space ++ ':' :: (gap ++ front))) ?_
        (lexed_lead hname' hspace hlead _ word), .spriteMap, inner ++ back ++ stop ++ x, by simp [hmap]⟩
    rw [← hback, htext] at hat
    simpa using hat
  | @call _ name body kind _ hc hname hbody hkind' =>
    obtain rfl : word = false := by
      rcases hword with rfl | rfl | h
      · exact absurd hc (by decide)
      · exact absurd hc (by decide)
      · exact h
    refine ⟨_, hat, f, body ++ x, ?_⟩
    suffices hf : f.name = c :: name by simp [hf]
    subst hkind
    unfold callKind? at hkind'
    split at hkind'
    · cases hkind'
    · cases hkind'
      rename_i hfunction
      simpa using List.find?_some hfunction
    · split at hkind' <;> cases hkind'

/-- The value of an assignment stands behind lexemes. -/
theorem Form.exists_value {c : Char} {found : Found} {rest name lead value tail : Text} {flags : AssignFlags}
    (h : Form functions c found rest) (hkind : found.kind = .assign name lead value tail flags)
    (hat : CodeAt t word (c :: (found.tail ++ rest))) : ∃ x, CodeAt t false (value ++ x) := by
  cases h with
  | imports => cases hkind
  | @assign name' space gap body stop rest hname hname' hspace hgap hbody hstatement hvalue =>
    obtain ⟨back, hback⟩ := splitFlags_isPrefix body
    obtain ⟨-, -, rfl, -, -⟩ := assignment_eq_assign hkind
    refine ⟨back ++ stop ++ rest, .step (u := '$' :: (name' ++ space ++ ':' :: gap)) ?_
      (lexed_lead hname' hspace (fun c hc => isSpace_of_isAsciiSpace (hgap c hc)) _ word)⟩
    conv at hat => rw [← hback]
    simpa using hat
  | call _ _ _ _ hcall => exact absurd hkind (callKind?_ne_assign hcall)

/-- Without registered functions no call of one is found. -/
theorem isSome_value?_of_mem_scanText {mode : Mode} {line : Nat} {d : Directive}
    (hd : d ∈ (scanText .empty mode line t).directives) (hplain : d.kind ≠ .plain)
    (himports : ∀ targets, d.kind ≠ .imports targets) (hsprite : d.isSprite = false) :
    d.value?.isSome = true := by
  unfold isSprite at hsprite
  unfold value?
  cases hkind : d.kind with
  | plain => exact absurd hkind hplain
  | imports targets => exact absurd hkind (himports targets)
  | assign => rfl
  | sprite => simp [hkind] at hsprite
  | custom name args =>
    rcases form_of_mem_scanFrom hd with h | ⟨c, found, rest, indent, hform, hfound, -⟩
    · exact absurd h hplain
    · have hcustom := hfound.symm.trans hkind
      cases hform with
      | imports => cases hcustom
      | assign => exact absurd hcustom assignment_ne_custom
      | call _ _ _ _ hcall =>
        obtain rfl := hcustom
        unfold callKind? at hcall
        split at hcall
        · cases hcall
        · cases hcall
        · simp [FunctionTable.contains, FunctionTable.get?, FunctionTable.empty] at hcall

/-- Where no sprite function is called in front of a directive, it stands at a lexeme. -/
theorem exists_codeAt {mode : Mode} {line : Nat} {ds ds' : List Directive} {d : Directive}
    (h : (scanText .empty mode line t).directives = ds ++ d :: ds') (hd : d.kind ≠ .plain)
    (hfront : ∀ e ∈ ds, e.isSprite = false)
    (hwhole : ∀ e ∈ (scanText .empty mode line t).directives, e.value?.isSome = true → Whole e.raw) :
    ∃ word c found rest, CodeAt t word (c :: (found.tail ++ rest)) ∧ Form .empty c found rest ∧
      d.kind = found.kind ∧ (c = '@' ∨ c = '$' ∨ word = false) := by
  have hmem {e : Directive} (he : e ∈ ds) : e ∈ (scanText .empty mode line t).directives := by
    rw [h]
    exact List.mem_append_left _ he
  obtain ⟨ts, word, _, c, found, rest, ht, hcut, hform, hkind, hc, -⟩ := exists_cut_of_directive h hd
    fun e he hplain himports => hwhole e (hmem he)
      (isSome_value?_of_mem_scanText (hmem he) hplain himports (hfront e he))
  exact ⟨word, c, found, rest, ⟨ts, ht, hcut⟩, hform, hkind, hc⟩

/-- Where a call of a sprite function is found, a directive for one stands at a lexeme. -/
theorem exists_codeAt_of_sprite {mode : Mode} {line : Nat} {d : Directive}
    (hd : d ∈ (scanText .empty mode line t).directives) (hsprite : d.isSprite = true)
    (hwhole : ∀ e ∈ (scanText .empty mode line t).directives, e.value?.isSome = true → Whole e.raw) :
    ∃ word c found rest, CodeAt t word (c :: (found.tail ++ rest)) ∧ Form .empty c found rest ∧
      (∃ f args binding, found.kind = .sprite f args binding) ∧ (c = '@' ∨ c = '$' ∨ word = false) := by
  -- the first one of them
  obtain ⟨e, he⟩ := Option.isSome_iff_exists.1 (List.find?_isSome.2 ⟨d, hd, hsprite⟩)
  obtain ⟨hsprite, ds, ds', hds, hfront⟩ := List.find?_eq_some_iff_append.1 he
  obtain ⟨f, args, binding, hkind⟩ := exists_of_isSprite hsprite
  obtain ⟨word, c, found, rest, hat, hform, hfound, hc⟩ := exists_codeAt hds (by simp [hkind])
    (fun e he => by simpa using hfront e he) hwhole
  exact ⟨word, c, found, rest, hat, hform, ⟨f, args, binding, hfound ▸ hkind⟩, hc⟩

/-- What stands at a lexeme of a part stands at one of the whole text. -/
theorem CodeAt.within (h : CodeAt t false (u ++ x)) (hu : CodeAt u word s) (hs : Starts word s) :
    CodeAt t word (s ++ x) := by
  obtain ⟨ts, rfl, hcut⟩ := hu
  rw [List.append_assoc] at h
  exact h.step ⟨ts, rfl, hcut.extend hs x⟩

/-- No call of a sprite function is found in a text, and none in a value that it assigns. -/
structure Spriteless (t : Text) : Prop where
  calls : ∀ d ∈ (scan .empty t).directives, d.isSprite = false
  values : ∀ d ∈ (scan .empty t).directives, ∀ value ∈ d.value?,
    ∀ e ∈ (scanText .empty .expression d.line value).directives, e.isSprite = false

instance (t : Text) : Decidable (Spriteless t) :=
  decidable_of_iff ((∀ d ∈ (scan .empty t).directives, d.isSprite = false) ∧
      ∀ d ∈ (scan .empty t).directives, ∀ value ∈ d.value?,
        ∀ e ∈ (scanText .empty .expression d.line value).directives, e.isSprite = false)
    ⟨fun ⟨calls, values⟩ => ⟨calls, values⟩, fun ⟨calls, values⟩ => ⟨calls, values⟩⟩

/-- Assignments of a text, and those found in the values that it assigns, end where lexemes do. -/
structure WholeAssigned (t : Text) : Prop where
  statements : ∀ d ∈ (scan .empty t).directives, d.value?.isSome = true → Whole d.raw
  values : ∀ d ∈ (scan .empty t).directives, ∀ value ∈ d.value?,
    ∀ e ∈ (scanText .empty .expression d.line value).directives, e.value?.isSome = true → Whole e.raw

instance (t : Text) : Decidable (WholeAssigned t) :=
  decidable_of_iff ((∀ d ∈ (scan .empty t).directives, d.value?.isSome = true → Whole d.raw) ∧
      ∀ d ∈ (scan .empty t).directives, ∀ value ∈ d.value?,
        ∀ e ∈ (scanText .empty .expression d.line value).directives, e.value?.isSome = true → Whole e.raw)
    ⟨fun ⟨statements, values⟩ => ⟨statements, values⟩, fun ⟨statements, values⟩ => ⟨statements, values⟩⟩

/-- A text without calls at its lexemes has no directives for sprite functions. -/
theorem Silent.spriteless (h : Silent t) (hwhole : WholeAssigned t) : Spriteless t := by
  have hcalls : ∀ d ∈ (scan .empty t).directives, d.isSprite = false := by
    intro d hd
    by_contra hsprite
    obtain ⟨word, c, found, rest, hat, hform, ⟨f, args, binding, hkind⟩, hc⟩ :=
      exists_codeAt_of_sprite hd (by simpa using hsprite) hwhole.statements
    obtain ⟨s, hs, hcall⟩ := hform.exists_startsCall hkind hc hat
    exact h.not_startsCall hs hcall
  refine ⟨hcalls, fun d hd value hvalue e he => ?_⟩
  by_contra hsprite
  obtain ⟨word, c, found, rest, hat, hform, ⟨f, args, binding, hkind⟩, hc⟩ :=
    exists_codeAt_of_sprite he (by simpa using hsprite) (hwhole.values d hd value hvalue)
  -- the value stands in the text behind lexemes
  obtain ⟨x, hbehind⟩ : ∃ x, CodeAt t false (value ++ x) := by
    obtain ⟨name, lead, tail, flags, hassign⟩ := exists_of_mem_value? hvalue
    obtain ⟨ds, ds', hds⟩ := List.append_of_mem hd
    obtain ⟨word, c, found, rest, hat, hform, hfound, -⟩ := exists_codeAt hds (by simp [hassign])
      (fun e he => hcalls e (by rw [hds]; exact List.mem_append_left _ he)) hwhole.statements
    exact hform.exists_value (hfound.symm.trans hassign) hat
  have hwithin := hbehind.within hat (hform.starts hc _)
  rw [List.cons_append, List.append_assoc] at hwithin
  obtain ⟨s, hs, hcall⟩ := hform.exists_startsCall hkind hc hwithin
  exact h.not_startsCall hs hcall

end Scan

/-! ### Compilations -/

namespace Assembly

open Step Scan

variable {options : Options} {loader : Loader} {v v' : Visit}

/-- Another file is entered only by an import. -/
theorem Enters.exists_imports (h : Enters options loader v v') :
    ∃ d ∈ (scan options.functions v.source.text).directives, ∃ targets, d.kind = .imports targets := by
  obtain ⟨depth, target, targets, map, s, stack, path, text, hasks, -⟩ := h
  generalize target :: targets = all at hasks
  induction hasks with
  | first hcomes hkind =>
    obtain ⟨done, hds, -⟩ := hcomes.exists_append
    exact ⟨_, by rw [hds]; simp, _, hkind⟩
  | next _ _ ih => exact ih

/-- A compilation of a text without imports gets to no other file. -/
theorem Visits.eq_root {path dir : Path} {text : Text} {w : Workspace} {n : Nat}
    (himports : ∀ d ∈ (scan options.functions text).directives, ∀ targets, d.kind ≠ .imports targets)
    (h : Visits options loader path dir text w n v) : v = ⟨0, dir, start w path text⟩ := by
  induction h with
  | root => rfl
  | enter _ henters ih =>
    subst ih
    obtain ⟨d, hd, targets, hkind⟩ := henters.exists_imports
    exact absurd hkind (himports d hd targets)

/-- What calls are expanded to has a property that all expansions of the calls in the file and in
the values that it assigns have. -/
theorem Expands.of_yields {P : Expansion → Prop} {e : Expansion} (h : Expands options loader v e)
    (hcalls : ∀ d ∈ (scan options.functions v.source.text).directives, ∀ f args binding,
      d.kind = .sprite f args binding → ∀ indent, Yields P (expandSprite options f args d.line indent))
    (hvalues : ∀ d ∈ (scan options.functions v.source.text).directives, ∀ value ∈ d.value?,
      ∀ e ∈ (scanText options.functions .expression d.line value).directives, ∀ f args binding,
        e.kind = .sprite f args binding → Yields P (expandSprite options f args e.line [])) : P e := by
  cases h with
  | call hcomes hkind he =>
    obtain ⟨done, hds, -⟩ := hcomes.exists_append
    exact hcalls _ (by rw [hds]; simp) _ _ _ hkind _ _ _ _ he
  | value hcomes hkind hreplaces =>
    obtain ⟨done, hds, -⟩ := hcomes.exists_append
    obtain ⟨d, hd, f, args, binding, s, s', hkind', he⟩ := hreplaces.exists_mem
    exact hvalues _ (by rw [hds]; simp) _ (by simp [Directive.value?, hkind]) d hd _ _ _ hkind' _ _ _ he

end Assembly

namespace Preprocess.Request

open Step Scan

/-- A compilation leaves no call of a sprite function in its output, if in the files that it gets
to what is put out for assignments and calls of registered functions stands for itself. -/
theorem run_spriteless {options : Options} {request : Request} {w w' : Workspace} {c : Compilation}
    (h : Returns (request.run options) w c w')
    (hfiles : ∀ n v, request.Visits options w n v → Assembly.OrderlySheet options.functions v.source.text)
    (hquotes : ∀ n v e, request.Visits options w n v →
      Assembly.Expands options (request.loader options w.tree) v e → Expand.WellQuoted e.text)
    (hwhole : WholeAssigned c.output) : Spriteless c.output := by
  obtain ⟨file, dir, hroot, hreturns⟩ := returns_run.1 h
  have hsilent := Assembly.silent_of_assembleRoot (fun n v hv => hfiles n v ⟨file, dir, hroot, hv⟩)
    (fun n v e hv => hquotes n v e ⟨file, dir, hroot, hv⟩) hreturns
  exact hsilent.spriteless hwhole

def registering : Options :=
  { Sample.options with functions := ⟨[⟨"foo".toList, [⟨"a".toList, none⟩]⟩]⟩ }

/-- An image in the value of a variable, a registered function called with it, and an image. -/
theorem run_spriteless_variable :
    ∃ c w', Returns (run registering (.source "-".toList
        "$a: image-url(\"b.png\");\nc \x7b d: foo($a); e: image-url(\"b.png\"); \x7d\n".toList))
        (Sample.workspace []) c w' ∧
      c.output = "$a: url(\"images/b.png\");\nc \x7b d: foo($a); e: url(\"images/b.png\"); \x7d\n".toList ∧
      Spriteless c.output := by
  set text := "$a: image-url(\"b.png\");\nc \x7b d: foo($a); e: image-url(\"b.png\"); \x7d\n".toList
  set request := Request.source "-".toList text
  have heval : (exec (run registering request) (Sample.workspace [])).1.toOption.map (·.output) =
      some "$a: url(\"images/b.png\");\nc \x7b d: foo($a); e: url(\"images/b.png\"); \x7d\n".toList := by
    decide +kernel
  obtain ⟨c, w', hreturns, houtput⟩ := exists_returns heval
  -- the only file is the text
  have hroot : request.root registering (Sample.workspace []).tree =
      .ok (⟨⟨"-".toList⟩, text, none⟩, (Sample.workspace []).tree.absolute ⟨['.']⟩) := by decide +kernel
  have htext : ∀ n v, request.Visits registering (Sample.workspace []) n v → v.source.text = text := by
    rintro n v ⟨file, dir, hroot', hv⟩
    cases hroot'.symm.trans hroot
    rw [hv.eq_root (by decide +kernel)]
    rfl
  have hliteral (line : Nat) (indent : Text) : Yields (fun e => Expand.WellQuoted e.text)
      (Assembly.expandSprite registering .imageUrl ["\"b.png\"".toList] line indent) := by
    refine Assembly.expandSprite_yields fun vars => fun s e s' h => ?_
    have hexpand : Returns (Expand.expand registering.sprites vars
        ⟨SpriteFunction.imageUrl.name, ["\"b.png\"".toList], line⟩ indent) s
          ⟨"url(\"images/b.png\")".toList, none⟩ s := rfl
    cases h.symm.trans hexpand
    decide
  have hcalls : ∀ d ∈ (scan registering.functions text).directives, d.isSprite = true →
      d.kind = .sprite .imageUrl ["\"b.png\"".toList] none := by decide +kernel
  have hvalues : ∀ d ∈ (scan registering.functions text).directives, ∀ value ∈ d.value?,
      ∀ e ∈ (scanText registering.functions .expression d.line value).directives, e.isSprite = true →
        e.kind = .sprite .imageUrl ["\"b.png\"".toList] none := by decide +kernel
  refine ⟨c, w', hreturns, houtput, run_spriteless hreturns ?_ ?_ (by rw [houtput]; decide +kernel)⟩
  · intro n v hv
    rw [htext n v hv]
    decide +kernel
  · intro n v e hv he
    refine he.of_yields (P := fun e => Expand.WellQuoted e.text) ?_ ?_
    · rw [htext n v hv]
      intro d hd f args binding hkind indent
      cases hkind.symm.trans (hcalls d hd (by simp [Directive.isSprite, hkind]))
      exact hliteral _ indent
    · rw [htext n v hv]
      intro d hd value hvalue e he f args binding hkind
      cases hkind.symm.trans (hvalues d hd value hvalue e he (by simp [Directive.isSprite, hkind]))
      exact hliteral _ []

/-- The arguments of a registered function are copied, and a call among them is left. -/
theorem run_leaves_call :
    let text := "a \x7b b: foo(image-url(\"x.png\")); \x7d\n".toList
    (exec (run registering (.source "-".toList text)) (Sample.workspace [])).1.toOption.map (·.output) =
        some text ∧ ¬ Spriteless text := by
  decide +kernel

end Preprocess.Request

end StylePrep
