import StylePrep.Text.Basic

/-!
# Text up to a closing delimiter

Strings, block comments and brackets are skipped as a whole. Each reader here
gets the text behind the opening delimiter and returns the part through the
closing one, or nothing if it never closes. What is returned is always a front
part of what was given, so a caller goes on with the rest by dropping as many
characters.
-/

namespace StylePrep.Delimited

/-- The rest of a string through its closing quote. A backslash takes the next
character with it, whatever that is; otherwise the string must end on its line. -/
def stringTail (quote : Char) : Text → Option Text
  | [] => none
  | '\\' :: t => match t with
    | [] => none
    | c :: t => (stringTail quote t).map ('\\' :: c :: ·)
  | c :: t =>
    if c = '\n' then none
    else if c = quote then some [c]
    else (stringTail quote t).map (c :: ·)

/-- The rest of a block comment through its end mark. -/
def commentTail : Text → Option Text
  | [] => none
  | c :: t =>
    if c = '*' ∧ t.head? = some '/' then some ['*', '/']
    else (commentTail t).map (c :: ·)

def isQuote (c : Char) : Bool := c == '"' || c == '\''

/-- The rest of a bracketed text through the bracket that closes it, `depth`
being the number of brackets open. Strings and block comments inside are
skipped. -/
def bracketTail (opening closing : Char) (depth : Nat) : Text → Option Text
  | [] => none
  | c :: t =>
    if isQuote c then
      match stringTail c t with
      | none => none
      | some body =>
        (bracketTail opening closing depth (t.drop body.length)).map (c :: body ++ ·)
    else if c = '/' ∧ t.head? = some '*' then
      match commentTail t.tail with
      | none => none
      | some body =>
        (bracketTail opening closing depth (t.tail.drop body.length)).map
          ('/' :: '*' :: body ++ ·)
    else if c = opening then (bracketTail opening closing (depth + 1) t).map (c :: ·)
    else if c = closing then
      if depth ≤ 1 then some [c]
      else (bracketTail opening closing (depth - 1) t).map (c :: ·)
    else (bracketTail opening closing depth t).map (c :: ·)
termination_by t => t.length
decreasing_by all_goals simp; try omega

def parenTail : Text → Option Text := bracketTail '(' ')' 1

/-- The rest of a text in braces through its closing brace. -/
def braceTail : Text → Option Text := bracketTail '{' '}' 1

theorem stringTail_isPrefix {quote : Char} {t body : Text} (h : stringTail quote t = some body) :
    body <+: t := by
  fun_induction stringTail quote t generalizing body with
  | case1 => simp at h
  | case2 => simp at h
  | case3 c t ih =>
    obtain ⟨rest, hrest, rfl⟩ := Option.map_eq_some_iff.1 h
    simpa using ih hrest
  | case4 => simp at h
  | case5 =>
    obtain rfl := Option.some.inj h
    simp
  | case6 c t _ _ _ ih =>
    obtain ⟨rest, hrest, rfl⟩ := Option.map_eq_some_iff.1 h
    simpa using ih hrest

theorem commentTail_isPrefix {t body : Text} (h : commentTail t = some body) : body <+: t := by
  fun_induction commentTail t generalizing body with
  | case1 => simp at h
  | case2 c t hc =>
    obtain rfl := Option.some.inj h
    obtain ⟨rfl, ht⟩ := hc
    obtain ⟨t, rfl⟩ := List.head?_eq_some_iff.1 ht
    simp
  | case3 c t _ ih =>
    obtain ⟨rest, hrest, rfl⟩ := Option.map_eq_some_iff.1 h
    simpa using ih hrest

theorem bracketTail_isPrefix {opening closing : Char} {depth : Nat} {t body : Text}
    (h : bracketTail opening closing depth t = some body) : body <+: t := by
  fun_induction bracketTail opening closing depth t generalizing body with
  | case1 => simp at h
  | case2 => simp at h
  | case3 depth c t _ inner hinner ih =>
    obtain ⟨rest, hrest, rfl⟩ := Option.map_eq_some_iff.1 h
    obtain ⟨u, rfl⟩ := stringTail_isPrefix hinner
    simpa using ih hrest
  | case4 => simp at h
  | case5 depth c t _ hc inner hinner ih =>
    obtain ⟨rest, hrest, rfl⟩ := Option.map_eq_some_iff.1 h
    obtain ⟨rfl, ht⟩ := hc
    obtain ⟨t, rfl⟩ := List.head?_eq_some_iff.1 ht
    obtain ⟨u, rfl⟩ := commentTail_isPrefix hinner
    simpa using ih hrest
  | case6 depth t _ _ ih =>
    obtain ⟨rest, hrest, rfl⟩ := Option.map_eq_some_iff.1 h
    simpa using ih hrest
  | case7 =>
    obtain rfl := Option.some.inj h
    simp
  | case8 depth t _ _ _ _ ih =>
    obtain ⟨rest, hrest, rfl⟩ := Option.map_eq_some_iff.1 h
    simpa using ih hrest
  | case9 depth c t _ _ _ _ ih =>
    obtain ⟨rest, hrest, rfl⟩ := Option.map_eq_some_iff.1 h
    simpa using ih hrest

end StylePrep.Delimited
