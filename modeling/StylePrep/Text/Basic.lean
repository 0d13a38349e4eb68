/-!
# Text as a sequence of characters

Style sheets, names, arguments and path spellings are all sequences of
characters. Keeping them as lists lets every reader in the library be a plain
recursion and every statement about it an equation between lists. A place in a
text is counted in bytes of its UTF-8 encoding, so the encoded size of a text is
part of this vocabulary as well.
-/

namespace StylePrep

/-- A text, character by character. -/
abbrev Text := List Char

abbrev Bytes := List UInt8

namespace Text

def asString (t : Text) : String := String.ofList t

@[simp] theorem toList_asString (t : Text) : t.asString.toList = t := by
  simp [asString]

/-- A space or a tab: white space that stays on its line. -/
def isBlank (c : Char) : Bool := c == ' ' || c == '\t'

/-- White space as far as the style-sheet grammar is concerned: a space, a tab,
a line feed, a form feed or a carriage return. -/
def isAsciiSpace (c : Char) : Bool :=
  c == ' ' || c == '\t' || c == '\n' || c == '\x0c' || c == '\r'

def isWordStart (c : Char) : Bool := c.isAlpha || c == '_' || c == '-'

def isWordChar (c : Char) : Bool := c.isAlphanum || c == '_' || c == '-'

def newlines (t : Text) : Nat := t.count '\n'

@[simp] theorem newlines_nil : newlines [] = 0 := rfl

@[simp] theorem newlines_append (s t : Text) :
    newlines (s ++ t) = newlines s + newlines t := List.count_append

def utf8Size : Text → Nat
  | [] => 0
  | c :: t => c.utf8Size + utf8Size t

@[simp] theorem utf8Size_nil : utf8Size [] = 0 := rfl

@[simp] theorem utf8Size_append (s t : Text) :
    utf8Size (s ++ t) = utf8Size s + utf8Size t := by
  induction s with
  | nil => simp
  | cons c s ih =>
    change c.utf8Size + utf8Size (s ++ t) = c.utf8Size + utf8Size s + utf8Size t
    rw [ih, Nat.add_assoc]

def utf8 (t : Text) : Bytes := t.flatMap String.utf8EncodeChar

@[simp] theorem utf8_nil : utf8 [] = [] := rfl

@[simp] theorem utf8_append (s t : Text) : utf8 (s ++ t) = utf8 s ++ utf8 t := by
  simp [utf8]

/-- The text whose encoding these bytes are, if they are valid UTF-8. -/
def ofUtf8? (bytes : Bytes) : Option Text :=
  (ByteArray.utf8Decode? ⟨bytes.toArray⟩).map Array.toList

@[simp] theorem ofUtf8?_utf8 (t : Text) : ofUtf8? t.utf8 = some t := by
  have hencode : (⟨t.utf8.toArray⟩ : ByteArray) = List.utf8Encode t := by
    rw [List.utf8Encode, ← List.data_toByteArray]
    rfl
  rw [ofUtf8?, hencode, List.utf8Decode?_utf8Encode]
  rfl

theorem utf8_injective {s t : Text} (h : s.utf8 = t.utf8) : s = t := by
  have hsame := ofUtf8?_utf8 s
  rw [h, ofUtf8?_utf8] at hsame
  exact (Option.some.inj hsame).symm

/-- What follows `lead` in `t`, if `t` starts with it. -/
def after? (lead t : Text) : Option Text :=
  if lead.isPrefixOf t then some (t.drop lead.length) else none

theorem after?_eq_some_iff {lead t rest : Text} : after? lead t = some rest ↔ t = lead ++ rest := by
  unfold after?
  split
  case isTrue h =>
    obtain ⟨u, rfl⟩ := List.isPrefixOf_iff_prefix.1 h
    simp [eq_comm]
  case isFalse h =>
    simp only [reduceCtorEq, false_iff]
    rintro rfl
    exact h (List.isPrefixOf_iff_prefix.2 (List.prefix_append _ _))

/-- What precedes `tail` in `t`, if `t` ends with it. -/
def before? (tail t : Text) : Option Text :=
  if tail.isSuffixOf t then some (t.take (t.length - tail.length)) else none

theorem before?_eq_some_iff {tail t rest : Text} :
    before? tail t = some rest ↔ t = rest ++ tail := by
  unfold before?
  split
  case isTrue h =>
    obtain ⟨u, rfl⟩ := List.isSuffixOf_iff_suffix.1 h
    simp [eq_comm]
  case isFalse h =>
    simp only [reduceCtorEq, false_iff]
    rintro rfl
    exact h (List.isSuffixOf_iff_suffix.2 (List.suffix_append _ _))

def splitOnce? (c : Char) : Text → Option (Text × Text)
  | [] => none
  | d :: t => if d = c then some ([], t) else
    (splitOnce? c t).map fun (left, right) => (d :: left, right)

/-- The parts between the occurrences of `c`: always one more than there are
occurrences. -/
def splitOn (c : Char) : Text → List Text
  | [] => [[]]
  | d :: t =>
    if d = c then [] :: splitOn c t
    else match splitOn c t with
      | [] => [[d]]
      | first :: others => (d :: first) :: others

def join (sep : Text) : List Text → Text
  | [] => []
  | [t] => t
  | t :: ts => t ++ sep ++ join sep ts

/-- The physical lines of a text, each with its line feed; only the last one
may lack it. The empty text has no line. -/
def lines : Text → List Text
  | [] => []
  | c :: t =>
    if c = '\n' then ['\n'] :: lines t
    else match lines t with
      | [] => [[c]]
      | first :: others => (c :: first) :: others

/-- Every carriage return that stands right before a line feed is dropped. A
lone carriage return stays. -/
def normalizeNewlines : Text → Text
  | [] => []
  | '\r' :: '\n' :: t => '\n' :: normalizeNewlines t
  | c :: t => c :: normalizeNewlines t

/-- Lower-case spelling of the ASCII letters; every other character stays. -/
def asciiLower (t : Text) : Text := t.map Char.toLower

end Text

end StylePrep
