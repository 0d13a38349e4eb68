import StylePrep.Proofs.ImportLine
import StylePrep.Proofs.Sample

/-!
# Imports with several targets

An import of several targets is spelled on one line, or on one line for each target. The
scopes are moved to the import once for each directive: with one line, all targets but the
first are imported into whatever scopes the target before has left open. So the two
spellings compile alike exactly as long as each target but the last leaves no block open
(`ClosesBlocks`); a block that is closed behind the last directive of a file still counts
as open.
-/

namespace StylePrep

namespace Scan

open Text Delimited

variable {functions : FunctionTable}

/-! ### Spelling -/

def quoted (name : Text) : Text := '"' :: (name ++ ['"'])

/-- What follows the first character in the line of an import. -/
def importTail (targets : List Text) : Text :=
  "import".toList ++ (' ' :: join ", ".toList (targets.map quoted) ++ [';', '\n'])

def importLine (targets : List Text) : Text := '@' :: importTail targets

def importLines (targets : List Text) : Text := (targets.map fun t => importLine [t]).flatten

/-- A name that quotes do not change and that is not left to the browser. -/
structure Quotable (name : Text) : Prop where
  string : stringTail '"' (name ++ ['"']) = some (name ++ ['"'])
  sheet : isCssTarget name = false

/-- What can be read back from a quoted item. -/
theorem quotable_of_item {space x y name : Text} {target : Target}
    (hspace : ∀ c ∈ space, isAsciiSpace c = true) (hitem : Item target)
    (hcss : target.isCss = false) (hname : target.name? = some name)
    (htext : space ++ (target.spelling ++ x) = ' ' :: (quoted name ++ y)) :
    Quotable name ∧ x = y := by
  have hdrop := congrArg (List.dropWhile isAsciiSpace) htext
  rw [dropWhile_append_of_stops hspace (hitem.stops_space x)] at hdrop
  cases hitem with
  | url => cases hcss
  | @quoted quote body hquote hbody =>
    obtain rfl : body.dropLast = name := by simpa using hname
    have hlast : body.dropLast ++ [quote] = body :=
      List.dropLast_append_getLast? quote (stringTail_getLast? hbody)
    have heq : quote :: (body ++ x) = '"' :: (body.dropLast ++ ['"'] ++ y) := by
      simpa [quoted, isAsciiSpace] using hdrop
    obtain ⟨rfl, hxy⟩ := List.cons.inj heq
    rw [hlast, List.append_cancel_left_eq] at hxy
    exact ⟨⟨by rw [hlast]; exact hbody, hcss⟩, hxy⟩

/-- The targets of an import that is spelled like this can each be spelled on their own. -/
theorem quotable_of_items {items : Targets} {rest more : Text} {targets : List Text}
    (hitems : ItemList items rest) (hcss : items.isCss = false) (hnames : items.names = targets)
    (htext : items.spelling ++ rest = ' ' :: (join ", ".toList (targets.map quoted) ++ ';' :: more)) :
    targets ≠ [] ∧ ∀ t ∈ targets, Quotable t := by
  have hname {target : Target} (hitem : Item target) (hcss : target.isCss = false) :
      ∃ name, target.name? = some name := by
    cases hitem with
    | quoted => exact ⟨_, rfl⟩
    | url => cases hcss
  induction hitems generalizing targets with
  | @comma space blank rest target others hspace hitem hblank _ ih =>
    obtain ⟨hcss₁, hcss₂⟩ := Bool.or_eq_false_iff.1 hcss
    obtain ⟨name, hname⟩ := hname hitem hcss₁
    obtain rfl : name :: others.names = targets := by simpa [hname] using hnames
    have hcomma {c : Char} {z w : Text} (hc : isBlank c = false) (h : blank ++ ',' :: z = c :: w) :
        c = ',' ∧ z = w := by
      cases blank with
      | nil => simpa [eq_comm] using h
      | cons b blank =>
        obtain ⟨rfl, -⟩ := List.cons.inj h
        rw [hblank b List.mem_cons_self] at hc
        cases hc
    cases hnames : others.names with
    | nil =>
      rw [hnames] at htext
      simp only [List.map_cons, List.map_nil, join, List.append_assoc] at htext
      obtain ⟨-, hxy⟩ := quotable_of_item hspace hitem hcss₁ hname htext
      cases (hcomma (by decide) hxy).1
    | cons name' names =>
      rw [hnames] at htext
      simp only [List.map_cons, join, List.append_assoc] at htext
      obtain ⟨hquotable, hxy⟩ := quotable_of_item hspace hitem hcss₁ hname htext
      obtain ⟨-, hrest⟩ := hcomma (by decide) hxy
      obtain ⟨-, hall⟩ := ih hcss₂ hnames hrest
      refine ⟨by simp, fun t ht => ?_⟩
      rcases List.mem_cons.1 ht with rfl | ht
      · exact hquotable
      · exact hall t ht
  | @semicolon space blank rest target hspace hitem hblank =>
    obtain ⟨name, hname⟩ := hname hitem hcss
    obtain rfl : [name] = targets := by simpa [hname] using hnames
    simp only [List.map_cons, List.map_nil, join, List.append_assoc] at htext
    obtain ⟨hquotable, -⟩ := quotable_of_item hspace hitem hcss hname htext
    exact ⟨by simp, by simpa using hquotable⟩
  | @bare space blank rest target hspace hitem hblank hrest =>
    obtain ⟨hcss₁, -⟩ := Bool.or_eq_false_iff.1 hcss
    obtain ⟨name, hname⟩ := hname hitem hcss₁
    obtain rfl : [name] = targets := by simpa [hname] using hnames
    simp only [List.map_cons, List.map_nil, join, List.append_assoc] at htext
    obtain ⟨hquotable, -⟩ := quotable_of_item hspace hitem hcss₁ hname htext
    exact ⟨by simp, by simpa using hquotable⟩

theorem Approach.quotable {pre indent post : Text} {ds : List Directive} {scope : List Nat}
    {targets : List Text} {front blanks : List Piece} {word : Bool}
    (h : Approach functions pre indent (importTail targets) post ds scope targets front blanks word) :
    targets ≠ [] ∧ ∀ t ∈ targets, Quotable t := by
  have hform := h.form
  generalize htail : importTail targets = tail at hform
  cases hform with
  | @imports items blank lineEnd _ hhead hitems hcss hblank hend =>
    unfold importTail at htail
    generalize "import".toList = keyword at htail
    have htext : items.spelling ++ (blank ++ (lineEnd ++ post)) =
        ' ' :: (join ", ".toList (items.names.map quoted) ++ ';' :: '\n' :: post) := by
      have happend := congrArg (· ++ post) htail
      simpa using happend.symm
    exact quotable_of_items hitems hcss rfl htext

/-- The import of one target on a line of its own. -/
def importPiece (name : Text) : Piece := .act '@' ⟨.imports [name], importTail [name], true⟩

theorem getLast?_importLine (targets : List Text) : (importLine targets).getLast? = some '\n' := by
  unfold importLine importTail
  generalize "import".toList = keyword
  simp [List.getLast?_cons, List.getLast?_append]

theorem piece?_importPiece (functions : FunctionTable) {name : Text} (h : Quotable name) (word : Bool)
    (rest : Text) :
    piece? functions word true '@' (importTail [name] ++ rest) = some (importPiece name) := by
  refine piece?_eq_act_iff.2 ⟨rfl, recognize_eq_some_iff.2 ⟨by simp [Admits], rest, rfl, ?_⟩⟩
  have hquote : isQuote '"' = true := by decide
  have hitem : Item ⟨quoted name, some name, false⟩ := by
    have := Item.quoted hquote h.string
    rwa [List.dropLast_concat, h.sheet] at this
  have hlist : ItemList ⟨[' '] ++ quoted name ++ [] ++ [';'], [name], false⟩ ([] ++ (['\n'] ++ rest)) :=
    .semicolon _ (List.all_eq_true.1 (by decide +kernel)) hitem (by simp)
  have hform : Form functions '@' _ rest := .imports rfl hlist rfl (by simp) (.taken rest)
  have htail : "import".toList ++ ([' '] ++ quoted name ++ [] ++ [';']) ++ [] ++ ['\n'] =
      importTail [name] := by
    unfold importTail
    generalize "import".toList = keyword
    simp [join]
  exact htail ▸ hform

/-- The pieces of one line for each target. -/
theorem walk_importLines {targets : List Text} (hne : targets ≠ []) (h : ∀ t ∈ targets, Quotable t)
    (word : Bool) (post : Text) :
    Walk functions post word true (importLines targets) (targets.map importPiece) false true := by
  induction targets generalizing word with
  | nil => exact absurd rfl hne
  | cons name targets ih =>
    have hword : endsWord (importPiece name).text = false :=
      endsWord_of_newline (getLast?_importLine [name])
    have hrest : Walk functions post (endsWord (importPiece name).text) true (importLines targets)
        (targets.map importPiece) false true := by
      cases targets with
      | nil =>
        rw [hword]
        exact .done _ _
      | cons => exact ih (by simp) (fun t ht => h t (List.mem_cons_of_mem _ ht)) _
    have hpiece := piece?_importPiece functions (h name List.mem_cons_self) word
      (importLines targets ++ post)
    exact .step hpiece rfl hrest

end Scan

namespace Assembly

open Step Scan VariableTable

variable {options : Options} {loader : Loader} {nested : Player} {dir : Path}

theorem returns_playAll_cons {name : Text} {targets : List Text} {out out' : Text} {t t' : Session} :
    Returns (playAll options loader nested dir (name :: targets) out) t out' t' ↔
      ∃ out₁ t₁, Returns (playAll options loader nested dir [name] out) t out₁ t₁ ∧
        Returns (playAll options loader nested dir targets out₁) t₁ out' t' := by
  simp only [playAll, returns_bind, returns_pure]
  constructor
  · rintro ⟨child, t₁, hchild, hrest⟩
    exact ⟨_, t₁, ⟨child, t₁, hchild, rfl, rfl⟩, hrest⟩
  · rintro ⟨_, t₁, ⟨child, _, hchild, rfl, rfl⟩, hrest⟩
    exact ⟨child, t₁, hchild, hrest⟩

/-- What targets do does not depend on the output in front of them. -/
theorem returns_playAll_out {targets : List Text} {out out' : Text} {t t' : Session}
    (h : Returns (playAll options loader nested dir targets out) t out' t') (out₁ : Text) :
    ∃ out₁', Returns (playAll options loader nested dir targets out₁) t out₁' t' := by
  induction targets generalizing out out₁ t with
  | nil => exact ⟨out₁, returns_pure.2 ⟨rfl, (returns_pure.1 h).2⟩⟩
  | cons name targets ih =>
    obtain ⟨child, t₁, hchild, hrest⟩ := returns_bind.1 h
    obtain ⟨out₁', hrest'⟩ := ih hrest (out₁.spliced child)
    exact ⟨out₁', returns_bind.2 ⟨child, t₁, hchild, hrest'⟩⟩

/-- Whichever targets have been played, with some left, the innermost scope is the same
as before. -/
def Settles (options : Options) (loader : Loader) (nested : Player) (dir : Path)
    (targets : List Text) (t : Session) : Prop :=
  ∀ n < targets.length, ∀ out out' t',
    Returns (playAll options loader nested dir (targets.take n) out) t out' t' →
      t'.vars.innermost = t.vars.innermost

/-- Targets that leave no scope open can be played on one line each. -/
theorem returns_importPieces {targets : List Text} (hne : targets ≠ []) {stage stage' : Stage}
    {t t' : Session} (hdepth : (t.vars.shift stage.low stage.depth).innermost = stage.depth)
    (hsettles : Settles options loader nested dir targets
      { t with vars := t.vars.shift stage.low stage.depth }) :
    Returns (playPieces options loader nested dir stage (targets.map importPiece)) t stage' t' ↔
      ∃ out, Returns (playAll options loader nested dir targets stage.unindented)
        { t with vars := t.vars.shift stage.low stage.depth } out t' ∧ stage' = stage.landed out := by
  induction targets generalizing stage t with
  | nil => exact absurd rfl hne
  | cons name targets ih =>
    rw [List.map_cons, playPieces, returns_bind]
    simp only [importPiece, returns_playPiece_imports (getLast?_importLine [name])]
    by_cases htargets : targets = []
    · subst htargets
      constructor
      · rintro ⟨stage₁, t₁, ⟨out, hout, rfl⟩, hrest⟩
        obtain ⟨rfl, rfl⟩ := returns_pure.1 hrest
        exact ⟨out, hout, rfl⟩
      · rintro ⟨out, hout, rfl⟩
        exact ⟨_, t', ⟨out, hout, rfl⟩, returns_pure.2 ⟨rfl, rfl⟩⟩
    · -- Behind the first target the scopes are those in front of it.
      have hnext {out : Text} {t₁ : Session}
          (hfirst : Returns (playAll options loader nested dir [name] stage.unindented)
            { t with vars := t.vars.shift stage.low stage.depth } out t₁) :
          Returns (playPieces options loader nested dir (stage.landed out) (targets.map importPiece)) t₁
              stage' t' ↔
            ∃ out', Returns (playAll options loader nested dir targets out) t₁ out' t' ∧
              stage' = stage.landed out' := by
        have hinner : t₁.vars.innermost = stage.depth :=
          (hsettles 1 (by simpa using List.length_pos_of_ne_nil htargets) _ _ _ hfirst).trans hdepth
        have hshift : t₁.vars.shift (stage.landed out).low (stage.landed out).depth = t₁.vars :=
          shift_self hinner
        have hrest := @ih htargets (stage.landed out) t₁
        rw [hshift] at hrest
        have hsettles' : Settles options loader nested dir targets t₁ := by
          intro n hn out₁ out₂ t₂ hdone
          obtain ⟨out₃, hdone'⟩ := returns_playAll_out hdone out
          rw [hinner, ← hdepth]
          exact hsettles (n + 1) (Nat.succ_lt_succ hn) stage.unindented out₃ t₂
            (returns_playAll_cons.2 ⟨out, t₁, hfirst, hdone'⟩)
        rw [hrest hinner hsettles', Stage.unindented_landed]
        rfl
      constructor
      · rintro ⟨_, t₁, ⟨out, hfirst, rfl⟩, hrest⟩
        obtain ⟨out', hout', rfl⟩ := (hnext hfirst).1 hrest
        exact ⟨out', returns_playAll_cons.2 ⟨out, t₁, hfirst, hout'⟩, rfl⟩
      · rintro ⟨out', hout', rfl⟩
        obtain ⟨out, t₁, hfirst, hrest⟩ := returns_playAll_cons.1 hout'
        exact ⟨_, t₁, ⟨out, hfirst, rfl⟩, (hnext hfirst).2 ⟨out', hrest, rfl⟩⟩

/-! ### Compilations -/

/-- Whichever targets have been imported, with some left, the innermost scope is the same
as before: no target but the last leaves a block open. -/
def ClosesBlocks (options : Options) (loader : Loader) (nested : Importer) (file : FileId) (dir : Path)
    (targets : List Text) (s : Session) : Prop :=
  ∀ n < targets.length, ∀ map s',
    Returns (importAll options loader nested file dir (targets.take n) .empty) s map s' →
      s'.vars.innermost = s.vars.innermost

instance {nested : Importer} {file : FileId} {targets : List Text} {s : Session} :
    Decidable (ClosesBlocks options loader nested file dir targets s) :=
  inferInstanceAs (Decidable (∀ n < targets.length, _))

theorem ClosesBlocks.settles {nested : Importer} {player : Player} (hnested : Mirrors nested player)
    {file : FileId} {targets : List Text} {s : Session}
    (h : ClosesBlocks options loader nested file dir targets s) :
    Settles options loader player dir targets s.bare := by
  intro n hn out out' t' hplay
  have hagree := playAll_agree options loader file dir hnested (targets.take n) (s := s) LineMap.Has.empty
  obtain ⟨out₁', hplay'⟩ := returns_playAll_out hplay []
  obtain ⟨map', s', himport⟩ := hagree.returns_iff.2 ⟨_, _, hplay'⟩
  have hm := hagree.related himport hplay'
  rw [hm.session]
  change s'.vars.bare.innermost = s.vars.bare.innermost
  rw [innermost_bare, innermost_bare]
  exact h n hn _ _ himport

variable (loader) in
/-- Where an import of several targets is reached, the pieces that import them one by one
do the same. -/
theorem playText_importLine {player : Player} {pre indent tail post : Text} {ds : List Directive}
    {scope : List Nat} {targets : List Text} {front blanks : List Piece} {word : Bool}
    (h : Approach options.functions pre indent tail post ds scope targets front blanks word)
    (hne : targets ≠ []) (hquotable : ∀ t ∈ targets, Quotable t) {t : Session}
    (hsettles : ∀ stage t₁, Returns (playPieces options loader player dir (.start t.vars.innermost)
        (front ++ blanks)) t stage t₁ →
      (t₁.vars.shift stage.low stage.depth).innermost = stage.depth ∧
        Settles options loader player dir targets
          { t₁ with vars := t₁.vars.shift stage.low stage.depth }) (out : Text) (t' : Session) :
    Returns (playText options loader player (pre ++ (indent ++ '@' :: tail) ++ post) dir) t out t' ↔
      Returns (playText options loader player (pre ++ (indent ++ importLines targets) ++ post) dir) t
        out t' := by
  obtain ⟨word', hwalk⟩ := h.walk_indent (importLines targets ++ post)
  have hlex := (hwalk.append (walk_importLines hne hquotable word' post)).lex_eq
  rw [List.append_assoc pre] at hlex
  rw [returns_playText, returns_playText, h.lex_eq, hlex, List.append_assoc (front ++ blanks)]
  refine and_congr_right fun _ => exists_congr fun stage' => and_congr_left fun _ => ?_
  rw [playPieces_append _ (front ++ blanks), playPieces_append _ (front ++ blanks), returns_bind,
    returns_bind]
  refine exists_congr fun stage => exists_congr fun t₁ => and_congr_right fun hfront => ?_
  obtain ⟨hdepth, hsettles⟩ := hsettles stage t₁ hfront
  rw [playPieces, playPieces_append, returns_bind, returns_bind]
  simp only [returns_importPieces hne hdepth hsettles, returns_playPiece_imports h.lineEnd]

/-- An import of several targets on one line and the imports of its targets on a line each
compile alike, as long as no target but the last leaves a block open. -/
theorem assembleRoot_importLine {path : Path} {w : Workspace} {pre indent post : Text}
    {ds : List Directive} {d : Directive} {targets : List Text}
    (halone : ImportAlone options.functions pre (indent ++ importLine targets) post ds d targets)
    (hindent : ∀ c ∈ indent, Text.isBlank c = true)
    (hcloses : ∀ map s,
      Returns (addDirectives options loader (importerAt options loader w.tree.fileCount) 0 path dir 0
        [] .empty ds) (start w path (pre ++ (indent ++ importLine targets) ++ post)) map s →
      ClosesBlocks options loader (importerAt options loader w.tree.fileCount) 0 dir targets
        { s with vars := s.vars.sync 0 0 d.scope }) :
    Agree (fun c w₁ c' w₂ => c'.map.buffer = c.map.buffer ∧ w₂ = w₁)
      (assembleRoot options loader path (pre ++ (indent ++ importLine targets) ++ post) dir)
      (assembleRoot options loader path (pre ++ (indent ++ importLines targets) ++ post) dir) w w := by
  obtain ⟨front, blanks, word, h⟩ := halone.approach_of_blank hindent
  obtain ⟨hne, hquotable⟩ := h.quotable
  have hmirrors := playerAt_mirrors options loader w.tree.fileCount
  set text := pre ++ (indent ++ importLine targets) ++ post
  have hsource : (start w path text).files[0]? = some ⟨path, text, none⟩ := rfl
  have hreach := reach loader hmirrors h hsource path dir
  have hsame := playText_importLine loader h hne hquotable
    (t := (start w path text).bare) fun stage t₁ hplay => by
      obtain ⟨map, s, hs⟩ := hreach.returns_iff.2 ⟨_, _, hplay⟩
      obtain ⟨-, hsession, hdepth⟩ := hreach.related hs hplay
      have hvars := congrArg Session.vars hsession
      refine ⟨?_, hsession ▸ (hcloses map s hs).settles hmirrors⟩
      rw [show t₁.vars.shift stage.low stage.depth = _ from hvars, ← hdepth]
      exact innermost_bare _
  rw [← play_eq] at hsame
  refine assembleRoot_agree (R := fun out out' => out' = out) ((Agree.of_same hsame).mono ?_)
  rintro out t out' t' ⟨rfl, rfl⟩
  exact ⟨rfl, rfl⟩

/-- The second of two files uses a variable of the first. -/
theorem assembleRoot_importLine_variable :
    ∃ c w, Returns (assembleRoot Sample.options
        (Preprocess.loaderFor Sample.options
          (Sample.tree [("a.scss", "$u: \"x\";\n"), ("b.scss", "y { b: image-url($u); }\n")]) ⟨['/']⟩)
        ⟨['-']⟩ "p;\n @import \"a\";\n@import \"b\";\nq;\n".toList ⟨['/']⟩)
        (Sample.workspace [("a.scss", "$u: \"x\";\n"), ("b.scss", "y { b: image-url($u); }\n")]) c w ∧
      c.map.buffer = "p;\n$u: \"x\";\ny \x7b b: url(\"images/x\"); \x7d\nq;\n".toList := by
  set files := [("a.scss", "$u: \"x\";\n"), ("b.scss", "y { b: image-url($u); }\n")]
  set loader := Preprocess.loaderFor Sample.options (Sample.tree files) ⟨['/']⟩
  have halone : ImportAlone Sample.options.functions "p;\n".toList
      (" ".toList ++ importLine ["a".toList, "b".toList]) "q;\n".toList
      [⟨.plain, ⟨⟨0, 1, 1⟩, ⟨3, 2, 1⟩⟩, "p;\n".toList, []⟩]
      ⟨.imports ["a".toList, "b".toList], ⟨⟨3, 2, 1⟩, ⟨22, 3, 1⟩⟩, " @import \"a\", \"b\";\n".toList, []⟩
      ["a".toList, "b".toList] :=
    ⟨⟨[⟨.plain, ⟨⟨22, 3, 1⟩, ⟨25, 4, 1⟩⟩, "q;\n".toList, []⟩], by decide +kernel⟩, by decide, by decide,
      by decide, by decide, by decide⟩
  have hagree := @assembleRoot_importLine Sample.options loader ⟨['/']⟩ ⟨['-']⟩
    (Sample.workspace files) _ _ _ _ _ _ halone (List.all_eq_true.1 (by decide +kernel))
    (by decide +kernel)
  have heval : (exec (assembleRoot Sample.options loader ⟨['-']⟩
      ("p;\n".toList ++ (" ".toList ++ importLine ["a".toList, "b".toList]) ++ "q;\n".toList) ⟨['/']⟩)
      (Sample.workspace files)).1.toOption.map (·.map.buffer) =
    some "p;\n$u: \"x\";\ny \x7b b: url(\"images/x\"); \x7d\nq;\n".toList := by decide +kernel
  obtain ⟨c, w, hreturns, hbuffer⟩ := exists_returns heval
  obtain ⟨c', w', hreturns'⟩ := hagree.returns_iff.1 ⟨c, w, hreturns⟩
  exact ⟨c', w', hreturns', (hagree.related hreturns hreturns').1.trans hbuffer⟩

/-- A block of the first of two files that is closed behind its last directive still counts
as open: on one line, the second file is imported into this block, and its variable is lost
behind the import. On two lines it is not. -/
theorem importLine_blockOpen :
    Sample.output? [("a.scss", "x { $c: d; }\n"), ("b.scss", "$v: \"l.png\";\n")]
        "@import \"a\", \"b\";\ny { b: image-url($v); }\n" = none ∧
      Sample.output? [("a.scss", "x { $c: d; }\n"), ("b.scss", "$v: \"l.png\";\n")]
        "@import \"a\";\n@import \"b\";\ny { b: image-url($v); }\n" =
          some "x \x7b $c: d; \x7d\n$v: \"l.png\";\ny \x7b b: url(\"images/l.png\"); \x7d\n".toList := by
  decide +kernel

end Assembly

end StylePrep
