import StylePrep.Proofs.Below
import StylePrep.Proofs.Fingerprints
import StylePrep.Proofs.Nested
import StylePrep.Proofs.Remains

/-!
# The images behind the frames of a sheet

A sheet is packed from images below the image directory, and each of its frames remembers the path
of its image. A call of `sprite-file` gives that path relative to the image directory, in quotes,
and the functions that read images join what they are given to the image directory again. The main
result is `spriteFile_names_frame`: this goes there and back, whatever characters the names of
files and directories have.

A sheet may also come from the cache, where it was put by an earlier call, perhaps of another style
sheet. A cache is a list of sheets and keys, and a key is a hash, so what a sheet was made from is
recorded beside the cache (`SheetCache.Records`). Each run extends the record
(`extends_assemble`). If none of the things that were hashed collides with what is asked for, the
frames of a cached sheet are images below the image directory as well (`frame_path_mem_walk`).
-/

namespace StylePrep

open Text Step

/-! ### Where frames come from -/

/-- What the sheets of a cache were made from, one after the other. A sheet has its frames from
the images that its key was made from. -/
def SheetCache.Records (cache : SheetCache) (made : List Fingerprint.Subject) : Prop :=
  List.Forall₂ (fun entry s => s.key = entry.1 ∧
    ∀ frame ∈ entry.2.frames, frame.source.path.text.utf8 ∈ s.sources.map Prod.fst) cache.sheets made

theorem SheetCache.records_empty : empty.Records [] := .nil

theorem SheetCache.Records.add {cache : SheetCache} {made : List Fingerprint.Subject}
    (h : cache.Records made) {s : Fingerprint.Subject} {sheet : Sheet}
    (hsheet : ∀ frame ∈ sheet.frames, frame.source.path.text.utf8 ∈ s.sources.map Prod.fst) :
    SheetCache.Records ⟨cache.sheets ++ [(s.key, sheet)]⟩ (made ++ [s]) :=
  List.rel_append h (.cons ⟨rfl, hsheet⟩ .nil)

theorem exists_of_forall₂ {α β : Type} {R : α → β → Prop} {as : List α} {bs : List β}
    (h : List.Forall₂ R as bs) {a : α} (ha : a ∈ as) : ∃ b ∈ bs, R a b := by
  induction h with
  | nil => cases ha
  | @cons first second as bs hfirst _ ih =>
    rcases List.mem_cons.1 ha with rfl | ha
    · exact ⟨second, List.mem_cons_self, hfirst⟩
    · obtain ⟨b, hb, hR⟩ := ih ha
      exact ⟨b, List.mem_cons_of_mem _ hb, hR⟩

theorem SheetCache.Records.exists_mem {cache : SheetCache} {made : List Fingerprint.Subject}
    (h : cache.Records made) {key : Text} {sheet : Sheet} (hget : cache.get? key = some sheet) :
    ∃ s ∈ made, s.key = key ∧
      ∀ frame ∈ sheet.frames, frame.source.path.text.utf8 ∈ s.sources.map Prod.fst := by
  obtain ⟨before, after, hsheets, -⟩ := List.lookup_eq_some_iff.1 hget
  have hmem : (key, sheet) ∈ cache.sheets := by rw [hsheets]; simp
  exact exists_of_forall₂ h hmem

/-- A sheet that is given out was in the cache, or it was packed and put there. -/
theorem SheetCache.getOrPack_eq_ok {σ : Type} {cache cache' : SheetCache} {key : Text}
    {pack : σ → Except SpriteError Sheet × σ} {s s' : σ} {sheet : Sheet}
    (h : cache.getOrPack key pack s = (.ok sheet, cache', s')) :
    (cache.get? key = some sheet ∧ cache' = cache ∧ s' = s) ∨
      (pack s = (.ok sheet, s') ∧ cache' = ⟨cache.sheets ++ [(key, sheet)]⟩) := by
  unfold getOrPack at h
  split at h
  case h_1 found hget =>
    cases h
    exact .inl ⟨hget, rfl, rfl⟩
  case h_2 =>
    split at h
    case h_1 hpack =>
      cases h
      exact .inr ⟨hpack, rfl⟩
    case h_2 => cases h

theorem SheetCache.getOrPack_eq_error {σ : Type} {cache cache' : SheetCache} {key : Text}
    {pack : σ → Except SpriteError Sheet × σ} {s s' : σ} {e : SpriteError}
    (h : cache.getOrPack key pack s = (.error e, cache', s')) : cache' = cache := by
  unfold getOrPack at h
  split at h
  · cases h
  · split at h <;> cases h
    rfl

/-- A frame is one of the images that were packed. -/
theorem Sheet.source_mem_of_pack {sources : List SpriteSource} {options : PackOptions}
    {tree tree' : Tree} {sheet : Sheet} (h : pack sources options tree = (.ok sheet, tree'))
    {frame : Frame} (hframe : frame ∈ sheet.frames) : frame.source ∈ sources := by
  unfold pack at h
  split at h
  · cases h
  · dsimp only at h
    split at h
    · cases h
    · split at h
      · cases h
      · obtain ⟨rfl, -⟩ : _ = sheet ∧ _ := by simpa using h
        obtain ⟨⟨source, placed⟩, hmem, rfl⟩ := List.mem_map.1 hframe
        exact (List.of_mem_zip hmem).1

namespace Expand

variable {config : SpriteConfig} {pattern : Text} {glob : Glob} {spacing : Nat}
variable {w w' : Workspace} {sheet : Sheet} {made : List Fingerprint.Subject}

/-- What the sheet of a pattern is made from. -/
def subject (config : SpriteConfig) (tree : Tree) (glob : Glob) (pattern : Text) (spacing : Nat) :
    Fingerprint.Subject :=
  .ofTree tree pattern (collectImages config glob tree) spacing config.genDir

/-- The sheet of a sprite map is in the cache, or it is packed and put there. -/
theorem returns_spriteMap (h : Returns (spriteMap config pattern spacing) w sheet w') :
    ∃ glob, Glob.parse .withinName pattern = .ok glob ∧
      let s := subject config w.tree glob pattern spacing
      (w.cache.get? s.key = some sheet ∧ w' = w) ∨
        (w'.cache = ⟨w.cache.sheets ++ [(s.key, sheet)]⟩ ∧
          ∀ frame ∈ sheet.frames, frame.source ∈ collectImages config glob w.tree) := by
  rw [Returns, exec_spriteMap] at h
  split at h
  · cases h
  · rename_i glob hglob
    refine ⟨glob, hglob, ?_⟩
    dsimp only at h
    split at h
    · cases h
    · generalize hresult : w.cache.getOrPack _ _ w.tree = result at h
      obtain ⟨_ | packed, cache, tree⟩ := result
      · cases h
      · cases h
        rcases SheetCache.getOrPack_eq_ok hresult with ⟨hget, rfl, rfl⟩ | ⟨hpack, hcache⟩
        · exact .inl ⟨hget, rfl⟩
        · exact .inr ⟨hcache, fun frame => Sheet.source_mem_of_pack hpack⟩

/-- A sprite map that fails puts nothing into the cache. -/
theorem cache_eq_of_spriteMap_error {e : Error}
    (h : exec (spriteMap config pattern spacing) w = (.error e, w')) : w'.cache = w.cache := by
  rw [exec_spriteMap] at h
  split at h
  · cases h
    rfl
  · dsimp only at h
    split at h
    · cases h
      rfl
    · generalize hresult : w.cache.getOrPack _ _ w.tree = result at h
      obtain ⟨_ | packed, cache, tree⟩ := result
      · cases h
        exact SheetCache.getOrPack_eq_error hresult
      · cases h

/-- What sheets were made from goes on to be recorded. -/
def Extends (w w' : Workspace) : Prop :=
  ∀ made, w.cache.Records made → ∃ more, w'.cache.Records (made ++ more)

theorem path_text_mem {source : SpriteSource} {tree : Tree}
    (h : source ∈ collectImages config glob tree) :
    source.path.text.utf8 ∈ (subject config tree glob pattern spacing).sources.map Prod.fst := by
  rw [subject, Fingerprint.Subject.ofTree, List.map_map]
  exact List.mem_map_of_mem h

theorem extends_spriteMap (config : SpriteConfig) (pattern : Text) (spacing : Nat) :
    Step.Advances Extends (spriteMap config pattern spacing) := by
  intro w made hrecords
  rcases hexec : exec (spriteMap config pattern spacing) w with ⟨_ | sheet, w'⟩
  case error =>
    refine ⟨[], ?_⟩
    rw [cache_eq_of_spriteMap_error hexec, List.append_nil]
    exact hrecords
  case ok =>
    obtain ⟨glob, -, ⟨-, rfl⟩ | ⟨hcache, hframes⟩⟩ := returns_spriteMap hexec
    · exact ⟨[], by rwa [List.append_nil]⟩
    · refine ⟨[subject config w.tree glob pattern spacing], ?_⟩
      rw [hcache]
      exact hrecords.add fun frame hframe => path_text_mem (hframes frame hframe)

/-- Whatever is compiled, there is a record of what the sheets were made from. -/
theorem extends_assemble (options : Options) (loader : Loader) (depth : Nat) (file : FileId)
    (dir : Path) : Assembly.Advances Extends (Assembly.assemble options loader depth file dir) := by
  refine Assembly.advances_assemble (fun w made h => ⟨[], by rwa [List.append_nil]⟩) ?_
    (extends_spriteMap options.sprites) loader depth file dir
  intro w w' w'' h h' made hrecords
  obtain ⟨more, hmore⟩ := h made hrecords
  obtain ⟨rest, hrest⟩ := h' _ hmore
  exact ⟨more ++ rest, by rwa [List.append_assoc] at hrest⟩

theorem path_mem_walk {source : SpriteSource} {tree : Tree}
    (h : source ∈ collectImages config glob tree) : source.path ∈ tree.walk config.imageDir := by
  obtain ⟨p, hp, hsource⟩ := List.mem_filterMap.1 h
  obtain ⟨relative, -, hsource⟩ := Option.bind_eq_some_iff.1 hsource
  split at hsource
  · cases hsource
    exact hp
  · cases hsource

/-- The images behind the frames of a sheet were found below the image directory, even if the
sheet was packed before. -/
theorem frame_path_mem_walk (hrecords : w.cache.Records made)
    (hglob : Glob.parse .withinName pattern = .ok glob)
    (hkeys : ∀ s ∈ made, s.key = (subject config w.tree glob pattern spacing).key →
      s = subject config w.tree glob pattern spacing)
    (h : Returns (spriteMap config pattern spacing) w sheet w') {frame : Frame}
    (hframe : frame ∈ sheet.frames) : frame.source.path ∈ w.tree.walk config.imageDir := by
  obtain ⟨glob', hglob', hcase⟩ := returns_spriteMap h
  obtain rfl : glob' = glob := Except.ok.inj (hglob'.symm.trans hglob)
  rcases hcase with ⟨hget, -⟩ | ⟨-, hframes⟩
  · obtain ⟨s, hs, hkey, hframes⟩ := hrecords.exists_mem hget
    have htext := hframes frame hframe
    rw [hkeys s hs hkey, subject, Fingerprint.Subject.ofTree, List.map_map] at htext
    obtain ⟨source, hsource, heq⟩ := List.mem_map.1 htext
    have hpath : source.path = frame.source.path := congrArg Path.mk (utf8_injective heq)
    exact hpath ▸ path_mem_walk hsource
  · exact path_mem_walk (hframes frame hframe)

/-! ### The name of an image -/

/-- The name of an image file, as seen from the image directory. -/
def fileText (config : SpriteConfig) (frame : Frame) : Text :=
  ((frame.source.path.below? config.imageDir).getD frame.source.path).slashed

theorem unquote_quote (t : Text) : unquote (quote t) = t := by
  have hstops : Stops isSpace (quote t) := by
    intro c hc
    obtain rfl : '"' = c := Option.some.inj hc
    decide
  have htrim : trim (quote t) = quote t := by
    rw [trim, trimStart_of_stops hstops, quote, trimEnd_concat _ (by decide)]
  have hopen : after? ['"'] (quote t) = some (t ++ ['"']) := after?_eq_some_iff.2 rfl
  have hclose : before? ['"'] (t ++ ['"']) = some t := before?_eq_some_iff.2 rfl
  rw [unquote, htrim]
  dsimp only
  rw [hopen]
  change ((before? ['"'] (t ++ ['"'])).orElse _).getD _ = t
  rw [hclose]
  rfl

/-- The name leads back to the image. -/
theorem join_fileText {tree : Tree} (hproper : tree.Proper) {frame : Frame}
    (hwalk : frame.source.path ∈ tree.walk config.imageDir) :
    (config.imageDir.join ⟨fileText config frame⟩).same frame.source.path = true ∧
      (tree.isDir config.imageDir = true →
        config.imageDir.join ⟨fileText config frame⟩ = frame.source.path) := by
  obtain ⟨hdir, steps, hsteps, hcomponents, hspelled⟩ :=
    Tree.exists_steps_of_mem_walk hproper.named hwalk
  obtain ⟨r, hr, hbelow⟩ := Path.exists_below? (Path.components_ne_nil hdir) hcomponents
  have htext : fileText config frame = r.slashed := by rw [fileText, hr, Option.getD_some]
  rw [htext]
  refine ⟨Path.same_join_slashed hdir hsteps hcomponents hbelow, fun h => ?_⟩
  rw [hspelled h, Path.slashed_eq, hbelow]

/-! ### Calls -/

section Calls

variable {resolve : Text → Task Argument} {call : Invocation} {indent n : Text}
variable {v v' u : Workspace} {e : Expansion} {frame : Frame}

/-- The arguments of a call are a sheet and a name. -/
def Picks (config : SpriteConfig) (resolve : Text → Task Argument) (call : Invocation)
    (sheet : Sheet) (n : Text) (v v' : Workspace) : Prop :=
  call.args.length = 2 ∧ ∃ v₁, Returns (argument resolve call 0) v (.sheet sheet) v₁ ∧
    Returns (textArg config resolve call 1) v₁ n v'

/-- The media type of an image of this name, unless the second argument gives one. -/
def mediaArg (config : SpriteConfig) (resolve : Text → Task Argument) (call : Invocation)
    (name : Text) : Task Text :=
  if 1 < call.args.length then textArg config resolve call 1
  else pure (mimeType (config.imageDir.join ⟨name⟩))

def inlined (mime : Text) (bytes : Bytes) : Text :=
  url (quote ("data:".toList ++ mime ++ ";base64,".toList ++ Encoding.Base64.encode bytes))

theorem returns_checkArity {least most : Nat} :
    Returns (call.checkArity least most) v () v' ↔
      (least ≤ call.args.length ∧ call.args.length ≤ most) ∧ v' = v := by
  unfold Invocation.checkArity
  split
  case isTrue h => simp [h]
  case isFalse h =>
    constructor
    · exact fun hreturns => absurd hreturns not_returns_throw
    · exact fun hrange => absurd hrange.1 h

theorem returns_plain {text : Task Text} :
    Returns (plain text) v e v' ↔ ∃ t, Returns text v t v' ∧ e = ⟨t, none⟩ := by
  unfold plain
  rw [returns_bind]
  constructor
  · rintro ⟨t, v₁, htext, hpure⟩
    obtain ⟨rfl, rfl⟩ := returns_pure.1 hpure
    exact ⟨t, htext, rfl⟩
  · rintro ⟨t, htext, rfl⟩
    exact ⟨t, v', htext, returns_pure.2 ⟨rfl, rfl⟩⟩

/-- A variable that holds a sheet, and a text. -/
theorem picks_of_variable {vars : VariableTable} {steps : Nat} {name raw label : Text}
    (hargs : call.args = [raw, label]) (href : reference? (trim raw) = some name)
    (hget : vars.get? name = some (.sheet sheet)) (hplain : reference? (trim label) = none)
    (hcall : spriteCall? label = none) :
    Picks config (Expand.resolve config vars (steps + 1) call) call sheet (unquote label) v v := by
  refine ⟨by rw [hargs]; rfl, v, ?_, returns_bind.2 ⟨.text (unquote label), v, ?_, ?_⟩⟩
  · rw [argument_of_getElem? (by rw [hargs]; rfl), resolve_of_sheet href hget]
    exact returns_pure.2 ⟨rfl, rfl⟩
  · rw [argument_of_getElem? (by rw [hargs]; rfl), resolve_of_text hplain hcall]
    exact returns_pure.2 ⟨rfl, rfl⟩
  · exact returns_pure.2 ⟨rfl, rfl⟩

theorem Picks.returns_sheetAndFrame (h : Picks config resolve call sheet n v v')
    (hframe : sheet.frame? n = some frame) :
    Returns (sheetAndFrame config resolve call) v (sheet, frame) v' := by
  obtain ⟨-, v₁, hsheet, hname⟩ := h
  refine returns_bind.2 ⟨sheet, v₁, returns_bind.2 ⟨_, v₁, hsheet, returns_pure.2 ⟨rfl, rfl⟩⟩, ?_⟩
  refine returns_bind.2 ⟨frame, v', returns_bind.2 ⟨n, v', hname, ?_⟩, returns_pure.2 ⟨rfl, rfl⟩⟩
  rw [hframe]
  exact returns_pure.2 ⟨rfl, rfl⟩

/-- What a call is expanded to that asks for the file of an image. -/
theorem Picks.returns_spriteFile (h : Picks config resolve call sheet n v v')
    (hframe : sheet.frame? n = some frame) :
    Returns (expandFunction config resolve call indent .spriteFile) v
      ⟨quote (fileText config frame), none⟩ v' := by
  refine returns_plain.2 ⟨_, returns_bind.2 ⟨(), v, ?_, ?_⟩, rfl⟩
  · exact returns_checkArity.2 ⟨by rw [h.1]; omega, rfl⟩
  · exact returns_bind.2 ⟨_, v', h.returns_sheetAndFrame hframe, returns_pure.2 ⟨rfl, rfl⟩⟩

/-- The first argument of a call is itself a call, which asks for the file of the image with this
name in the sheet. -/
def NestsFile (config : SpriteConfig) (vars : VariableTable) (call : Invocation) (sheet : Sheet)
    (n : Text) (v v' : Workspace) : Prop :=
  ∃ raw args, call.args[0]? = some raw ∧
    Call.parse? raw = some ⟨SpriteFunction.spriteFile.name, args⟩ ∧
    let nested : Invocation := ⟨SpriteFunction.spriteFile.name, args, call.line⟩
    Picks config (Expand.resolve config vars (maxSteps - 1) nested) nested sheet n v v'

/-- Such an argument is the name itself, without quotes. -/
theorem NestsFile.returns_textArg {vars : VariableTable}
    (h : NestsFile config vars call sheet n v v') (hframe : sheet.frame? n = some frame) :
    Returns (textArg config (Expand.resolve config vars maxSteps call) call 0) v
      (fileText config frame) v' := by
  obtain ⟨raw, args, hraw, hcall, hpicks⟩ := h
  have hsprite := spriteCall?_eq_some_iff.2 ⟨hcall, SpriteFunction.spriteFile.ofName?_name⟩
  refine returns_bind.2 ⟨.text (fileText config frame), v', ?_, returns_pure.2 ⟨rfl, rfl⟩⟩
  rw [argument_of_getElem? hraw, maxSteps,
    resolve_of_spriteCall (reference?_of_parse? hcall) hsprite, map_eq_pure_bind]
  refine returns_bind.2 ⟨_, v', hpicks.returns_spriteFile hframe, returns_pure.2 ⟨?_, rfl⟩⟩
  rw [Expansion.asArgument, unquote_quote]

variable {size : Size} {bytes : Bytes} {t : Text}

theorem sizeIn_eq_ok_iff {tree : Tree} : sizeIn config t tree = .ok size ↔
    tree.isFile (config.imageDir.join ⟨t⟩) = true ∧
      Image.size? tree (config.imageDir.join ⟨t⟩) = some size := by
  unfold sizeIn
  split
  case isTrue hfile =>
    cases hsize : Image.size? tree (config.imageDir.join ⟨t⟩) <;> simp [hfile]
  case isFalse hfile => simp [hfile]

theorem contentIn_eq_ok_iff {tree : Tree} : contentIn config t tree = .ok bytes ↔
    tree.read (config.imageDir.join ⟨t⟩) = .ok bytes := by
  unfold contentIn
  cases tree.read (config.imageDir.join ⟨t⟩) <;> simp

variable (ht : Returns (textArg config resolve call 0) v t v')
include ht

/-- The size of an image is read from the file that the argument names. -/
theorem returns_size_iff (f : Size → Text) :
    Returns (plain do
        call.checkArity 1 1
        let size ← imageSize config resolve call
        pure (f size)) v e u ↔
      call.args.length = 1 ∧ u = v' ∧ ∃ size,
        v'.tree.isFile (config.imageDir.join ⟨t⟩) = true ∧
        Image.size? v'.tree (config.imageDir.join ⟨t⟩) = some size ∧ e = ⟨f size, none⟩ := by
  have himage : imageSize config resolve call = textArg config resolve call 0 >>= sizeOf config := rfl
  rw [returns_plain]
  constructor
  · rintro ⟨text, hreturns, rfl⟩
    obtain ⟨⟨⟩, v₁, harity, hrest⟩ := returns_bind.1 hreturns
    obtain ⟨hlength, rfl⟩ := returns_checkArity.1 harity
    obtain ⟨size, v₂, hsize, hpure⟩ := returns_bind.1 hrest
    obtain ⟨rfl, rfl⟩ := returns_pure.1 hpure
    rw [himage] at hsize
    obtain ⟨t', v₃, ht', hread⟩ := returns_bind.1 hsize
    obtain ⟨rfl, rfl⟩ := Returns.det ht' ht
    rw [Returns, exec_sizeOf] at hread
    obtain ⟨hfound, rfl⟩ := Prod.mk.inj hread
    obtain ⟨hfile, hfound⟩ := sizeIn_eq_ok_iff.1 hfound
    exact ⟨by omega, rfl, size, hfile, hfound, rfl⟩
  · rintro ⟨hlength, rfl, size, hfile, hfound, rfl⟩
    have hread : Returns (sizeOf config t) u size u := by
      rw [Returns, exec_sizeOf, sizeIn_eq_ok_iff.2 ⟨hfile, hfound⟩]
    have hsize : Returns (imageSize config resolve call) v size u := by
      rw [himage]
      exact returns_bind.2 ⟨t, u, ht, hread⟩
    refine ⟨f size, returns_bind.2 ⟨(), v, ?_, ?_⟩, rfl⟩
    · exact returns_checkArity.2 ⟨by omega, rfl⟩
    · exact returns_bind.2 ⟨size, u, hsize, returns_pure.2 ⟨rfl, rfl⟩⟩

omit ht in
theorem returns_contentOf {w' : Workspace} : Returns (contentOf config t) w bytes w' ↔
    w.tree.read (config.imageDir.join ⟨t⟩) = .ok bytes ∧ w' = w := by
  rw [Returns, exec_contentOf, Prod.mk.injEq, contentIn_eq_ok_iff, eq_comm (a := w)]

omit ht in
/-- Inlining an image, as three steps and an answer. -/
theorem expandFunction_inlineImage :
    expandFunction config resolve call indent .inlineImage = plain (do
      call.checkArity 1 2
      let name ← textArg config resolve call 0
      let bytes ← contentOf config name
      let mime ← mediaArg config resolve call name
      pure (inlined mime bytes)) := by
  refine congrArg plain (bind_congr fun _ => bind_congr fun name => ?_)
  refine (contentOf_bind name _).trans (bind_congr fun bytes => ?_)
  unfold mediaArg
  split <;> rfl

/-- The contents of an image are read from the file that the argument names. -/
theorem returns_inlineImage_iff :
    Returns (expandFunction config resolve call indent .inlineImage) v e u ↔
      (1 ≤ call.args.length ∧ call.args.length ≤ 2) ∧ ∃ bytes mime,
        v'.tree.read (config.imageDir.join ⟨t⟩) = .ok bytes ∧
        Returns (mediaArg config resolve call t) v' mime u ∧ e = ⟨inlined mime bytes, none⟩ := by
  rw [expandFunction_inlineImage, returns_plain]
  constructor
  · rintro ⟨text, hreturns, rfl⟩
    obtain ⟨⟨⟩, v₁, harity, hrest⟩ := returns_bind.1 hreturns
    obtain ⟨hlength, rfl⟩ := returns_checkArity.1 harity
    obtain ⟨t', v₂, ht', hcontent⟩ := returns_bind.1 hrest
    obtain ⟨rfl, rfl⟩ := Returns.det ht' ht
    obtain ⟨bytes, v₃, hread, hmime⟩ := returns_bind.1 hcontent
    obtain ⟨hread, rfl⟩ := returns_contentOf.1 hread
    obtain ⟨mime, v₄, hmime, hpure⟩ := returns_bind.1 hmime
    obtain ⟨rfl, rfl⟩ := returns_pure.1 hpure
    exact ⟨hlength, bytes, mime, hread, hmime, rfl⟩
  · rintro ⟨hlength, bytes, mime, hread, hmime, rfl⟩
    refine ⟨_, returns_bind.2 ⟨(), v, returns_checkArity.2 ⟨hlength, rfl⟩, ?_⟩, rfl⟩
    refine returns_bind.2 ⟨t, v', ht, ?_⟩
    refine returns_bind.2 ⟨bytes, v', returns_contentOf.2 ⟨hread, rfl⟩, ?_⟩
    exact returns_bind.2 ⟨mime, u, hmime, returns_pure.2 ⟨rfl, rfl⟩⟩

end Calls

/-- A call that asks for the file of a frame names the image that was packed, and the functions
that read images read it when they are given such a call. If the image directory is itself a file,
the name is empty, and the path it is joined to differs from the image in a slash at the end. -/
theorem spriteFile_names_frame {n : Text} {frame : Frame} (hproper : w.tree.Proper)
    (hrecords : w.cache.Records made) (hglob : Glob.parse .withinName pattern = .ok glob)
    (hkeys : ∀ s ∈ made, s.key = (subject config w.tree glob pattern spacing).key →
      s = subject config w.tree glob pattern spacing)
    (h : Returns (spriteMap config pattern spacing) w sheet w')
    (hframe : sheet.frame? n = some frame) :
    (∀ vars call indent v v', call.name = SpriteFunction.spriteFile.name →
      Picks config (resolve config vars maxSteps call) call sheet n v v' →
      ∃ text, Returns (expand config vars call indent) v ⟨text, none⟩ v' ∧
        (config.imageDir.join ⟨unquote text⟩).same frame.source.path = true) ∧
    (w.tree.isDir config.imageDir = true →
      ∀ vars call indent v v' e u, NestsFile config vars call sheet n v v' →
        (call.name = SpriteFunction.imageWidth.name →
          (Returns (expand config vars call indent) v e u ↔
            call.args.length = 1 ∧ u = v' ∧ ∃ size, v'.tree.isFile frame.source.path = true ∧
              Image.size? v'.tree frame.source.path = some size ∧
              e = ⟨pixels size.width, none⟩)) ∧
        (call.name = SpriteFunction.imageHeight.name →
          (Returns (expand config vars call indent) v e u ↔
            call.args.length = 1 ∧ u = v' ∧ ∃ size, v'.tree.isFile frame.source.path = true ∧
              Image.size? v'.tree frame.source.path = some size ∧
              e = ⟨pixels size.height, none⟩)) ∧
        (call.name = SpriteFunction.inlineImage.name →
          (Returns (expand config vars call indent) v e u ↔
            (1 ≤ call.args.length ∧ call.args.length ≤ 2) ∧ ∃ bytes mime,
              v'.tree.read frame.source.path = .ok bytes ∧
              Returns (if 1 < call.args.length
                then textArg config (resolve config vars maxSteps call) call 1
                else pure (mimeType frame.source.path)) v' mime u ∧
              e = ⟨inlined mime bytes, none⟩))) := by
  have hmem : frame ∈ sheet.frames := List.mem_of_find?_eq_some hframe
  have hwalk := frame_path_mem_walk hrecords hglob hkeys h hmem
  obtain ⟨hsame, hjoin⟩ := join_fileText hproper hwalk
  refine ⟨?_, ?_⟩
  · intro vars call indent v v' hname hpicks
    refine ⟨quote (fileText config frame), ?_, ?_⟩
    · rw [expand_eq_of_ofName? (hname ▸ SpriteFunction.spriteFile.ofName?_name)]
      exact hpicks.returns_spriteFile hframe
    · rw [unquote_quote]
      exact hsame
  · intro hdir vars call indent v v' e u hnests
    have htext := hnests.returns_textArg hframe
    rw [← hjoin hdir]
    refine ⟨fun hname => ?_, fun hname => ?_, fun hname => ?_⟩
    · rw [expand_eq_of_ofName? (hname ▸ SpriteFunction.imageWidth.ofName?_name)]
      exact returns_size_iff htext fun size => pixels size.width
    · rw [expand_eq_of_ofName? (hname ▸ SpriteFunction.imageHeight.ofName?_name)]
      exact returns_size_iff htext fun size => pixels size.height
    · rw [expand_eq_of_ofName? (hname ▸ SpriteFunction.inlineImage.ofName?_name)]
      exact returns_inlineImage_iff htext

end Expand

/-- A tree whose one image has blanks, quotes, a dollar sign and a letter outside of ASCII in its
path. -/
def Sample.attic : Tree :=
  ⟨[(["images".toList], .dir),
    (["images".toList, "it's $1".toList], .dir),
    (["images".toList, "it's $1".toList, "a \"b\" ü.png".toList],
      .file (Png.encode ⟨⟨1, 1⟩, fun _ _ => ⟨255, 0, 0, 255⟩⟩) 0),
    (["sheets".toList], .dir)], [], 0⟩

/-- The name of this image leads back to it, and its width is read. -/
theorem Expand.spriteFile_names_frame_attic :
    let config := Sample.options.sprites
    let image : Path := ⟨"/images/it's $1/a \"b\" ü.png".toList⟩
    let args := ["$m".toList, "\"a \"b\" ü\"".toList]
    ∃ sheet w text,
      let vars : VariableTable := ⟨[("m".toList, .sheet sheet)], []⟩
      Returns (spriteMap config "**/*.png".toList 0) (.ofTree Sample.attic) sheet w ∧
      Returns (expand config vars ⟨"sprite-file".toList, args, 1⟩ []) w ⟨text, none⟩ w ∧
      (config.imageDir.join ⟨unquote text⟩).same image = true ∧
      Returns (expand config vars ⟨"image-width".toList,
        ["sprite-file($m, \"a \"b\" ü\")".toList], 1⟩ []) w ⟨"1px".toList, none⟩ w := by
  intro config image args
  -- the run is evaluated once, for the sheet and for the tree that it leaves
  have hrun : ∃ run, exec (spriteMap config "**/*.png".toList 0) (.ofTree Sample.attic) = run ∧
      run.1.toOption.map (fun sheet => (sheet.frame? "a \"b\" ü".toList).map (·.source.path)) =
        some (some image) ∧
      run.2.tree.isFile image = true ∧ Image.size? run.2.tree image = some ⟨1, 1⟩ :=
    ⟨_, rfl, by decide +kernel⟩
  obtain ⟨run, hexec, hpack, hfile, hsize⟩ := hrun
  rw [← hexec] at hpack
  obtain ⟨sheet, w, hsheet, hfound⟩ := exists_returns hpack
  obtain rfl : (.ok sheet, w) = run := hsheet.symm.trans hexec
  obtain ⟨glob, hglob, -⟩ := returns_spriteMap hsheet
  obtain ⟨frame, hframe, himage⟩ := Option.map_eq_some_iff.1 hfound
  have hproper : Sample.attic.Proper := by decide +kernel
  obtain ⟨hnames, hreads⟩ := spriteFile_names_frame hproper SheetCache.records_empty hglob
    (fun s hs => absurd hs List.not_mem_nil) hsheet hframe
  let vars : VariableTable := ⟨[("m".toList, .sheet sheet)], []⟩
  have href : reference? (trim "$m".toList) = some "m".toList := by decide
  have hplain : reference? (trim "\"a \"b\" ü\"".toList) = none := by decide
  have hpicks (steps : Nat) :
      Picks config (resolve config vars (steps + 1) ⟨"sprite-file".toList, args, 1⟩)
        ⟨"sprite-file".toList, args, 1⟩ sheet "a \"b\" ü".toList w w :=
    picks_of_variable rfl href rfl hplain (by decide +kernel)
  obtain ⟨text, hreturns, hsame⟩ := hnames vars _ [] w w rfl (hpicks 16)
  have hnests : NestsFile config vars ⟨"image-width".toList,
      ["sprite-file($m, \"a \"b\" ü\")".toList], 1⟩ sheet "a \"b\" ü".toList w w :=
    ⟨_, args, rfl, by decide +kernel, hpicks 15⟩
  obtain ⟨hwidth, -⟩ := hreads (by decide +kernel) vars _ [] w w ⟨"1px".toList, none⟩ w hnests
  rw [himage] at hsame hwidth
  exact ⟨sheet, w, text, hsheet, hreturns, hsame,
    (hwidth rfl).2 ⟨rfl, rfl, ⟨1, 1⟩, hfile, hsize, by decide⟩⟩

end StylePrep
