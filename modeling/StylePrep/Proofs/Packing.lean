import StylePrep.Proofs.Search

/-!
# Packing beside the images

Sheets are written next to what is read, so a sheet could be taken for an image later on.
If the directory of the images does not contain that of the sheets, and no link leads out
of it, this cannot happen: walking the images finds the same files with and without the
sheets (`walk_bare`), and none of their paths leads to a sheet (`not_at_of_mem_walk`).

What packing does to a tree is said once, in `Sheet.pack_eq`: it writes one file, whose
contents follow from the sheet and from the images that the tree has without its sheets.
-/

namespace StylePrep

open Text

namespace Tree

variable {tree tree' : Tree} {image gen here a : Address}

/-! ### Walking the images -/

/-- The images are kept apart from the sheets: the directory at `gen` is not below that at
`image`, and everything below the latter is an entry with a proper name and not a link. -/
structure Separate (image gen : Address) (tree : Tree) : Prop where
  outside : ¬ image <+: gen
  named : ∀ e ∈ tree.entries, image <+: e.1 → Path.IsName (e.1.getLastD [])
  unlinked : ∀ e ∈ tree.entries, image <+: e.1 → e.2.target? = none

theorem mem_children {name : Text} {node : Node} :
    (name, node) ∈ tree.children here ↔ (here ++ [name], node) ∈ tree.entries := by
  rw [children, List.mem_mergeSort, List.mem_filterMap]
  constructor
  · rintro ⟨⟨a, node'⟩, hmem, h⟩
    dsimp only at h
    split at h
    · rename_i ha
      cases h
      rcases List.eq_nil_or_concat a with rfl | ⟨b, last, rfl⟩
      · exact absurd rfl ha.1
      · obtain rfl : b = here := by simpa using ha.2
        simpa using hmem
    · cases h
  · intro h
    exact ⟨_, h, by simp⟩

theorem children_bare (hne : here ≠ gen) : (tree.bare gen).children here = tree.children here := by
  unfold children bare
  simp only [List.filterMap_filter]
  congr 2
  funext e
  by_cases hat : Sheet.At gen e.1
  · simp [hat, hat.1, Ne.symm hne]
  · simp [hat]

theorem mem_bare {e : Address × Node} (h : e ∈ tree.entries) (hat : ¬ Sheet.At gen e.1) :
    e ∈ (tree.bare gen).entries := by
  simp [bare, h, hat]

/-- The number of entries below an address. -/
def countBelow (tree : Tree) (here : Address) : Nat :=
  tree.entries.countP fun e => here.isPrefixOf e.1 && here ≠ e.1

theorem countBelow_child {name : Text} {node : Node} (h : (here ++ [name], node) ∈ tree.entries) :
    tree.countBelow (here ++ [name]) < tree.countBelow here := by
  have hmono (e : Address × Node) :
      ((here ++ [name]).isPrefixOf e.1 && here ++ [name] ≠ e.1) = true →
        (here.isPrefixOf e.1 && here ≠ e.1) = true := by
    simp only [Bool.and_eq_true, List.isPrefixOf_iff_prefix, decide_eq_true_eq]
    rintro ⟨⟨t, ht⟩, -⟩
    rw [← ht]
    simp
  obtain ⟨l₁, l₂, hentries⟩ := List.append_of_mem h
  unfold countBelow
  rw [hentries, List.countP_append, List.countP_append, List.countP_cons_of_neg (by simp),
    List.countP_cons_of_pos (by simp [List.isPrefixOf_iff_prefix])]
  have h₁ := List.countP_mono_left (l := l₁) fun e _ => hmono e
  have h₂ := List.countP_mono_left (l := l₂) fun e _ => hmono e
  omega

namespace Separate

variable (h : Separate image gen (tree.bare gen))
include h

theorem ne_gen (hhere : image <+: here) : here ≠ gen := fun heq => h.outside (heq ▸ hhere)

/-- What is directly below such a directory has a proper name and is no link. -/
theorem child {name : Text} {node : Node} (hhere : image <+: here)
    (hchild : (name, node) ∈ tree.children here) :
    Path.IsName name ∧ node.target? = none ∧ (here ++ [name], node) ∈ (tree.bare gen).entries := by
  have hmem : (here ++ [name], node) ∈ (tree.bare gen).entries :=
    mem_bare (mem_children.1 hchild) (by simp [h.ne_gen hhere])
  have hprefix : image <+: here ++ [name] := hhere.trans (List.prefix_append _ _)
  exact ⟨by simpa using h.named _ hmem hprefix, h.unlinked _ hmem hprefix, hmem⟩

/-- The walk finds the same files with and without the sheets. -/
theorem filesBelow_bare {fuel fuel' : Nat} (hhere : image <+: here)
    (hfuel : (tree.bare gen).countBelow here < fuel)
    (hfuel' : (tree.bare gen).countBelow here < fuel') (walked walked' : List Address)
    (path : Path) :
    (tree.bare gen).filesBelow fuel walked path here = tree.filesBelow fuel' walked' path here := by
  induction fuel generalizing fuel' walked walked' path here with
  | zero => exact absurd hfuel (Nat.not_lt_zero _)
  | succ fuel ih =>
    obtain _ | fuel' := fuel'
    · exact absurd hfuel' (Nat.not_lt_zero _)
    rw [filesBelow, filesBelow, children_bare (h.ne_gen hhere), List.flatMap_def, List.flatMap_def]
    congr 1
    refine List.map_congr_left fun child hchild => ?_
    obtain ⟨name, node⟩ := child
    obtain ⟨-, hlink, hmem⟩ := h.child hhere hchild
    cases node with
    | file content time => rfl
    | link target => cases hlink
    | dir =>
      have hcount := countBelow_child hmem
      exact ih (hhere.trans (List.prefix_append _ _)) (by omega) (by omega) _ _ _

theorem walk_bare {root : Path} (hlookup : (tree.bare gen).lookup root = .ok image)
    (hlookup' : tree.lookup root = .ok image) (hdir : (tree.bare gen).node? image = some .dir)
    (hdir' : tree.node? image = some .dir) : (tree.bare gen).walk root = tree.walk root := by
  have hcount : (tree.bare gen).countBelow image ≤ (tree.bare gen).entries.length :=
    List.countP_le_length
  have hlength : (tree.bare gen).entries.length ≤ tree.entries.length := List.length_filter_le _ _
  have hsquare (n : Nat) : n < (n + 1) * (n + 1) := by
    rw [Nat.mul_add, Nat.mul_one]
    omega
  unfold walk
  simp only [hlookup, hlookup', hdir, hdir']
  refine h.filesBelow_bare List.prefix_rfl ?_ ?_ _ _ _
  · exact Nat.lt_of_le_of_lt hcount (hsquare _)
  · exact Nat.lt_of_le_of_lt (Nat.le_trans hcount hlength) (hsquare _)

/-- The path of a file that the walk finds does not lead to a sheet. -/
theorem not_at_of_mem_filesBelow {fuel : Nat} {walked : List Address} {path q : Path}
    (hhere : image <+: here) (hpath : path.text ≠ [])
    (hleads : ∀ b m, Leads tree maxLinks (startOf tree.workingDir path.text)
      (splitOn '/' path.text) b m → b = here)
    (hq : q ∈ tree.filesBelow fuel walked path here) (hlookup : tree.lookup q = .ok a) :
    ¬ Sheet.At gen a := by
  induction fuel generalizing walked path here with
  | zero => cases hq
  | succ fuel ih =>
    rw [filesBelow] at hq
    obtain ⟨⟨name, node⟩, hchild, hq⟩ := List.mem_flatMap.1 hq
    obtain ⟨hname, hlink, hmem⟩ := h.child hhere hchild
    have hnolink (target : Text) : tree.node? (here ++ [name]) ≠ some (.link target) := by
      intro hnode
      have hnode' := node?_eq_some hnode (by simp)
      exact absurd (h.child hhere (mem_children.2 hnode')).2.1 (by simp [Node.target?])
    have hjoin : ∀ b m, Leads tree maxLinks (startOf tree.workingDir (path.join ⟨name⟩).text)
        (splitOn '/' (path.join ⟨name⟩).text) b m → b = here ++ [name] := by
      intro b m hb
      obtain ⟨c, k, hc, hb⟩ := (leads_join hpath (Path.isAbsolute_mk hname.1) _).1 hb
      obtain rfl := hleads c k hc
      rw [splitOn_of_not_mem hname.1] at hb
      exact ((leads_name hname hnolink).1 hb).2.2.2.1
    cases node with
    | file content time =>
      obtain rfl := List.mem_singleton.1 hq
      obtain ⟨-, n, hleads'⟩ := lookup_eq_ok_iff.1 hlookup
      obtain rfl := hjoin _ _ hleads'
      simp [h.ne_gen hhere]
    | link target => cases hlink
    | dir =>
      refine ih (hhere.trans (List.prefix_append _ _)) ?_ hjoin hq
      intro hempty
      have hsuffix := Path.suffix_join path ⟨name⟩
      rw [hempty] at hsuffix
      obtain rfl : name = [] := List.suffix_nil.1 hsuffix
      exact absurd hname (by decide)

theorem not_at_of_mem_walk {root q : Path} (hroot : tree.lookup root = .ok image)
    (hdir : tree.node? image = some .dir) (hq : q ∈ tree.walk root)
    (hlookup : tree.lookup q = .ok a) : ¬ Sheet.At gen a := by
  obtain ⟨-, n, hleads⟩ := lookup_eq_ok_iff.1 hroot
  unfold walk at hq
  simp only [hroot, hdir] at hq
  exact h.not_at_of_mem_filesBelow List.prefix_rfl (text_ne_nil_of_lookup hroot)
    (fun b m hb => (hb.det hleads).1) hq hlookup

end Separate

/-! ### Writing a sheet -/

/-- A directory that is there cannot be made. -/
theorem makeDir_eq_error {p : Path} (h : tree.lookup p = .ok a) :
    tree.makeDir p = .error .alreadyExists := by
  obtain ⟨hcheck, n, hleads⟩ := lookup_eq_ok_iff.1 h
  have hstart := hleads.dir (splitOn_ne_nil '/' p.text)
  obtain ⟨segments, rest, hsegments, hsplit⟩ : ∃ segments rest,
      ((splitOn '/' p.text).reverse.dropWhile (· = [])).reverse = segments ∧
        splitOn '/' p.text = segments ++ rest := by
    refine ⟨_, ((splitOn '/' p.text).reverse.takeWhile (· = [])).reverse, rfl, ?_⟩
    rw [← List.reverse_append, List.takeWhile_append_dropWhile, List.reverse_reverse]
  rw [hsplit] at hleads
  obtain ⟨b, m, hleads, -⟩ := leads_append.1 hleads
  unfold makeDir
  simp only [hcheck, hsegments, bind, Except.bind]
  rcases List.eq_nil_or_concat segments with rfl | ⟨front, name, rfl⟩
  · rw [List.dropLast_nil, follow_eq_ok_iff.2 (.done _ _)]
    simp [hstart, Path.isIdle]
  · rw [List.concat_eq_append] at hleads ⊢
    obtain ⟨c, k, hfront, hname⟩ := leads_append.1 hleads
    rw [List.dropLast_concat, follow_eq_ok_iff.2 hfront]
    have hdir := hname.dir (List.cons_ne_nil _ _)
    cases hname with
    | idle _ hidle => simp [hdir, hidle]
    | up => simp [hdir]
    | enter _ hidle hup hshort hfound => simp [hdir, hidle, hup, Nat.not_lt.2 hshort, hfound]
    | link _ hidle hup hshort hfound => simp [hdir, hidle, hup, Nat.not_lt.2 hshort, hfound]

theorem makeDirs_eq {p : Path} (h : tree.lookup p = .ok a) (hdir : tree.node? a = some .dir) :
    tree.makeDirs p = (.ok (), tree) := by
  have hp := text_ne_nil_of_lookup h
  have hisDir : tree.isDir p = true := by
    simp [isDir, nodeAt_eq_ok_iff.2 ⟨a, h, hdir⟩]
  obtain ⟨outer, houter⟩ : ∃ outer, p.ancestors = p :: outer := by
    unfold Path.ancestors
    cases p.text.length with
    | zero => exact ⟨[], rfl⟩
    | succ k => exact ⟨_, rfl⟩
  rw [makeDirs, houter, makeChain]
  simp [hp, makeDir_eq_error h, hisDir]

theorem exists_targetUntil (tree : Tree) (hops : Nat) :
    ∃ relink, tree.target hops = tree.targetUntil relink := by
  cases hops <;> exact ⟨_, rfl⟩

/-- Writing a new file or in place of a file, into a directory that is there. -/
theorem write_join {p : Path} {name : Text} (hname : Path.IsName name)
    (hlookup : tree.lookup p = .ok gen) (hdir : tree.node? gen = some .dir)
    (hfile : ∀ node, tree.node? (gen ++ [name]) = some node → ∃ content time, node = .file content time)
    (content : Bytes) :
    tree.write (p.join ⟨name⟩) content = (do
      checkPath (p.join ⟨name⟩)
      if maxNameSize < name.utf8Size then .error .nameTooLong
      else .ok (tree.set (gen ++ [name]) (.file content tree.clock))) := by
  obtain ⟨-, n, hleads⟩ := lookup_eq_ok_iff.1 hlookup
  obtain ⟨hslash, hidle, hup⟩ := hname
  obtain ⟨front, hfront, hjoin⟩ := exists_splitOn_join (text_ne_nil_of_lookup hlookup)
    (Path.isAbsolute_mk hslash) tree maxLinks tree.workingDir
  rw [splitOn_of_not_mem hslash] at hfront
  obtain ⟨relink, htarget⟩ := tree.exists_targetUntil maxLinks
  unfold write
  rw [htarget, targetUntil, hfront, List.dropLast_concat, follow_eq_ok_iff.2 ((hjoin gen n hdir).2 hleads)]
  cases checkPath (p.join ⟨name⟩) with
  | error e => rfl
  | ok u =>
    simp only [bind, Except.bind, hdir, ne_eq, not_true, if_false, List.getLastD_concat, hidle, hup]
    by_cases hsize : maxNameSize < name.utf8Size
    · simp [hsize]
    · cases hnode : tree.node? (gen ++ [name]) with
      | none => simp [hsize, pure, Except.pure]
      | some node =>
        obtain ⟨content', time, rfl⟩ := hfile node hnode
        simp [hsize, pure, Except.pure]

/-! ### Packing a sheet -/

/-- A path leads to the same in two trees, if it leads to anything. -/
def SameAt (tree tree' : Tree) (p : Path) : Prop :=
  ∀ node, tree.nodeAt p = .ok node ↔ tree'.nodeAt p = .ok node

/-- A path that does not lead to a sheet leads to the same whatever the sheets are. -/
theorem Within.sameAt (h : Within gen tree tree') (ho : (tree.bare gen).Orderly) {p : Path}
    (hp : ∀ a, tree'.lookup p = .ok a → ¬ Sheet.At gen a) : SameAt tree tree' p := by
  refine fun node => ⟨h.nodeAt_mono, fun hnode => ?_⟩
  obtain ⟨a, hlookup, hnode⟩ := nodeAt_eq_ok_iff.1 hnode
  have hat := hp a hlookup
  rcases h.lookup_reflect ho hlookup with hlookup' | ⟨name, hname, rfl, -⟩
  · exact nodeAt_eq_ok_iff.2 ⟨a, hlookup', (h.node?_eq hat).trans hnode⟩
  · exact absurd (Sheet.at_append.2 ⟨rfl, hname⟩) hat

namespace SameAt

variable {p : Path} (h : SameAt tree tree' p)
include h

theorem isFile_eq : tree.isFile p = tree'.isFile p := by
  rw [Bool.eq_iff_iff, isFile_iff, isFile_iff]
  exact exists_congr fun content => exists_congr fun time => h _

theorem read_eq : (tree.read p).toOption = (tree'.read p).toOption := by
  have hread (t : Tree) (bytes : Bytes) : (t.read p).toOption = some bytes ↔ t.read p = .ok bytes := by
    cases t.read p <;> simp [Except.toOption]
  refine Option.ext fun bytes => ?_
  rw [hread, hread, read_eq_ok_iff, read_eq_ok_iff]
  exact exists_congr fun time => h _

theorem fileStamp_eq : Fingerprint.fileStamp tree p = Fingerprint.fileStamp tree' p := by
  unfold Fingerprint.fileStamp
  cases hnode : tree.nodeAt p with
  | ok node => rw [(h node).1 hnode]
  | error e =>
    cases hnode' : tree'.nodeAt p with
    | error e' => rfl
    | ok node => exact absurd (hnode.symm.trans ((h node).2 hnode')) (by simp)

theorem open?_eq : Image.open? tree p = Image.open? tree' p := by
  rw [Image.open?, Image.open?, h.read_eq]

end SameAt

end Tree

namespace PackOptions

def fileName (options : PackOptions) : Text := options.stem ++ ".png".toList

def path (options : PackOptions) : Path := options.outDir.join ⟨options.fileName⟩

/-- Whether the file of a sheet can be written, by its path alone. -/
def writable (options : PackOptions) : Bool :=
  Image.isPng options.path && (Tree.checkPath options.path).isOk &&
    options.fileName.utf8Size ≤ Tree.maxNameSize

end PackOptions

namespace Sheet

def ofImages (sources : List SpriteSource) (options : PackOptions) (images : List Raster) : Sheet :=
  let (corners, size) := Layout.layout (images.map Raster.size) options.spacing
  ⟨options.path, size, (sources.zip (corners.zip (images.map Raster.size))).map
    fun (source, corner, size) => { source, corner, size }⟩

/-- The contents of the file of a sheet, its images being those of a tree. -/
def content (tree : Tree) (sheet : Sheet) : Bytes :=
  Png.encode (.compose ⟨max sheet.size.width 1, max sheet.size.height 1⟩
    (sheet.frames.filterMap fun frame =>
      (Image.open? tree frame.source.path).map fun image => ⟨image, frame.corner⟩))

theorem open?_of_openSource {tree : Tree} {source : SpriteSource} {image : Raster}
    (h : openSource tree source = .ok image) : Image.open? tree source.path = some image := by
  unfold openSource at h
  split at h
  · split at h
    · rename_i image' hopen
      cases h
      exact hopen
    · cases h
  · cases h

/-- The images of a sheet are at the corners of its frames. -/
theorem placed_eq {tree : Tree} {sources : List SpriteSource} {images : List Raster}
    (h : sources.mapM (openSource tree) = .ok images) (corners : List Corner) :
    ((sources.zip (corners.zip (images.map Raster.size))).map
        fun (source, corner, size) => ({ source, corner, size } : Frame)).filterMap
      (fun frame => (Image.open? tree frame.source.path).map fun image =>
        (⟨image, frame.corner⟩ : Raster.Placed)) =
      (images.zip corners).map fun (image, corner) => ⟨image, corner⟩ := by
  induction sources generalizing images corners with
  | nil =>
    cases h
    rfl
  | cons source sources ih =>
    rw [List.mapM_cons] at h
    cases hfirst : openSource tree source with
    | error e => simp [hfirst, bind, Except.bind] at h
    | ok image =>
      cases hrest : sources.mapM (openSource tree) with
      | error e => simp [hfirst, hrest, bind, Except.bind] at h
      | ok others =>
        obtain rfl : image :: others = images := by
          simpa [hfirst, hrest, bind, Except.bind, pure, Except.pure] using h
        cases corners with
        | nil => rfl
        | cons corner corners => simp [open?_of_openSource hfirst, ih hrest]

variable {tree : Tree} {gen : Address} {options : PackOptions}

/-- The file of a sheet is written into a directory that is there, or not at all. -/
theorem save?_eq (hname : Path.IsName options.fileName)
    (hlookup : tree.lookup options.outDir = .ok gen) (hdir : tree.node? gen = some .dir)
    (hfile : ∀ node, tree.node? (gen ++ [options.fileName]) = some node →
      ∃ content time, node = .file content time) (image : Raster) :
    Image.save? tree options.path image =
      if options.writable then some (tree.set (gen ++ [options.fileName])
        (.file (Png.encode image) tree.clock)) else none := by
  have hwrite := Tree.write_join hname hlookup hdir hfile (Png.encode image)
  change tree.write options.path _ = (do Tree.checkPath options.path; _) at hwrite
  rw [Image.save?_eq, hwrite, PackOptions.writable]
  cases Image.isPng options.path with
  | false => rfl
  | true =>
    cases Tree.checkPath options.path with
    | error e => rfl
    | ok u =>
      by_cases hsize : Tree.maxNameSize < options.fileName.utf8Size
      · simp [hsize, bind, Except.bind, Except.toOption]
      · simp [hsize, Nat.le_of_not_lt hsize, bind, Except.bind, Except.toOption, Except.isOk,
          Except.toBool]

/-- What packing does to a tree whose directory for sheets is there: nothing, or it writes
the sheet, and whether it does so depends on the images alone. -/
theorem pack_eq (sources : List SpriteSource) (hname : Path.IsName options.fileName)
    (hlookup : tree.lookup options.outDir = .ok gen) (hdir : tree.node? gen = some .dir)
    (hfile : ∀ node, tree.node? (gen ++ [options.fileName]) = some node →
      ∃ content time, node = .file content time) :
    pack sources options tree = match sources.mapM (openSource tree) with
      | .error e => (.error e, tree)
      | .ok images =>
        if options.writable then
          (.ok (ofImages sources options images), tree.set (gen ++ [options.fileName])
            (.file ((ofImages sources options images).content tree) tree.clock))
        else (.error (.packFailure options.stem .unwritable), tree) := by
  unfold pack
  cases hopen : sources.mapM (openSource tree) with
  | error e => rfl
  | ok images =>
    have hcontent : (ofImages sources options images).content tree =
        Png.encode (picture images (Layout.layout (images.map Raster.size) options.spacing).1
          (Layout.layout (images.map Raster.size) options.spacing).2) := by
      rw [content, picture, ofImages]
      exact congrArg (fun placed => Png.encode (.compose _ placed)) (placed_eq hopen _)
    have hpath : options.outDir.join ⟨options.stem ++ ".png".toList⟩ = options.path := rfl
    dsimp only
    rw [hcontent, Tree.makeDirs_eq hlookup hdir, hpath]
    unfold ofImages
    obtain ⟨corners, size⟩ := Layout.layout (images.map Raster.size) options.spacing
    dsimp only
    rw [save?_eq hname hlookup hdir hfile]
    cases options.writable <;> rfl

/-- Images are opened alike in trees that have the same images. -/
theorem openSources_eq {tree tree' : Tree} {sources : List SpriteSource}
    (h : ∀ source ∈ sources, Tree.SameAt tree tree' source.path) :
    sources.mapM (openSource tree') = sources.mapM (openSource tree) := by
  induction sources with
  | nil => rfl
  | cons source sources ih =>
    have hsource := h source List.mem_cons_self
    have hopen : openSource tree' source = openSource tree source := by
      rw [openSource, openSource, hsource.isFile_eq, hsource.open?_eq]
    rw [List.mapM_cons, List.mapM_cons, hopen,
      ih fun other hother => h other (List.mem_cons_of_mem _ hother)]

/-- The contents of a sheet depend on what its images are read from only through them. -/
theorem content_ofImages {tree tree' : Tree} {sources : List SpriteSource}
    (h : ∀ source ∈ sources, Tree.SameAt tree tree' source.path) (images : List Raster) :
    (ofImages sources options images).content tree' = (ofImages sources options images).content tree := by
  have hmap (frames : List Frame) (f : Frame → Option Raster.Placed) :
      frames.filterMap f = (frames.map f).filterMap id := by rw [List.filterMap_map]; rfl
  rw [content, content, hmap, hmap]
  refine congrArg (fun placed => Png.encode (.compose _ (List.filterMap id placed))) ?_
  refine List.map_congr_left fun frame hframe => ?_
  obtain ⟨⟨source, corner, size⟩, hmem, rfl⟩ := List.mem_map.1 hframe
  rw [(h source (List.of_mem_zip hmem).1).open?_eq]

end Sheet

/-- A PNG file starts with a byte that no text starts with. -/
theorem Png.isPicture_encode (image : Raster) (time : Nat) :
    (Node.file (Png.encode image) time).isPicture = true := by
  have hfirst : ByteArray.utf8DecodeChar?.parseFirstByte 0x89 = .invalid := rfl
  obtain ⟨bytes, hbytes⟩ : ∃ bytes, Png.encode image = 0x89 :: bytes := ⟨_, rfl⟩
  have hchar : ByteArray.utf8DecodeChar? ⟨(0x89 :: bytes : Bytes).toArray⟩ 0 = none := by
    unfold ByteArray.utf8DecodeChar?
    split
    · split
      · rfl
      all_goals
        rename_i h
        exact absurd (hfirst.symm.trans h) (by simp)
    · rfl
  rw [Node.isPicture, hbytes, ofUtf8?, ByteArray.utf8Decode?, ByteArray.utf8Decode?.go.eq_1, if_pos]
  · split
    · rfl
    · rename_i h
      exact absurd (hchar.symm.trans h) (by simp)
  · exact Nat.succ_pos _

theorem Sheet.isPicture_content (tree : Tree) (sheet : Sheet) (time : Nat) :
    (Node.file (sheet.content tree) time).isPicture = true := Png.isPicture_encode _ time

theorem Fingerprint.fingerprint_eq {tree tree' : Tree} {sources : List SpriteSource} (pattern : Text)
    (h : ∀ source ∈ sources, Tree.SameAt tree tree' source.path) (spacing : Nat) (outDir : Path) :
    fingerprint tree pattern sources spacing outDir =
      fingerprint tree' pattern sources spacing outDir := by
  unfold fingerprint
  rw [List.map_congr_left fun source hsource => by rw [(h source hsource).fileStamp_eq]]

/-! ### The names of sheets -/

theorem Encoding.not_mem_hex (bytes : Bytes) : '/' ∉ hex bytes := by
  have hdigit : ∀ n < 16, '/' ≠ hexDigit n := by decide
  intro h
  obtain ⟨b, -, h⟩ := List.mem_flatMap.1 h
  have hb : b.toNat < 256 := b.toNat_lt
  rcases List.mem_cons.1 h with h | h
  · exact hdigit _ (by omega) h
  · exact hdigit _ (by omega) (List.mem_singleton.1 h)

namespace Expand

theorem not_mem_sheetStem (pattern : Text) : '/' ∉ sheetStem pattern := by
  unfold sheetStem
  split
  · rename_i name hname
    split
    · decide
    · obtain ⟨p, -, hname⟩ := Option.bind_eq_some_iff.1 hname
      exact Path.not_mem_of_fileName? hname
  · decide

/-- How the sheet with a fingerprint is packed. -/
def packOptions (config : SpriteConfig) (pattern : Text) (spacing : Nat) (key : Text) :
    PackOptions :=
  { spacing, outDir := config.genDir, stem := sheetStem pattern ++ '-' :: key.take 6 }

variable (config : SpriteConfig) (pattern : Text) (spacing : Nat)

theorem isFileName_packOptions (key : Text) :
    Sheet.IsFileName (packOptions config pattern spacing key).fileName := by
  constructor
  · simp [PackOptions.fileName, packOptions]
  · exact List.suffix_append _ _

theorem isName_packOptions {key : Text} (hkey : '/' ∉ key) :
    Path.IsName (packOptions config pattern spacing key).fileName := by
  have hfile := isFileName_packOptions config pattern spacing key
  refine ⟨?_, Import.isIdle_of_isFileName hfile, ?_⟩
  · simp only [PackOptions.fileName, packOptions, List.mem_append, List.mem_cons, not_or]
    exact ⟨⟨not_mem_sheetStem pattern, by decide, fun h => hkey (List.mem_of_mem_take h)⟩, by decide⟩
  · intro h
    exact absurd (h ▸ hfile) (by decide)

end Expand

end StylePrep
