import Mathlib.Data.List.Forall2
import Mathlib.Data.List.Pairwise
import StylePrep.Proofs.Deliveries
import StylePrep.Proofs.ImageFiles
import StylePrep.Proofs.Shelves

/-!
# What a packed sheet shows

A sheet is composed by drawing one image over the other. That none of them is drawn over is
due to the layout: boxes that are apart have no pixel in common (`Box.Apart.not_holds`), so a
pixel of a box is that of the one image placed there (`Raster.pixel_compose`).

The images, their sizes and their corners are lists in the order of the sources, while the
corners are found in another order. `Sheet.ofImages_reproduces` puts them together, and
`Sheet.pack_reproduces` says what packing does to every list of sources, with every library for
image files that loses nothing. The picture it speaks of is the one that is read from the file
that was written.
-/

namespace StylePrep

namespace Box

def Holds (b : Box) (x y : Nat) : Prop :=
  b.corner.x ≤ x ∧ x < b.right ∧ b.corner.y ≤ y ∧ y < b.bottom

theorem Apart.not_holds {spacing x y : Nat} {a b : Box} (h : a.Apart spacing b) (ha : a.Holds x y) :
    ¬ b.Holds x y := by
  unfold Apart at h
  unfold Holds at ha ⊢
  omega

theorem holds_add {b : Box} {i j : Nat} (hi : i < b.size.width) (hj : j < b.size.height) :
    b.Holds (b.corner.x + i) (b.corner.y + j) :=
  ⟨Nat.le_add_right _ _, Nat.add_lt_add_left hi _, Nat.le_add_right _ _, Nat.add_lt_add_left hj _⟩

end Box

namespace Raster

def Placed.box (p : Placed) : Box := ⟨p.corner, p.image.size⟩

theorem Placed.covers_iff {p : Placed} {x y : Nat} : p.covers x y = true ↔ p.box.Holds x y := by
  simp [covers, Box.Holds, Box.right, Box.bottom, box, and_assoc]

variable {size : Size} {placed : List Placed} {x y : Nat}

/-- An image that is apart from the others is not drawn over. -/
theorem pixel_compose {spacing : Nat} (h : (placed.map Placed.box).Pairwise (Box.Apart spacing))
    {p : Placed} (hp : p ∈ placed) {i j : Nat} (hi : i < p.image.size.width)
    (hj : j < p.image.size.height) :
    (compose size placed).pixel (p.corner.x + i) (p.corner.y + j) = p.image.pixel i j := by
  have hholds : p.box.Holds (p.corner.x + i) (p.corner.y + j) := Box.holds_add (b := p.box) hi hj
  have hsome : (placed.reverse.find? (·.covers (p.corner.x + i) (p.corner.y + j))).isSome = true :=
    List.find?_isSome.2 ⟨p, List.mem_reverse.2 hp, Placed.covers_iff.2 hholds⟩
  obtain ⟨q, hq⟩ := Option.isSome_iff_exists.1 hsome
  have hcovers : q.covers (p.corner.x + i) (p.corner.y + j) = true := by simpa using List.find?_some hq
  have hqholds := Placed.covers_iff.1 hcovers
  have hqmem := List.mem_reverse.1 (List.mem_of_find?_eq_some hq)
  -- the image drawn last on this pixel is the only one that has it
  obtain rfl : q = p := by
    by_contra hne
    have : Std.Symm fun a b : Placed => a.box.Apart spacing b.box := ⟨fun _ _ => Box.Apart.symm⟩
    exact ((List.pairwise_map.1 h).forall hqmem hp hne).not_holds hqholds hholds
  simp [compose, hq]

theorem pixel_compose_of_not_holds (h : ∀ p ∈ placed, ¬ p.box.Holds x y) :
    (compose size placed).pixel x y = .clear := by
  have hnone : placed.reverse.find? (·.covers x y) = none := by
    refine List.find?_eq_none.2 fun p hp hcovers => ?_
    exact h p (List.mem_reverse.1 hp) (Placed.covers_iff.1 hcovers)
  simp [compose, hnone]

end Raster

def Frame.box (frame : Frame) : Box := ⟨frame.corner, frame.size⟩

/-- A frame of a picture that shows an image, pixel by pixel. -/
structure Frame.Shows (picture : Raster) (frame : Frame) (image : Raster) : Prop where
  size_eq : frame.size = image.size
  inside : frame.box.right ≤ picture.size.width ∧ frame.box.bottom ≤ picture.size.height
  pixel_eq : ∀ i < frame.size.width, ∀ j < frame.size.height,
    picture.pixel (frame.corner.x + i) (frame.corner.y + j) = image.pixel i j

namespace Sheet

/-- A picture for a sheet that shows the images of the sources in its frames and nothing
outside of them. -/
structure Reproduces (sheet : Sheet) (sources : List SpriteSource) (images : List Raster)
    (picture : Raster) : Prop where
  sources_eq : sheet.frames.map Frame.source = sources
  shows : List.Forall₂ (Frame.Shows picture) sheet.frames images
  clear : ∀ x < picture.size.width, ∀ y < picture.size.height,
    (∀ frame ∈ sheet.frames, ¬ frame.box.Holds x y) → picture.pixel x y = .clear
  size_eq : picture.size = if sources = [] then ⟨1, 1⟩ else sheet.size

/-- What is said of a picture is said of what it is read back as. -/
theorem Reproduces.of_same {sheet : Sheet} {sources : List SpriteSource} {images : List Raster}
    {picture written : Raster} (h : sheet.Reproduces sources images picture)
    (hsame : written.Same picture) : sheet.Reproduces sources images written where
  sources_eq := h.sources_eq
  shows := by
    refine h.shows.imp fun frame image hshows => ?_
    obtain ⟨hright, hbottom⟩ := hshows.inside
    refine ⟨hshows.size_eq, hsame.size_eq ▸ hshows.inside, fun i hi j hj => ?_⟩
    have hx : frame.corner.x + i < picture.size.width :=
      Nat.lt_of_lt_of_le (Nat.add_lt_add_left hi _) hright
    have hy : frame.corner.y + j < picture.size.height :=
      Nat.lt_of_lt_of_le (Nat.add_lt_add_left hj _) hbottom
    rw [hsame.pixel_eq _ hx _ hy, hshows.pixel_eq i hi j hj]
  clear x hx y hy hout := by
    rw [hsame.size_eq] at hx hy
    rw [hsame.pixel_eq x hx y hy, h.clear x hx y hy hout]
  size_eq := hsame.size_eq.trans h.size_eq

def framesAt (sources : List SpriteSource) (corners : List Corner) (sizes : List Size) : List Frame :=
  (sources.zip (corners.zip sizes)).map fun (source, corner, size) => { source, corner, size }

def placedAt (images : List Raster) (corners : List Corner) : List Raster.Placed :=
  (images.zip corners).map fun (image, corner) => ⟨image, corner⟩

section Aligned

variable {sources : List SpriteSource} {images : List Raster} {corners : List Corner}
variable (hsources : sources.length = images.length) (hcorners : corners.length = images.length)

theorem box_placedAt : (placedAt images corners).map Raster.Placed.box =
    Layout.boxes corners (images.map Raster.size) := by
  apply List.ext_getElem <;> simp [placedAt, Layout.boxes, Raster.Placed.box, Nat.min_comm]

/-- Boxes of images that have pixels reach into the sheet. -/
theorem pos_of_mem_boxes (hpos : ∀ image ∈ images, 0 < image.size.width ∧ 0 < image.size.height)
    {b : Box} (hb : b ∈ Layout.boxes corners (images.map Raster.size)) : 0 < b.right ∧ 0 < b.bottom := by
  rw [← box_placedAt] at hb
  obtain ⟨p, hp, rfl⟩ := List.mem_map.1 hb
  obtain ⟨⟨image, corner⟩, hmem, rfl⟩ := List.mem_map.1 hp
  obtain ⟨hwidth, hheight⟩ := hpos image (List.of_mem_zip hmem).1
  exact ⟨Nat.lt_add_left _ hwidth, Nat.lt_add_left _ hheight⟩

include hsources hcorners

theorem source_framesAt : (framesAt sources corners (images.map Raster.size)).map Frame.source = sources := by
  rw [framesAt, List.map_map]
  exact List.map_fst_zip (by simp [hsources, hcorners])

theorem box_framesAt : (framesAt sources corners (images.map Raster.size)).map Frame.box =
    Layout.boxes corners (images.map Raster.size) := by
  apply List.ext_getElem <;> simp [framesAt, Layout.boxes, Frame.box, hsources, hcorners]

/-- Images that are apart are shown in the frames of their sources. -/
theorem shows_framesAt {picture : Raster}
    (hinside : ∀ b ∈ Layout.boxes corners (images.map Raster.size),
      b.right ≤ picture.size.width ∧ b.bottom ≤ picture.size.height)
    (hpixel : ∀ p ∈ placedAt images corners, ∀ i < p.image.size.width, ∀ j < p.image.size.height,
      picture.pixel (p.corner.x + i) (p.corner.y + j) = p.image.pixel i j) :
    List.Forall₂ (Frame.Shows picture) (framesAt sources corners (images.map Raster.size)) images := by
  refine List.forall₂_iff_get.2 ⟨by simp [framesAt, hsources, hcorners], fun k hk hk' => ?_⟩
  have hplaced : Raster.Placed.mk images[k] corners[k] ∈ placedAt images corners := by
    refine List.mem_map.2 ⟨(images[k], corners[k]), ?_, rfl⟩
    rw [← List.getElem_zip (h := by simp; omega)]
    exact List.getElem_mem _
  have hbox : (Box.mk corners[k] images[k].size) ∈ Layout.boxes corners (images.map Raster.size) := by
    rw [← box_placedAt]
    exact List.mem_map.2 ⟨_, hplaced, rfl⟩
  simp only [framesAt, List.get_eq_getElem, List.getElem_map, List.getElem_zip]
  exact ⟨rfl, hinside _ hbox, hpixel _ hplaced⟩

end Aligned

/-- The picture that images are packed into. -/
def composed (options : PackOptions) (images : List Raster) : Raster :=
  let (corners, size) := Layout.layout (images.map Raster.size) options.spacing
  picture images corners size

variable {sources : List SpriteSource} {images : List Raster}

/-- Images that have pixels are reproduced at corners that arrange them. -/
theorem reproduces_of_arranges {spacing width : Nat} {corners : List Corner} {size : Size} (path : Path)
    (hsources : sources.length = images.length) (hne : images ≠ [])
    (hpos : ∀ image ∈ images, 0 < image.size.width ∧ 0 < image.size.height)
    (h : Layout.Arranges spacing width (images.map Raster.size) corners size) :
    Reproduces ⟨path, size, framesAt sources corners (images.map Raster.size)⟩ sources images
      (picture images corners size) := by
  have hcorners : corners.length = images.length := by simpa using h.length_eq
  have hboxes := box_framesAt hsources hcorners
  have hpositive : 0 < size.width ∧ 0 < size.height := by
    obtain ⟨b, hb, hright⟩ := h.width_attained
    obtain ⟨b', hb', hbottom⟩ := h.height_attained
    rw [← hright, ← hbottom]
    exact ⟨(pos_of_mem_boxes hpos hb).1, (pos_of_mem_boxes hpos hb').2⟩
  exact
    { sources_eq := source_framesAt hsources hcorners
      shows := by
        refine shows_framesAt hsources hcorners (fun b hb => ?_) fun p hp i hi j hj => ?_
        · obtain ⟨hright, hbottom⟩ := h.inside b hb
          exact ⟨Nat.le_trans hright (Nat.le_max_left _ _), Nat.le_trans hbottom (Nat.le_max_left _ _)⟩
        · exact Raster.pixel_compose (box_placedAt ▸ h.apart) hp hi hj
      clear := by
        intro x _ y _ hout
        refine Raster.pixel_compose_of_not_holds fun p hp => ?_
        have hbox : p.box ∈ (framesAt sources corners (images.map Raster.size)).map Frame.box := by
          rw [hboxes, ← box_placedAt]
          exact List.mem_map_of_mem hp
        obtain ⟨frame, hframe, heq⟩ := List.mem_map.1 hbox
        exact heq ▸ hout frame hframe
      size_eq := by
        have hsome : sources ≠ [] := fun h => hne (List.length_eq_zero_iff.1 (by simp [← hsources, h]))
        rw [if_neg hsome]
        simp only [picture, Raster.compose, Nat.max_eq_left hpositive.1, Nat.max_eq_left hpositive.2] }

/-- Images that have pixels are packed into a sheet that reproduces them. -/
theorem ofImages_reproduces (options : PackOptions) (hsources : sources.length = images.length)
    (hpos : ∀ image ∈ images, 0 < image.size.width ∧ 0 < image.size.height)
    (h : Layout.NoOverflow (images.map Raster.size) options.spacing) :
    (ofImages sources options images).Reproduces sources images (composed options images) := by
  rcases eq_or_ne images [] with rfl | hne
  · obtain rfl := List.length_eq_zero_iff.1 hsources
    have hlayout : Layout.layout [] options.spacing = ([], ⟨0, 0⟩) := by
      simp [Layout.layout, Layout.placingOrder, Layout.place, Layout.Shelf.first, Layout.sum]
    have hcomposed : composed options [] = .compose ⟨1, 1⟩ [] := by
      simp [composed, hlayout, picture]
    exact
      { sources_eq := rfl
        shows := .nil
        clear := fun x _ y _ _ => hcomposed ▸ Raster.pixel_compose_of_not_holds (by simp)
        size_eq := by rw [hcomposed]; rfl }
  · exact reproduces_of_arranges options.path hsources hne hpos (h.arranges (by simpa using hne))

/-- The picture of a sheet has a pixel, and its sides have 32 bits. -/
theorem size_composed (options : PackOptions) (images : List Raster) :
    let size := (composed options images).size
    (0 < size.width ∧ size.width < 2 ^ 32) ∧ 0 < size.height ∧ size.height < 2 ^ 32 := by
  obtain ⟨hwidth, hheight⟩ := Layout.layout_lt (images.map Raster.size) options.spacing
  exact ⟨⟨Nat.lt_of_lt_of_le Nat.one_pos (Nat.le_max_right _ _), Nat.max_lt.2 ⟨hwidth, by decide⟩⟩,
    Nat.lt_of_lt_of_le Nat.one_pos (Nat.le_max_right _ _), Nat.max_lt.2 ⟨hheight, by decide⟩⟩

theorem suffix_path (options : PackOptions) : ".png".toList <:+ options.path.text :=
  (List.suffix_append _ _).trans (Path.suffix_join options.outDir ⟨options.fileName⟩)

/-! ### Opening the images -/

section Library

variable [lib : ImageLibrary]

/-- Why an image could not be opened. -/
def unopened (tree : Tree) (source : SpriteSource) : SpriteError :=
  if tree.isFile source.path then .packFailure source.name .undecodable
  else .missingImage source.path.text

theorem openSource_eq_ok {tree : Tree} {source : SpriteSource} {image : Raster}
    (h : Image.open? tree source.path = some image) : openSource tree source = .ok image := by
  have hfile : tree.isFile source.path = true := by
    unfold Image.open? at h
    cases hread : tree.read source.path with
    | error fault => simp [hread, Except.toOption] at h
    | ok bytes =>
      obtain ⟨time, hnode⟩ := Tree.read_eq_ok_iff.1 hread
      exact Tree.isFile_iff.2 ⟨bytes, time, hnode⟩
  rw [openSource, if_pos hfile, h]

theorem openSource_eq_error {tree : Tree} {source : SpriteSource}
    (h : Image.open? tree source.path = none) :
    openSource tree source = .error (unopened tree source) := by
  unfold openSource unopened
  rw [h]
  split <;> rfl

theorem openSources_eq_ok {tree : Tree}
    (h : List.Forall₂ (fun source image => Image.open? tree source.path = some image) sources images) :
    sources.mapM (openSource tree) = .ok images := by
  induction h with
  | nil => rfl
  | cons hfirst _ ih => rw [List.mapM_cons, openSource_eq_ok hfirst, ih]; rfl

theorem openSources_eq_error {tree : Tree} {before after : List SpriteSource} {source : SpriteSource}
    (hbefore : ∀ s ∈ before, Image.open? tree s.path ≠ none) (h : Image.open? tree source.path = none) :
    (before ++ source :: after).mapM (openSource tree) = .error (unopened tree source) := by
  induction before with
  | nil => rw [List.nil_append, List.mapM_cons, openSource_eq_error h]; rfl
  | cons first before ih =>
    obtain ⟨hfirst, hbefore⟩ := List.forall_mem_cons.1 hbefore
    obtain ⟨image, hopen⟩ := Option.ne_none_iff_exists'.1 hfirst
    rw [List.cons_append, List.mapM_cons, openSource_eq_ok hopen, ih hbefore]
    rfl

/-! ### Packing -/

variable (options : PackOptions) (tree : Tree)

/-- What is done with images that were opened. -/
theorem pack_of_opened (h : sources.mapM (openSource tree) = .ok images) :
    pack sources options tree = match tree.makeDirs options.outDir with
      | (.error fault, tree) =>
        (.error (.packFailure options.stem (.noDirectory options.outDir fault)), tree)
      | (.ok (), tree) => match Image.save? tree options.path (composed options images) with
        | none => (.error (.packFailure options.stem .unwritable), tree)
        | some tree => (.ok (ofImages sources options images), tree) := by
  unfold pack
  rw [h]
  rfl

/-- The picture that was saved for a sheet is read back from its file, which alone is written. -/
theorem exists_delivers_of_save? (hlib : lib.Lossless) {tree tree' : Tree} {options : PackOptions}
    (h : Image.save? tree options.path (composed options images) = some tree') :
    ∃ file written, Tree.Delivers options.path file tree tree' ∧
      Image.open? tree' options.path = some written ∧ written.Same (composed options images) := by
  obtain ⟨file, hfile, hwrite⟩ := Option.bind_eq_some_iff.1 h
  obtain ⟨⟨hwidth, hwidth'⟩, hheight, hheight'⟩ := size_composed options images
  obtain ⟨written, hdecode, hsame⟩ :=
    hlib _ _ _ (suffix_path options) hwidth hwidth' hheight hheight' hfile
  cases hresult : tree.write options.path file with
  | error fault => simp [hresult, Except.toOption] at hwrite
  | ok tree₁ =>
    obtain rfl : tree₁ = tree' := by simpa [hresult, Except.toOption] using hwrite
    have hdelivers := Tree.delivers_of_write hresult
    refine ⟨file, written, hdelivers, ?_, hsame⟩
    rw [Image.open?, hdelivers.read]
    exact hdecode

/-- If all images can be opened and nothing is too large, they are reproduced in a sheet, and the
file that is written for it is read as a picture that shows them, unless there is no directory for
the sheet or no file can be written. If an image cannot be opened, the first such image is reported
and the tree is as before. -/
theorem pack_reproduces (hlib : lib.Lossless) (sources : List SpriteSource) :
    (∀ images,
      List.Forall₂ (fun source image => Image.open? tree source.path = some image) sources images →
      (∀ image ∈ images, 0 < image.size.width ∧ 0 < image.size.height) →
      Layout.NoOverflow (images.map Raster.size) options.spacing →
      ∃ sheet picture, sheet.path = options.path ∧ sheet.Reproduces sources images picture ∧
        match tree.makeDirs options.outDir with
        | (.error fault, tree') => pack sources options tree =
          (.error (.packFailure options.stem (.noDirectory options.outDir fault)), tree')
        | (.ok (), tree') => match Image.save? tree' options.path picture with
          | none => pack sources options tree = (.error (.packFailure options.stem .unwritable), tree')
          | some tree'' => pack sources options tree = (.ok sheet, tree'') ∧
            (∃ file, Tree.Delivers sheet.path file tree tree'') ∧
            ∃ written, Image.open? tree'' sheet.path = some written ∧
              sheet.Reproduces sources images written) ∧
    ∀ before source after, sources = before ++ source :: after →
      (∀ s ∈ before, Image.open? tree s.path ≠ none) → Image.open? tree source.path = none →
        pack sources options tree = (.error (unopened tree source), tree) := by
  constructor
  · intro images hopen hpos hlayout
    have hreproduces := ofImages_reproduces options hopen.length_eq hpos hlayout
    refine ⟨ofImages sources options images, composed options images, rfl, hreproduces, ?_⟩
    have hdirs := Tree.Retains.makeDirs tree options.outDir
    rw [pack_of_opened options tree (openSources_eq_ok hopen)]
    revert hdirs
    obtain ⟨_ | _, tree'⟩ := tree.makeDirs options.outDir <;> intro hdirs
    · rfl
    · dsimp only
      cases hsave : Image.save? tree' options.path (composed options images) with
      | none => rfl
      | some tree'' =>
        obtain ⟨file, written, hdelivers, hopened, hsame⟩ := exists_delivers_of_save? hlib hsave
        exact ⟨rfl, ⟨file, hdelivers.of_retains hdirs⟩, written, hopened, hreproduces.of_same hsame⟩
  · rintro before source after rfl hbefore hsource
    unfold pack
    rw [openSources_eq_error hbefore hsource]

end Library

end Sheet

/-- A tree with two images of different heights, and a directory for sheets. -/
def Sample.album : Tree :=
  ⟨[(["images".toList], .dir),
    (["images".toList, "a.png".toList],
      .file (Png.encode ⟨⟨1, 1⟩, fun _ _ => ⟨255, 0, 0, 255⟩⟩) 0),
    (["images".toList, "b.png".toList],
      .file (Png.encode ⟨⟨1, 2⟩, fun _ _ => ⟨0, 0, 255, 255⟩⟩) 0),
    (["sheets".toList], .dir)], [], 0⟩

def Sample.picture (name : String) : SpriteSource :=
  ⟨name.toList, ⟨("/images/" ++ name ++ ".png").toList⟩⟩

def Sample.packing (spacing : Nat) : PackOptions := ⟨spacing, ⟨"/sheets".toList⟩, "s".toList⟩

/-- An image in `album` is opened as it was written. -/
theorem Sample.open?_album {name : String} {image : Raster}
    (hread : album.read (picture name).path = .ok (Png.encode image))
    (hending : ".png".toList <:+ (picture name).path.text)
    (hpng : Image.isPng (picture name).path = true)
    (hwidth : 0 < image.size.width ∧ image.size.width < 2 ^ 32)
    (hheight : 0 < image.size.height ∧ image.size.height < 2 ^ 32) :
    ∃ opened, Image.open? album (picture name).path = some opened ∧ opened.Same image := by
  obtain ⟨opened, hdecode, hsame⟩ := Png.lossless (picture name).path image (Png.encode image) hending
    hwidth.1 hwidth.2 hheight.1 hheight.2 (if_pos hpng)
  refine ⟨opened, ?_, hsame⟩
  rw [Image.open?, hread]
  exact hdecode

/-- The images of `album`. -/
theorem Sample.open_album : ∃ first second,
    Image.open? album (picture "a").path = some first ∧
    Image.open? album (picture "b").path = some second ∧
    (first.size = ⟨1, 1⟩ ∧ first.pixel 0 0 = ⟨255, 0, 0, 255⟩) ∧
    second.size = ⟨1, 2⟩ ∧ second.pixel 0 0 = ⟨0, 0, 255, 255⟩ := by
  have hfirst : album.read (picture "a").path =
      .ok (Png.encode ⟨⟨1, 1⟩, fun _ _ => ⟨255, 0, 0, 255⟩⟩) := by rfl
  have hsecond : album.read (picture "b").path =
      .ok (Png.encode ⟨⟨1, 2⟩, fun _ _ => ⟨0, 0, 255, 255⟩⟩) := by rfl
  obtain ⟨first, hfirst, hfirst'⟩ := open?_album hfirst ⟨"/images/a".toList, by decide⟩ (by decide)
    ⟨Nat.one_pos, by decide⟩ ⟨Nat.one_pos, by decide⟩
  obtain ⟨second, hsecond, hsecond'⟩ := open?_album hsecond ⟨"/images/b".toList, by decide⟩ (by decide)
    ⟨Nat.one_pos, by decide⟩ ⟨Nat.two_pos, by decide⟩
  exact ⟨first, second, hfirst, hsecond,
    ⟨hfirst'.size_eq, hfirst'.pixel_eq 0 Nat.one_pos 0 Nat.one_pos⟩,
    hsecond'.size_eq, hsecond'.pixel_eq 0 Nat.one_pos 0 Nat.two_pos⟩

theorem Sample.placingOrder_album :
    Layout.placingOrder [⟨1, 1⟩, ⟨1, 2⟩] = [(⟨1, 2⟩, 1), (⟨1, 1⟩, 0)] := by
  simp [Layout.placingOrder, List.mergeSort]

theorem Sample.noOverflow_album : Layout.NoOverflow [⟨1, 1⟩, ⟨1, 2⟩] 1 where
  sides := by decide
  area := by decide
  estimate := by decide +kernel
  placing := by
    rw [placingOrder_album]
    decide +kernel
  buffer := by
    rw [Layout.layout, placingOrder_album]
    decide +kernel

/-- The directory for sheets in `album` is there, and a file can be written in it. -/
theorem Sample.save?_album (spacing : Nat) (image : Raster) :
    album.makeDirs (packing spacing).outDir = (.ok (), album) ∧
      Image.save? album (packing spacing).path image =
        some (album.set ["sheets".toList, "s.png".toList] (.file (Png.encode image) album.clock)) := by
  have hname : Path.IsName (packing 0).fileName := by decide
  have hlookup : album.lookup (packing 0).outDir = .ok ["sheets".toList] := by decide +kernel
  have hnew : album.node? (["sheets".toList] ++ [(packing 0).fileName]) = none := by decide +kernel
  have hmake : album.makeDirs (packing 0).outDir = (.ok (), album) := by decide +kernel
  have hsave := Sheet.save?_eq hname hlookup (by decide +kernel)
    (fun node hnode => absurd (hnew.symm.trans hnode) (by simp)) image
  exact ⟨hmake, hsave.trans (if_pos (by decide +kernel))⟩

/-- Both images of `album` are packed. With an image among them that is not there, nothing is. -/
theorem Sheet.pack_reproduces_album :
    (∃ first second sheet written tree,
      Image.open? Sample.album (Sample.picture "a").path = some first ∧
      Image.open? Sample.album (Sample.picture "b").path = some second ∧
      pack [Sample.picture "a", Sample.picture "b"] (Sample.packing 1) Sample.album = (.ok sheet, tree) ∧
      sheet.path = ⟨"/sheets/s.png".toList⟩ ∧ Image.open? tree sheet.path = some written ∧
      sheet.Reproduces [Sample.picture "a", Sample.picture "b"] [first, second] written) ∧
    pack [Sample.picture "a", Sample.picture "c", Sample.picture "b"] (Sample.packing 1) Sample.album =
      (.error (.missingImage "/images/c.png".toList), Sample.album) := by
  obtain ⟨first, second, hfirst, hsecond, ⟨hfirst', -⟩, hsecond', -⟩ := Sample.open_album
  constructor
  · have hpos : ∀ image ∈ [first, second], 0 < image.size.width ∧ 0 < image.size.height := by
      simp [hfirst', hsecond']
    have hlayout : Layout.NoOverflow ([first, second].map Raster.size) (Sample.packing 1).spacing := by
      rw [List.map_cons, List.map_singleton, hfirst', hsecond']
      exact Sample.noOverflow_album
    obtain ⟨sheet, picture, hpath, -, hpack⟩ :=
      (Sheet.pack_reproduces (Sample.packing 1) Sample.album Png.lossless
        [Sample.picture "a", Sample.picture "b"]).1
        [first, second] (.cons hfirst (.cons hsecond .nil)) hpos hlayout
    obtain ⟨hmake, hsave⟩ := Sample.save?_album 1 picture
    simp only [hmake, hsave] at hpack
    obtain ⟨hpack, -, written, hopen, hreproduces⟩ := hpack
    exact ⟨first, second, sheet, written, _, hfirst, hsecond, hpack, hpath.trans (by decide), hopen,
      hreproduces⟩
  · exact (Sheet.pack_reproduces (Sample.packing 1) Sample.album Png.lossless
      [Sample.picture "a", Sample.picture "c", Sample.picture "b"]).2 [Sample.picture "a"]
        (Sample.picture "c") [Sample.picture "b"] rfl (by simp [hfirst]) (by decide +kernel)

/-- With a spacing that is too large both images are placed on the same pixel, so no picture shows
them. A directory that is there as a file cannot be made, and then nothing is packed. -/
theorem Sheet.pack_overlapping :
    (∃ first second sheet tree,
      Image.open? Sample.album (Sample.picture "a").path = some first ∧
      Image.open? Sample.album (Sample.picture "b").path = some second ∧
      pack [Sample.picture "a", Sample.picture "b"]
        (Sample.packing 4294967295) Sample.album = (.ok sheet, tree) ∧
      ∀ written, ¬ sheet.Reproduces [Sample.picture "a", Sample.picture "b"] [first, second] written) ∧
    pack [Sample.picture "a"] ⟨0, (Sample.picture "b").path, "s".toList⟩ Sample.album =
      (.error (.packFailure "s".toList (.noDirectory (Sample.picture "b").path .alreadyExists)),
        Sample.album) := by
  obtain ⟨first, second, hfirst, hsecond, ⟨hfirst', hred⟩, hsecond', hblue⟩ := Sample.open_album
  constructor
  · have hlayout : Layout.layout [⟨1, 1⟩, ⟨1, 2⟩] 4294967295 = ([⟨0, 0⟩, ⟨0, 0⟩], ⟨1, 2⟩) := by
      rw [Layout.layout, Sample.placingOrder_album]
      decide +kernel
    have hpack := pack_of_opened (Sample.packing 4294967295) Sample.album
      (openSources_eq_ok (.cons hfirst (.cons hsecond .nil)))
    obtain ⟨hmake, hsave⟩ := Sample.save?_album 4294967295
      (composed (Sample.packing 4294967295) [first, second])
    rw [hmake] at hpack
    dsimp only at hpack
    rw [hsave] at hpack
    have hframes : (ofImages [Sample.picture "a", Sample.picture "b"] (Sample.packing 4294967295)
        [first, second]).frames =
          [⟨Sample.picture "a", ⟨0, 0⟩, ⟨1, 1⟩⟩, ⟨Sample.picture "b", ⟨0, 0⟩, ⟨1, 2⟩⟩] := by
      have hspacing : (Sample.packing 4294967295).spacing = 4294967295 := rfl
      simp [ofImages, hspacing, hfirst', hsecond', hlayout]
    refine ⟨first, second, _, _, hfirst, hsecond, hpack, fun written h => ?_⟩
    have hshows := h.shows
    rw [hframes] at hshows
    obtain _ | ⟨hred', _ | ⟨hblue', -⟩⟩ := hshows
    have hpixel := hred'.pixel_eq 0 Nat.one_pos 0 Nat.one_pos
    have hpixel' := hblue'.pixel_eq 0 Nat.one_pos 0 Nat.two_pos
    rw [hred] at hpixel
    rw [hblue, hpixel] at hpixel'
    exact absurd hpixel' (by decide)
  · have hdirs : Sample.album.makeDirs (Sample.picture "b").path =
        (.error .alreadyExists, Sample.album) := by
      rfl
    have hpack := pack_of_opened ⟨0, (Sample.picture "b").path, "s".toList⟩ Sample.album
      (openSources_eq_ok (.cons hfirst .nil))
    dsimp only at hpack
    rwa [hdirs] at hpack

end StylePrep
