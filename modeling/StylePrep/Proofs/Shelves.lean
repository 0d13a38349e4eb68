import Mathlib.Algebra.Group.Nat.Defs
import Mathlib.Data.List.Perm.Basic
import Mathlib.Data.List.Nodup
import StylePrep.Sprite.Layout

/-!
# Images on shelves do not overlap

Whatever the width of the sheet is, as long as the widest image fits into it and no sum loses a
carry (`Fits`), a layout keeps its images inside the sheet and apart from one another by the
spacing, and the sheet is no larger than they need (`layout_arranges`).

The images are placed in another order than they come. `Fills` says what holds of the boxes
placed so far and the shelf that the next one goes on; placing one more image keeps it
(`Fills.add`), hence so does placing all of them (`Fills.place`). That the corners are given
back in the order of the images only permutes the boxes (`boxes_perm`).
-/

namespace StylePrep

structure Box where
  corner : Corner
  size : Size
  deriving DecidableEq, Repr

namespace Box

def right (b : Box) : Nat := b.corner.x + b.size.width

def bottom (b : Box) : Nat := b.corner.y + b.size.height

/-- Two rectangles with at least `spacing` columns or rows between them. -/
def Apart (spacing : Nat) (a b : Box) : Prop :=
  a.right + spacing ≤ b.corner.x ∨ b.right + spacing ≤ a.corner.x ∨
    a.bottom + spacing ≤ b.corner.y ∨ b.bottom + spacing ≤ a.corner.y

theorem Apart.symm {spacing : Nat} {a b : Box} (h : a.Apart spacing b) : b.Apart spacing a := by
  unfold Apart at h ⊢
  omega

end Box

namespace Layout

def boxes (corners : List Corner) (sizes : List Size) : List Box := List.zipWith Box.mk corners sizes

/-- Corners that arrange images of these sizes on a sheet, which is `width` columns wide at
most. -/
structure Arranges (spacing width : Nat) (sizes : List Size) (corners : List Corner) (sheet : Size) :
    Prop where
  length_eq : corners.length = sizes.length
  inside : ∀ b ∈ boxes corners sizes, b.right ≤ sheet.width ∧ b.bottom ≤ sheet.height
  apart : (boxes corners sizes).Pairwise (Box.Apart spacing)
  width_attained : ∃ b ∈ boxes corners sizes, b.right = sheet.width
  height_attained : ∃ b ∈ boxes corners sizes, b.bottom = sheet.height
  width_le : sheet.width ≤ width

/-- The layout on a sheet of some width. -/
def layoutWithin (width : Nat) (sizes : List Size) (spacing : Nat) : List Corner × Size :=
  let (placed, last) := place width spacing .first (placingOrder sizes)
  let corners := (List.range sizes.length).map fun i => (placed.lookup i).getD ⟨0, 0⟩
  (corners, ⟨last.used, sum last.y last.height⟩)

/-! ### Sums -/

theorem sum_eq {m n : Nat} (h : m + n < 2 ^ 32) : sum m n = m + n := Nat.mod_eq_of_lt h

theorem sum_lt (m n : Nat) : sum m n < 2 ^ 32 := Nat.mod_lt _ (Nat.two_pow_pos 32)

/-- While images are placed, no sum loses a carry: the end of an image, the shelf below where
one is started, the place behind the image, and in the end the height of the sheet. -/
def Fits (width spacing : Nat) : Shelf → List (Size × Nat) → Prop
  | shelf, [] => shelf.y + shelf.height < 2 ^ 32
  | shelf, (size, _) :: rest =>
    shelf.x + size.width < 2 ^ 32 ∧
      (width < shelf.x + size.width → 0 < shelf.x →
        shelf.y + (shelf.height + spacing) < 2 ^ 32) ∧
      (shelf.fitting width spacing size).x + (size.width + spacing) < 2 ^ 32 ∧
      Fits width spacing ((shelf.fitting width spacing size).add spacing size) rest

instance decidableFits (width spacing : Nat) :
    (shelf : Shelf) → (images : List (Size × Nat)) → Decidable (Fits width spacing shelf images)
  | _, [] => inferInstanceAs (Decidable (_ < _))
  | shelf, (size, _) :: rest =>
    have := decidableFits width spacing ((shelf.fitting width spacing size).add spacing size) rest
    inferInstanceAs (Decidable (_ ∧ _ ∧ _ ∧ _))

/-! ### Placing images -/

/-- The shelf that images are placed on next, and the boxes placed so far: those on shelves
above are above it, and those on it are left of the next place. The sheet is as wide as one
of them needs, and the shelf as tall, unless nothing is on it. -/
structure Fills (spacing width : Nat) (placed : List Box) (shelf : Shelf) : Prop where
  before : ∀ b ∈ placed, b.bottom + spacing ≤ shelf.y ∨
    b.right + spacing ≤ shelf.x ∧ b.bottom ≤ shelf.y + shelf.height
  right : ∀ b ∈ placed, b.right ≤ shelf.used
  used_le : shelf.used ≤ width
  apart : placed.Pairwise (Box.Apart spacing)
  used : shelf.used = 0 ∨ ∃ b ∈ placed, b.right = shelf.used
  height : shelf.height = 0 ∨ ∃ b ∈ placed, b.bottom = shelf.y + shelf.height

/-- The sheet ends where some box does. -/
structure Reaches (placed : List Box) (shelf : Shelf) : Prop where
  right : ∃ b ∈ placed, b.right = shelf.used
  bottom : ∃ b ∈ placed, b.bottom = shelf.y + shelf.height

namespace Fills

variable {spacing width : Nat} {placed : List Box} {shelf : Shelf} {size : Size}

theorem first (spacing width : Nat) : Fills spacing width [] .first where
  before := nofun
  right := nofun
  used_le := Nat.zero_le _
  apart := .nil
  used := .inl rfl
  height := .inl rfl

/-- On the shelf that an image goes on there is room for it. -/
theorem fitting (h : Fills spacing width placed shelf) (hsize : size.width ≤ width)
    (hend : shelf.x + size.width < 2 ^ 32)
    (hbelow : width < shelf.x + size.width → 0 < shelf.x →
      shelf.y + (shelf.height + spacing) < 2 ^ 32) :
    Fills spacing width placed (shelf.fitting width spacing size) ∧
      (shelf.fitting width spacing size).x + size.width ≤ width := by
  unfold Shelf.fitting
  rw [sum_eq hend]
  split
  case isTrue hfull =>
    have hy := hbelow hfull.1 hfull.2
    rw [sum_eq (by omega : shelf.height + spacing < 2 ^ 32), sum_eq hy]
    refine ⟨⟨fun b hb => .inl ?_, h.right, h.used_le, h.apart, h.used, .inl rfl⟩, by simpa using hsize⟩
    have := h.before b hb
    dsimp only
    omega
  case isFalse hfits => exact ⟨h, by omega⟩

section Add

variable (h : Fills spacing width placed shelf) (hbehind : shelf.x + (size.width + spacing) < 2 ^ 32)
include h hbehind

/-- With one more image on the shelf, the sheet ends where one of the images does. -/
theorem reaches_add : Reaches (placed ++ [⟨⟨shelf.x, shelf.y⟩, size⟩]) (shelf.add spacing size) := by
  have hlast : (⟨⟨shelf.x, shelf.y⟩, size⟩ : Box) ∈ placed ++ [⟨⟨shelf.x, shelf.y⟩, size⟩] :=
    List.mem_append_right _ (List.mem_singleton_self _)
  constructor
  · change ∃ b ∈ _, Box.right b = max shelf.used (sum shelf.x size.width)
    rw [sum_eq (by omega)]
    rcases Nat.le_total shelf.used (shelf.x + size.width) with hle | hle
    · exact ⟨_, hlast, (Nat.max_eq_right hle).symm⟩
    · rcases h.used with hused | ⟨b, hb, hright⟩
      · refine ⟨_, hlast, ?_⟩
        rw [Nat.max_eq_left hle]
        exact Nat.le_antisymm (hused ▸ hle) (hused ▸ Nat.zero_le _)
      · exact ⟨b, List.mem_append_left _ hb, hright.trans (Nat.max_eq_left hle).symm⟩
  · change ∃ b ∈ _, Box.bottom b = shelf.y + max shelf.height size.height
    rcases Nat.le_total shelf.height size.height with hle | hle
    · exact ⟨_, hlast, by rw [Nat.max_eq_right hle]; rfl⟩
    · rw [Nat.max_eq_left hle]
      rcases h.height with hheight | ⟨b, hb, hbottom⟩
      · refine ⟨_, hlast, ?_⟩
        rw [show shelf.height = size.height by omega]
        rfl
      · exact ⟨b, List.mem_append_left _ hb, hbottom⟩

/-- An image is placed apart from those before it. -/
theorem add (hfits : shelf.x + size.width ≤ width) :
    Fills spacing width (placed ++ [⟨⟨shelf.x, shelf.y⟩, size⟩]) (shelf.add spacing size) := by
  have hend : sum shelf.x size.width = shelf.x + size.width := sum_eq (by omega)
  have hnext : sum shelf.x (sum size.width spacing) = shelf.x + (size.width + spacing) := by
    rw [sum_eq (by omega : size.width + spacing < 2 ^ 32), sum_eq hbehind]
  refine ⟨fun b hb => ?_, fun b hb => ?_, Nat.max_le.2 ⟨h.used_le, hend ▸ hfits⟩, ?_,
    .inr (h.reaches_add hbehind).right, .inr (h.reaches_add hbehind).bottom⟩
  · rcases List.mem_append.1 hb with hb | hb
    · have := h.before b hb
      simp only [Shelf.add, hnext]
      omega
    · obtain rfl := List.mem_singleton.1 hb
      simp only [Shelf.add, Box.right, Box.bottom, hnext]
      omega
  · simp only [Shelf.add, hend]
    rcases List.mem_append.1 hb with hb | hb
    · exact Nat.le_trans (h.right b hb) (Nat.le_max_left _ _)
    · obtain rfl := List.mem_singleton.1 hb
      exact Nat.le_max_right _ _
  · refine List.pairwise_append.2 ⟨h.apart, List.pairwise_singleton _ _, fun a ha b hb => ?_⟩
    obtain rfl := List.mem_singleton.1 hb
    have := h.before a ha
    simp only [Box.Apart]
    omega

end Add

/-- The boxes placed so far are inside the sheet. -/
theorem inside (h : Fills spacing width placed shelf) {b : Box} (hb : b ∈ placed) :
    b.right ≤ shelf.used ∧ b.bottom ≤ shelf.y + shelf.height := by
  refine ⟨h.right b hb, ?_⟩
  have := h.before b hb
  omega

end Fills

/-- The boxes of numbered images, from the corners that they were placed at. -/
def placedBoxes (images : List (Size × Nat)) (placed : List (Nat × Corner)) : List Box :=
  List.zipWith (fun image p => ⟨p.2, image.1⟩) images placed

/-- Placing images keeps what holds of the shelves, and if there is an image at all, the
sheet ends where one does. -/
theorem Fills.place {spacing width : Nat} {images : List (Size × Nat)}
    (hwidth : ∀ image ∈ images, image.1.width ≤ width) {before : List Box} {shelf : Shelf}
    (hfits : Fits width spacing shelf images) (h : Fills spacing width before shelf)
    {placed : List (Nat × Corner)} {last : Shelf}
    (hplace : Layout.place width spacing shelf images = (placed, last)) :
    Fills spacing width (before ++ placedBoxes images placed) last ∧
      last.y + last.height < 2 ^ 32 ∧
      (images ≠ [] ∨ Reaches before shelf → Reaches (before ++ placedBoxes images placed) last) := by
  induction images generalizing before shelf placed with
  | nil =>
    cases hplace
    rw [placedBoxes, List.zipWith_nil_left, List.append_nil]
    exact ⟨h, hfits, fun hne => hne.resolve_left (· rfl)⟩
  | cons image images ih =>
    obtain ⟨size, i⟩ := image
    obtain ⟨hsize, hwidth⟩ := List.forall_mem_cons.1 hwidth
    obtain ⟨hend, hbelow, hbehind, hrests⟩ := hfits
    obtain ⟨hfitting, hroom⟩ := h.fitting hsize hend hbelow
    cases hrest : Layout.place width spacing ((shelf.fitting width spacing size).add spacing size) images with
    | mk others last' =>
      rw [Layout.place, hrest] at hplace
      cases hplace
      obtain ⟨hfills, hheight, hreaches⟩ := ih hwidth hrests (hfitting.add hbehind hroom) hrest
      rw [List.append_assoc] at hfills hreaches
      exact ⟨hfills, hheight, fun _ => hreaches (.inr (hfitting.reaches_add hbehind))⟩

/-! ### The order of the images -/

theorem map_fst_place (width spacing : Nat) (shelf : Shelf) (images : List (Size × Nat)) :
    (place width spacing shelf images).1.map Prod.fst = images.map Prod.snd := by
  induction images generalizing shelf with
  | nil => rfl
  | cons image images ih => simp [place, ih]

/-- Where no number occurs twice, each image finds its corner by its number. -/
theorem placedBoxes_eq_map {images : List (Size × Nat)} {placed : List (Nat × Corner)}
    (hnodup : (images.map Prod.snd).Nodup) (hnumbers : placed.map Prod.fst = images.map Prod.snd) :
    placedBoxes images placed = images.map fun image => ⟨(placed.lookup image.2).getD ⟨0, 0⟩, image.1⟩ := by
  induction images generalizing placed with
  | nil => rfl
  | cons image images ih =>
    obtain ⟨size, i⟩ := image
    obtain ⟨⟨j, corner⟩, placed, rfl, hj, hothers⟩ := List.map_eq_cons_iff.1 hnumbers
    obtain rfl : j = i := hj
    obtain ⟨hnew, hnodup⟩ := List.nodup_cons.1 hnodup
    have hother : ∀ image ∈ images, ((j, corner) :: placed).lookup image.2 = placed.lookup image.2 := by
      intro image himage
      have hne : image.2 ≠ j := fun h => hnew (List.mem_map.2 ⟨image, himage, h⟩)
      rw [List.lookup_cons, beq_eq_false_iff_ne.2 hne]
    rw [List.map_cons, List.lookup_cons_self, List.map_congr_left fun image himage => by rw [hother image himage],
      ← ih hnodup hothers]
    rfl

theorem placingOrder_perm (sizes : List Size) : (placingOrder sizes).Perm sizes.zipIdx :=
  List.mergeSort_perm _ _

/-- The boxes in the order of the images are those in the order of placing. -/
theorem boxes_perm {sizes : List Size} {placed : List (Nat × Corner)}
    (hnumbers : placed.map Prod.fst = (placingOrder sizes).map Prod.snd) :
    (boxes ((List.range sizes.length).map fun i => (placed.lookup i).getD ⟨0, 0⟩) sizes).Perm
      (placedBoxes (placingOrder sizes) placed) := by
  have hsnd := (placingOrder_perm sizes).map Prod.snd
  rw [List.zipIdx_map_snd] at hsnd
  have hnodup : ((placingOrder sizes).map Prod.snd).Nodup := hsnd.nodup_iff.2 (List.nodup_range')
  have hboxes : boxes ((List.range sizes.length).map fun i => (placed.lookup i).getD ⟨0, 0⟩) sizes =
      sizes.zipIdx.map fun image => ⟨(placed.lookup image.2).getD ⟨0, 0⟩, image.1⟩ := by
    rw [boxes]
    apply List.ext_getElem <;> simp
  rw [placedBoxes_eq_map hnodup hnumbers, hboxes]
  exact ((placingOrder_perm sizes).map _).symm

/-! ### Layouts -/

/-- Every width that the widest image fits into gives an arrangement. -/
theorem layoutWithin_arranges {sizes : List Size} (hne : sizes ≠ []) {width spacing : Nat}
    (hwidth : ∀ s ∈ sizes, s.width ≤ width)
    (hfits : Fits width spacing .first (placingOrder sizes)) :
    Arranges spacing width sizes (layoutWithin width sizes spacing).1
      (layoutWithin width sizes spacing).2 := by
  cases hplace : place width spacing .first (placingOrder sizes) with
  | mk placed last =>
    have hnumbers : placed.map Prod.fst = (placingOrder sizes).map Prod.snd := by
      rw [← map_fst_place width spacing .first, hplace]
    have hmem : ∀ image ∈ placingOrder sizes, image.1.width ≤ width := fun image himage =>
      hwidth _ (List.fst_mem_of_mem_zipIdx ((placingOrder_perm sizes).subset himage))
    have hsome : placingOrder sizes ≠ [] := fun h => hne (by simpa [h] using (placingOrder_perm sizes).symm)
    obtain ⟨hfills, hheight, hreaches⟩ := Fills.place hmem hfits (.first spacing width) hplace
    have hend := hreaches (.inl hsome)
    rw [List.nil_append] at hfills hend
    have hperm := boxes_perm hnumbers
    have hlayout : layoutWithin width sizes spacing =
        ((List.range sizes.length).map fun i => (placed.lookup i).getD ⟨0, 0⟩,
          ⟨last.used, last.y + last.height⟩) := by rw [layoutWithin, hplace, ← sum_eq hheight]
    rw [hlayout]
    obtain ⟨⟨b, hb, hright⟩, ⟨b', hb', hbottom⟩⟩ := hend
    exact
      { length_eq := by simp
        inside := fun b hb => hfills.inside (hperm.subset hb)
        apart := (hperm.pairwise_iff Box.Apart.symm).2 hfills.apart
        width_attained := ⟨b, hperm.symm.subset hb, hright⟩
        height_attained := ⟨b', hperm.symm.subset hb', hbottom⟩
        width_le := hfills.used_le }

theorem le_foldl_max (ns : List Nat) (n : Nat) : n ≤ ns.foldl max n ∧ ∀ m ∈ ns, m ≤ ns.foldl max n := by
  induction ns generalizing n with
  | nil => simp
  | cons k ns ih =>
    obtain ⟨hn, hns⟩ := ih (max n k)
    refine ⟨Nat.le_trans (Nat.le_max_left _ _) hn, List.forall_mem_cons.2 ⟨?_, hns⟩⟩
    exact Nat.le_trans (Nat.le_max_right _ _) hn

theorem powerOfTwo_le {n k : Nat} (h : n ≤ 2 ^ k) : powerOfTwo n ≤ 2 ^ k := by
  unfold powerOfTwo
  split
  · exact Nat.one_le_two_pow
  · exact Nat.pow_le_pow_right (by decide) ((Nat.log2_lt (by omega)).2 (by omega))

/-- The widest image fits into the sheet, if its width has 32 bits. -/
theorem width_le_sheetWidth {sizes : List Size} {spacing : Nat} (h : estimate sizes spacing ≤ 2 ^ 31)
    {s : Size} (hs : s ∈ sizes) : s.width ≤ sheetWidth sizes spacing := by
  have hwidest : s.width ≤ estimate sizes spacing :=
    Nat.le_trans ((le_foldl_max _ 0).2 _ (List.mem_map_of_mem hs)) (Nat.le_max_left _ _)
  rw [sheetWidth, Nat.mod_eq_of_lt (Nat.lt_of_le_of_lt (powerOfTwo_le h) (by decide))]
  exact Nat.le_trans hwidest (le_powerOfTwo _)

/-- Nothing that is computed for a layout is too large: no sum loses a carry, neither of the
estimate nor where images are placed, the width of the sheet has 32 bits, and a picture of this
size, with four bytes to a pixel, fits a buffer. -/
structure NoOverflow (sizes : List Size) (spacing : Nat) : Prop where
  sides : ∀ s ∈ sizes, s.width + spacing < 2 ^ 32 ∧ s.height + spacing < 2 ^ 32
  area : sizes.foldl (fun n s => n + (s.width + spacing) * (s.height + spacing)) 0 < 2 ^ 64
  estimate : estimate sizes spacing ≤ 2 ^ 31
  placing : Fits (sheetWidth sizes spacing) spacing .first (placingOrder sizes)
  buffer : (layout sizes spacing).2.width * (layout sizes spacing).2.height * 4 < 2 ^ 63

/-- The layout that is chosen arranges the images. -/
theorem NoOverflow.arranges {sizes : List Size} {spacing : Nat} (h : NoOverflow sizes spacing)
    (hne : sizes ≠ []) :
    Arranges spacing (sheetWidth sizes spacing) sizes (layout sizes spacing).1 (layout sizes spacing).2 :=
  layoutWithin_arranges hne (fun _ hs => width_le_sheetWidth h.estimate hs) h.placing

/-- The sides of a sheet have 32 bits. -/
theorem layout_lt (sizes : List Size) (spacing : Nat) :
    (layout sizes spacing).2.width < 2 ^ 32 ∧ (layout sizes spacing).2.height < 2 ^ 32 := by
  have hused (width : Nat) (images : List (Size × Nat)) (shelf : Shelf) (h : shelf.used < 2 ^ 32) :
      (place width spacing shelf images).2.used < 2 ^ 32 := by
    induction images generalizing shelf with
    | nil => exact h
    | cons image images ih =>
      refine ih _ (Nat.max_lt.2 ⟨?_, sum_lt _ _⟩)
      unfold Shelf.fitting
      split <;> exact h
  exact ⟨hused _ _ .first (by decide), sum_lt _ _⟩

/-- A layout arranges the images on a sheet of the estimated width, and would do so with any
other width that the widest image fits into, as long as no sum loses a carry. -/
theorem layout_arranges {sizes : List Size} (hne : sizes ≠ []) (spacing : Nat) :
    layout sizes spacing = layoutWithin (sheetWidth sizes spacing) sizes spacing ∧
      (estimate sizes spacing ≤ 2 ^ 31 → ∀ s ∈ sizes, s.width ≤ sheetWidth sizes spacing) ∧
      ∀ width, (∀ s ∈ sizes, s.width ≤ width) → Fits width spacing .first (placingOrder sizes) →
        Arranges spacing width sizes (layoutWithin width sizes spacing).1
          (layoutWithin width sizes spacing).2 :=
  ⟨rfl, fun hestimate _ => width_le_sheetWidth hestimate,
    fun _ hwidth hfits => layoutWithin_arranges hne hwidth hfits⟩

/-- Three shelves, an image without width among them. -/
theorem layout_arranges_shelves :
    (∀ s ∈ ([⟨3, 2⟩, ⟨2, 5⟩, ⟨0, 2⟩, ⟨6, 1⟩, ⟨3, 2⟩] : List Size), s.width ≤ 7) ∧
      (∀ s ∈ ([⟨3, 2⟩, ⟨2, 5⟩, ⟨0, 2⟩, ⟨6, 1⟩, ⟨3, 2⟩] : List Size),
        s.width ≤ sheetWidth [⟨3, 2⟩, ⟨2, 5⟩, ⟨0, 2⟩, ⟨6, 1⟩, ⟨3, 2⟩] 1) ∧
      Arranges 1 7 [⟨3, 2⟩, ⟨2, 5⟩, ⟨0, 2⟩, ⟨6, 1⟩, ⟨3, 2⟩] [⟨3, 0⟩, ⟨0, 0⟩, ⟨7, 0⟩, ⟨0, 9⟩, ⟨0, 6⟩]
        ⟨7, 10⟩ := by
  have hwidth : ∀ s ∈ ([⟨3, 2⟩, ⟨2, 5⟩, ⟨0, 2⟩, ⟨6, 1⟩, ⟨3, 2⟩] : List Size), s.width ≤ 7 := by decide
  refine ⟨hwidth, (layout_arranges (by decide) 1).2.1 (by decide +kernel), ?_⟩
  have horder : placingOrder [⟨3, 2⟩, ⟨2, 5⟩, ⟨0, 2⟩, ⟨6, 1⟩, ⟨3, 2⟩] =
      [(⟨2, 5⟩, 1), (⟨3, 2⟩, 0), (⟨0, 2⟩, 2), (⟨3, 2⟩, 4), (⟨6, 1⟩, 3)] := by
    simp [placingOrder, List.mergeSort]
  have h := (layout_arranges (by decide) 1).2.2 7 hwidth (by rw [horder]; decide)
  have hlayout : layoutWithin 7 [⟨3, 2⟩, ⟨2, 5⟩, ⟨0, 2⟩, ⟨6, 1⟩, ⟨3, 2⟩] 1 =
      ([⟨3, 0⟩, ⟨0, 0⟩, ⟨7, 0⟩, ⟨0, 9⟩, ⟨0, 6⟩], ⟨7, 10⟩) := by
    rw [layoutWithin, horder]
    decide
  rwa [hlayout] at h

end Layout

end StylePrep
