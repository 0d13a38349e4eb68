import StylePrep.Proofs.Compression
import StylePrep.Sprite.Image

/-!
# Image files are read back

An image library is used to write sheets, and what is said about a sheet is said of the picture
in its file. This takes a library that loses nothing (`ImageLibrary.Lossless`). The library for
PNG files is one: `Png.lossless`.

A PNG file is read in the steps that it is written in, backwards: its chunks
(`readChunk_append`), the compressed stream in them (`inflate_compress`), the rows with their
filters (`Filtered.readRows?_eq`), and the pixels of the rows (`map_pixel_pieces`).
-/

namespace StylePrep

/-- Images of the same size with the same pixels. -/
structure Raster.Same (a b : Raster) : Prop where
  size_eq : a.size = b.size
  pixel_eq : ∀ x < b.size.width, ∀ y < b.size.height, a.pixel x y = b.pixel x y

/-- An image that is written to a path which ends in `.png` is read back as it was. -/
def ImageLibrary.Lossless (lib : ImageLibrary) : Prop :=
  ∀ (p : Path) (image : Raster) (file : Bytes), ".png".toList <:+ p.text →
    0 < image.size.width → image.size.width < 2 ^ 32 → 0 < image.size.height →
    image.size.height < 2 ^ 32 → lib.encode? p image = some file →
    ∃ written, lib.decode? p file = some written ∧ written.Same image

/-! ### Filters -/

namespace Filter

theorem ofCode?_code (f : Filter) : ofCode? f.code = some f := by cases f <;> rfl

@[simp] theorem length_apply (f : Filter) (behind : List (UInt8 × UInt8)) (above row : Bytes) :
    (f.apply behind above row).length = row.length := by
  induction row generalizing behind above with
  | nil => rfl
  | cons sample row ih => simp [apply, ih]

theorem apply_plain (behind : List (UInt8 × UInt8)) (above row : Bytes) :
    plain.apply behind above row = row := by
  induction row generalizing behind above with
  | nil => rfl
  | cons sample row ih => simp [apply, predict, ih]

theorem best_eq (samples : Nat) (above row : Bytes) :
    ∃ f, best samples above row = (f, f.apply (outside samples) above row) := by
  have hfold (tried : List (Filter × Bytes)) (start : Filter × Bytes)
      (hstart : ∃ f : Filter, start = (f, f.apply (outside samples) above row))
      (htried : ∀ t ∈ tried, ∃ f : Filter, t = (f, f.apply (outside samples) above row)) :
      ∃ f : Filter, tried.foldl (fun best next => if cost next.2 ≤ cost best.2 then next else best) start =
        (f, f.apply (outside samples) above row) := by
    induction tried generalizing start with
    | nil => exact hstart
    | cons t tried ih =>
      obtain ⟨ht, htried⟩ := List.forall_mem_cons.1 htried
      refine ih _ ?_ htried
      dsimp only
      split
      · exact ht
      · exact hstart
  refine hfold _ _ ⟨left, rfl⟩ fun t ht => ?_
  obtain ⟨f, -, rfl⟩ := List.mem_map.1 ht
  exact ⟨f, rfl⟩

/-- Rows behind the codes of their filters, each filtered somehow. -/
inductive Filtered (samples : Nat) : Bytes → List Bytes → List Bytes → Prop
  | nil (above : Bytes) : Filtered samples above [] []
  | cons (f : Filter) {above row : Bytes} {rows coded : List Bytes} (h : Filtered samples row rows coded) :
      Filtered samples above (row :: rows) ((f.code :: f.apply (outside samples) above row) :: coded)

namespace Filtered

variable {samples : Nat} {above : Bytes} {rows coded : List Bytes}

theorem readRows?_eq (h : Filtered samples above rows coded) :
    readRows? samples above coded = some rows := by
  induction h with
  | nil => rfl
  | cons f _ ih => simp [readRows?, ofCode?_code, undo_apply, ih]

theorem length_eq (h : Filtered samples above rows coded) : coded.length = rows.length := by
  induction h with
  | nil => rfl
  | cons f _ ih => simp [ih]

theorem length_of_mem (h : Filtered samples above rows coded) {stride : Nat}
    (hrows : ∀ row ∈ rows, row.length = stride) : ∀ row ∈ coded, row.length = stride + 1 := by
  induction h with
  | nil => nofun
  | cons f _ ih =>
    obtain ⟨hrow, hrows⟩ := List.forall_mem_cons.1 hrows
    exact List.forall_mem_cons.2 ⟨by simp [hrow], ih hrows⟩

theorem filterRows (samples : Nat) (above : Bytes) (rows : List Bytes) :
    Filtered samples above rows (Filter.filterRows samples above rows) := by
  induction rows generalizing above with
  | nil => exact .nil above
  | cons row rows ih =>
    obtain ⟨f, hf⟩ := best_eq samples above row
    rw [Filter.filterRows, hf]
    exact .cons f (ih row)

theorem plain (samples : Nat) (above : Bytes) (rows : List Bytes) :
    Filtered samples above rows (rows.map (Filter.plain.code :: ·)) := by
  induction rows generalizing above with
  | nil => exact .nil above
  | cons row rows ih =>
    have hrow : Filtered samples above (row :: rows) (_ :: _) := .cons .plain (ih row)
    rwa [apply_plain] at hrow

end Filtered

end Filter

namespace Png

open Encoding

/-- The compressed stream of rows holds them behind the codes of their filters. -/
theorem inflate_compress (rows : List Bytes) : ∃ coded,
    Inflate.inflate (compress rows) = some coded.flatten ∧ Filter.Filtered 4 [] rows coded := by
  unfold compress
  dsimp only
  split
  · refine ⟨_, ?_, .plain 4 [] rows⟩
    rw [Deflate.inflate_store, List.flatMap_def]
  · exact ⟨_, Deflate.inflate_deflate _, .filterRows 4 [] rows⟩

/-! ### Chunks -/

theorem readChunk_append {name : String} {data : Bytes} (hname : (letters name).length = 4)
    (hdata : data.length < 2 ^ 32) (rest : Bytes) :
    readChunk (chunk name data ++ rest) = some (letters name, data, rest) := by
  have hcheck : (crc32 (letters name ++ data)).toNat < 256 ^ 4 := (crc32 (letters name ++ data)).toNat_lt
  have hlength : ofBigEndian (bigEndian 4 data.length) = data.length := ofBigEndian_bigEndian hdata
  have hbytes : chunk name data ++ rest = bigEndian 4 data.length ++ (letters name ++ data ++
      (bigEndian 4 (crc32 (letters name ++ data)).toNat ++ rest)) := by
    simp only [chunk, List.append_assoc]
  have hbody : (letters name ++ data).length = 4 + data.length := by rw [List.length_append, hname]
  have hdrop (n : Nat) (more : Bytes) :
      (bigEndian 4 data.length ++ (letters name ++ data ++ more)).drop (8 + data.length + n) =
        more.drop n := by
    have hfront : (bigEndian 4 data.length ++ (letters name ++ data)).length = 8 + data.length := by
      rw [List.length_append, hbody, length_bigEndian]
      omega
    rw [← List.append_assoc, ← List.drop_drop, List.drop_left' hfront]
  rw [hbytes, readChunk, List.take_left' (length_bigEndian 4 _), hlength,
    List.drop_left' (length_bigEndian 4 _), List.take_left' hbody]
  have hdrop₀ := hdrop 0 (bigEndian 4 (crc32 (letters name ++ data)).toNat ++ rest)
  have hdrop₄ := hdrop 4 (bigEndian 4 (crc32 (letters name ++ data)).toNat ++ rest)
  have htwelve : 8 + data.length + 4 = 12 + data.length := by omega
  rw [List.drop_zero, Nat.add_zero] at hdrop₀
  rw [List.drop_left' (length_bigEndian 4 _), htwelve] at hdrop₄
  rw [hdrop₀, hdrop₄, List.take_left' (length_bigEndian 4 _), ofBigEndian_bigEndian hcheck,
    if_pos ⟨hbody, length_bigEndian 4 _, rfl⟩, List.take_left' hname, List.drop_left' hname]

/-- The data of chunks up to the end mark is read. -/
theorem readData_append {blocks : List Bytes} (h : ∀ block ∈ blocks, block.length < 2 ^ 32)
    {fuel : Nat} (hfuel : blocks.length < fuel) :
    readData fuel (blocks.flatMap (chunk "IDAT") ++ chunk "IEND" []) = some blocks.flatten := by
  induction blocks generalizing fuel with
  | nil =>
    obtain ⟨fuel, rfl⟩ := Nat.exists_eq_add_one_of_ne_zero (Nat.ne_zero_of_lt hfuel)
    have hchunk : readChunk (chunk "IEND" [] ++ []) = some (letters "IEND", [], []) :=
      readChunk_append rfl (by decide) []
    rw [List.append_nil] at hchunk
    rw [List.flatMap_nil, List.nil_append, readData, hchunk]
    rfl
  | cons block blocks ih =>
    obtain ⟨fuel, rfl⟩ := Nat.exists_eq_add_one_of_ne_zero (Nat.ne_zero_of_lt hfuel)
    obtain ⟨hblock, hblocks⟩ := List.forall_mem_cons.1 h
    rw [List.flatMap_cons, List.append_assoc, readData, readChunk_append rfl hblock]
    dsimp only [Option.bind_eq_bind, Option.bind_some]
    rw [if_neg (by decide), ih hblocks (by simpa using hfuel)]
    rfl

theorem length_chunk_pos (name : String) (data : Bytes) : 0 < (chunk name data).length := by
  simp only [chunk, List.length_append, length_bigEndian]
  omega

theorem length_lt_chunks (blocks : List Bytes) :
    blocks.length < (blocks.flatMap (chunk "IDAT") ++ chunk "IEND" []).length := by
  induction blocks with
  | nil => exact length_chunk_pos "IEND" []
  | cons block blocks ih =>
    have hchunk := length_chunk_pos "IDAT" block
    rw [List.flatMap_cons, List.append_assoc, List.length_append, List.length_cons]
    omega

theorem readHeader_header {size : Size} (hwidth : 0 < size.width) (hwidth' : size.width < 2 ^ 32)
    (hheight : 0 < size.height) (hheight' : size.height < 2 ^ 32) :
    readHeader (header size) = some ⟨size, .rgba⟩ := by
  have hfront : header size =
      bigEndian 4 size.width ++ (bigEndian 4 size.height ++ [8, 6, 0, 0, 0]) := by
    rw [header, List.append_assoc]
  have hrest : (header size).drop 8 = [8, 6, 0, 0, 0] := by
    rw [header, List.drop_left' (by simp)]
  unfold readHeader
  rw [hrest, hfront, List.take_left' (length_bigEndian 4 _), List.drop_left' (length_bigEndian 4 _),
    List.take_left' (length_bigEndian 4 _), ofBigEndian_bigEndian hwidth', ofBigEndian_bigEndian hheight']
  change (if size.width = 0 ∨ size.height = 0 then none else _) = _
  rw [if_neg (by omega)]
  rfl

/-! ### Pixels -/

/-- The pixels of a row are read from their samples. -/
theorem map_pixel_pieces (pixels : List Pixel) :
    (pieces 3 (pixels.flatMap Pixel.bytes)).map Layout.rgba.pixel = pixels := by
  have hpieces : pieces 3 (pixels.flatMap Pixel.bytes) = pixels.map Pixel.bytes := by
    rw [List.flatMap_def]
    refine pieces_flatten fun piece hpiece => ?_
    obtain ⟨p, -, rfl⟩ := List.mem_map.1 hpiece
    rfl
  rw [hpieces, List.map_map]
  exact List.map_id _

theorem length_flatMap_bytes (pixels : List Pixel) :
    (pixels.flatMap Pixel.bytes).length = pixels.length * 4 := by
  induction pixels with
  | nil => rfl
  | cons p pixels ih =>
    rw [List.flatMap_cons, List.length_append, ih, List.length_cons, Nat.add_mul, Nat.add_comm]
    rfl

/-- The rows of an image are read from what they are coded as. -/
theorem readRows_eq (size : Size) {rows : List (List Pixel)} {coded : List Bytes}
    (hheight : rows.length = size.height) (hwidth : ∀ row ∈ rows, row.length = size.width)
    (h : Filter.Filtered 4 [] (rows.map fun row => row.flatMap Pixel.bytes) coded) :
    readRows ⟨size, .rgba⟩ coded.flatten = some (rows.map List.toArray) := by
  have hlength : coded.length = size.height := by rw [h.length_eq, List.length_map, hheight]
  have hcoded : ∀ row ∈ coded, row.length = size.width * 4 + 1 := by
    refine h.length_of_mem fun row hrow => ?_
    obtain ⟨pixels, hpixels, rfl⟩ := List.mem_map.1 hrow
    rw [length_flatMap_bytes, hwidth pixels hpixels]
  have hpieces : (pieces (size.width * 4) coded.flatten).take size.height = coded := by
    rw [pieces_flatten hcoded, ← hlength, List.take_length]
  have hfull : ¬ (coded.length < size.height ∨ (coded.any (·.length ≠ size.width * 4 + 1)) = true) := by
    rw [hlength]
    simpa using hcoded
  have hpixels : (rows.map fun row => row.flatMap Pixel.bytes).map
      (fun row => ((pieces 3 row).map Layout.rgba.pixel).toArray) = rows.map List.toArray := by
    rw [List.map_map]
    exact List.map_congr_left fun row _ => congrArg List.toArray (map_pixel_pieces row)
  unfold readRows
  dsimp only [Layout.samples]
  rw [hpieces, if_neg hfull, h.readRows?_eq]
  exact congrArg some hpixels

theorem decode_encode {image : Raster} (hwidth : 0 < image.size.width)
    (hwidth' : image.size.width < 2 ^ 32) (hheight : 0 < image.size.height)
    (hheight' : image.size.height < 2 ^ 32) :
    decode (encode image) = some (.ofRows image.size (image.rows.map List.toArray).toArray) := by
  obtain ⟨coded, hinflate, hcoded⟩ :=
    inflate_compress (image.rows.map fun row => row.flatMap Pixel.bytes)
  have hblocks (block) (h : block ∈ pieces (maxChunk - 1)
      (compress (image.rows.map fun row => row.flatMap Pixel.bytes))) : block.length < 2 ^ 32 :=
    Nat.lt_of_le_of_lt (length_le_of_mem_pieces h) (by decide)
  have hrows := readRows_eq image.size (by simp [Raster.rows])
    (fun row hrow => by
      obtain ⟨y, -, rfl⟩ := List.mem_map.1 hrow
      simp [Raster.row]) hcoded
  generalize hdata : pieces (maxChunk - 1)
    (compress (image.rows.map fun row => row.flatMap Pixel.bytes)) = blocks at hblocks
  have hstart : readStart (encode image) = some (⟨image.size, .rgba⟩,
      blocks.flatMap (chunk "IDAT") ++ chunk "IEND" []) := by
    have hsignature : signature.length = 8 := rfl
    rw [encode, hdata, readStart, List.append_assoc, List.append_assoc, List.take_left' hsignature,
      if_neg (by simp), List.drop_left' hsignature, readChunk_append rfl (by simp [header])]
    dsimp only [Option.bind_eq_bind, Option.bind_some]
    rw [if_pos rfl, readHeader_header hwidth hwidth' hheight hheight']
    rfl
  have hfile : blocks.flatten = compress (image.rows.map fun row => row.flatMap Pixel.bytes) := by
    rw [← hdata, flatten_pieces]
  rw [decode, hstart]
  dsimp only [Option.bind_eq_bind, Option.bind_some]
  rw [readData_append hblocks (length_lt_chunks blocks)]
  dsimp only [Option.bind_some]
  rw [hfile, hinflate]
  dsimp only [Option.bind_some]
  rw [hrows]
  rfl

/-- The rows of an image have its pixels. -/
theorem same_ofRows (image : Raster) :
    (Raster.ofRows image.size (image.rows.map List.toArray).toArray).Same image where
  size_eq := rfl
  pixel_eq x hx y hy := by
    simp [Raster.ofRows, Raster.rows, Raster.row, Array.getD_eq_getD_getElem?, hx, hy]

/-- The library for PNG files loses nothing. -/
theorem lossless : Image.pngLibrary.Lossless := by
  intro p image file _ hwidth hwidth' hheight hheight' hfile
  unfold ImageLibrary.encode? ImageLibrary.decode? Image.pngLibrary at *
  dsimp only at hfile ⊢
  split at hfile
  · rename_i hpng
    obtain rfl := Option.some.inj hfile
    rw [if_pos hpng, decode_encode hwidth hwidth' hheight hheight']
    exact ⟨_, rfl, same_ofRows image⟩
  · cases hfile

end Png

end StylePrep
