import GameData.Proofs.Image.Pixels
import GameData.Proofs.Texture.Sheet

/-!
Textures made of images.

The layers follow each other without gaps behind the heads, each as large as its own image, and the footer follows the
last one. The mirror and the half turn leave the rows of an image from the bottom up, and each pixel blue before red.
-/
namespace GameData.Texture.TerrainSheet

open Files Filling Layout

theorem binary_of_checkSides {i : Image} (h : checkSides i = .ok ()) : i.Binary := by
  obtain ⟨_, _, afterZero⟩ := bind_eq_ok.mp h
  obtain ⟨_, width, afterWidth⟩ := bind_eq_ok.mp afterZero
  obtain ⟨_, _, height⟩ := bind_eq_ok.mp afterWidth
  exact ⟨ensure_eq_ok.mp width, ensure_eq_ok.mp height⟩

section Pixels

variable {i : Image} (h : i.Coloured)
include h

theorem length_turned (wide : 0 < i.width) : i.flipLeftRight.halfTurn.data.length = i.width * i.height * 4 := by
  have turned : i.flipLeftRight.halfTurn.data.length = i.pixelSize * i.width * i.height :=
    ((h.packed.flipLeftRight wide).halfTurn wide).size
  rw [turned, h.pixelSize, Nat.mul_assoc, Nat.mul_comm]

theorem length_pixels (wide : 0 < i.width) (offset : Nat) :
    (layerOf offset i).pixels.length = i.width * i.height * 4 :=
  (Image.length_swapRedBlue _).trans (length_turned h wide)

/-- A pixel is stored in the row that has its number from below. -/
theorem slice_pixels {x y : Nat} (inRow : x < i.width) (inColumn : y < i.height) (offset : Nat) :
    (layerOf offset i).pixels.slice (4 * ((i.height - 1 - y) * i.width + x)) 4 = Image.swapRedBlue (i.pixel x y) := by
  have below : i.height - 1 - y < i.height := by omega
  have back : i.height - 1 - (i.height - 1 - y) = y := by omega
  have inside : 4 * ((i.height - 1 - y) * i.width + x) + 4 ≤ i.flipLeftRight.halfTurn.data.length := by
    have place := Image.place_lt inRow below
    rw [length_turned h (Nat.zero_lt_of_lt inRow)]
    omega
  have moved : i.flipLeftRight.halfTurn.data.slice (4 * ((i.height - 1 - y) * i.width + x)) 4 =
      i.flipLeftRight.halfTurn.pixel x (i.height - 1 - y) := by
    have same : i.flipLeftRight.halfTurn.pixelSize = 4 := h.pixelSize
    rw [Image.pixel, same]
    rfl
  calc (layerOf offset i).pixels.slice (4 * ((i.height - 1 - y) * i.width + x)) 4
      = Image.swapRedBlue (i.flipLeftRight.halfTurn.pixel x (i.height - 1 - y)) := by
        rw [← moved]
        exact Image.slice_swapRedBlue inside
    _ = Image.swapRedBlue (i.pixel x y) := by rw [h.packed.pixel_halfTurn_flipLeftRight inRow below, back]

end Pixels

/-- The layers of images, each behind the pixels of the layers before it. -/
inductive Placed : Nat → List Image → List TerrainLayer → Prop
  | nil (offset : Nat) : Placed offset [] []
  | cons {offset : Nat} {i : Image} {images : List Image} {layers : List TerrainLayer} (sides : i.Binary)
      (others : Placed (offset + (layerOf offset i).pixels.length) images layers) :
      Placed offset (i :: images) (layerOf offset i :: layers)

theorem placed_of_makeLayers {images : List Image} (coloured : ∀ i ∈ images, i.Coloured)
    {offset : Nat} {s s' : Session} {layers : List TerrainLayer}
    (h : (makeLayers offset images).fill s = (.ok layers, s')) : Placed offset images layers := by
  induction images generalizing offset s layers with
  | nil =>
      cases h
      exact .nil offset
  | cons i images ih =>
      obtain ⟨first, others⟩ := List.forall_mem_cons.mp coloured
      rw [makeLayers, first.toColourAlpha] at h
      obtain ⟨_, _, checked, said⟩ := fill_bind_eq_ok.mp h
      rw [fill_attempt] at checked
      obtain ⟨_, _, _, more⟩ := fill_bind_eq_ok.mp said
      obtain ⟨later, _, run, joined⟩ := fill_bind_eq_ok.mp more
      cases joined
      exact .cons (binary_of_checkSides (congrArg Prod.fst checked)) (ih others run)

namespace Placed

variable {offset : Nat} {images : List Image} {layers : List TerrainLayer} (h : Placed offset images layers)
include h

theorem length_eq : layers.length = images.length := by
  induction h with
  | nil => rfl
  | cons sides others ih => rw [List.length_cons, ih, List.length_cons]

theorem sides {i : Image} (mem : i ∈ images) : i.Binary := by
  induction h with
  | nil => cases mem
  | cons first others ih =>
      rcases List.mem_cons.mp mem with rfl | later
      · exact first
      · exact ih later

theorem getElem? {n : Nat} {i : Image} (place : images[n]? = some i) :
    layers[n]? = some (layerOf (offset + ((layers.take n).map (·.pixels.length)).sum) i) := by
  induction h generalizing n with
  | nil => cases place
  | @cons offset j images layers sides others ih =>
      cases n with
      | zero =>
          cases place
          rfl
      | succ n =>
          rw [List.getElem?_cons_succ, List.take_succ_cons, List.map_cons, List.sum_cons, ← Nat.add_assoc]
          exact ih place

theorem exists_image {l : TerrainLayer} (mem : l ∈ layers) : ∃ i ∈ images, ∃ start, l = layerOf start i := by
  obtain ⟨n, place⟩ := List.mem_iff_getElem?.mp mem
  have inside : n < images.length := by
    rw [← h.length_eq]
    exact (List.getElem?_eq_some_iff.mp place).1
  have layer := h.getElem? (List.getElem?_eq_getElem inside)
  exact ⟨_, List.getElem_mem inside, _, Option.some.inj (place.symm.trans layer)⟩

end Placed

section Fields

theorem length_mark : (Bytes.ofText "LOOP").length = 4 := by decide +kernel

theorem fits_headerOf (count finish : Nat) (first : Image) : headerLayout.Fits (headerOf count finish first) := by
  refine ⟨rfl, ?_⟩
  simp [headerLayout, Layout.words, headerOf, List.lookup, Slot.Takes, length_mark]

theorem fits_layerOf (offset : Nat) (i : Image) : layerLayout.Fits (layerOf offset i).fields := by
  refine ⟨rfl, ?_⟩
  simp [layerLayout, Layout.words, Layout.shorts, layerOf, List.lookup, Slot.Takes]

theorem fits_footer : footerLayout.Fits ({} : TerrainSheet).footer := by
  refine ⟨rfl, ?_⟩
  simp [footerLayout, Layout.words, Layout.shorts, List.lookup, Slot.Takes, length_mark]

end Fields

/-- A texture of images: the layers behind their heads, and the footer behind the layers. -/
structure Made (first : Image) (others : List Image) (t : TerrainSheet) (finish : Nat) : Prop where
  coloured : ∀ i ∈ first :: others, i.Coloured
  placed : Placed (52 + 32 * (first :: others).length) (first :: others) t.layers
  header : t.header = headerOf (first :: others).length finish first
  finish : finish = 52 + 32 * (first :: others).length + (t.layers.map (·.pixels.length)).sum
  footer : t.footer = ({} : TerrainSheet).footer
  patches : t.patches = []

theorem foldl_sizes (layers : List TerrainLayer) (n : Nat) :
    layers.foldl (fun n l => n + l.pixels.length) n = n + (layers.map (·.pixels.length)).sum := by
  induction layers generalizing n with
  | nil => rfl
  | cons l layers ih => rw [List.foldl_cons, ih, List.map_cons, List.sum_cons, Nat.add_assoc]

theorem made_of_ofImages {images : List Image} (coloured : ∀ i ∈ images, i.Coloured) {s s' : Session} {t : TerrainSheet}
    (h : (ofImages images).fill s = (.ok t, s')) :
    ∃ first others finish, images = first :: others ∧ Made first others t finish := by
  obtain ⟨layers, _, run, h⟩ := fill_bind_eq_ok.mp h
  cases images with
  | nil => cases h
  | cons first others =>
      cases h
      exact ⟨first, others, _, rfl, coloured, placed_of_makeLayers coloured run, rfl, foldl_sizes .., rfl, rfl⟩

namespace Made

variable {first : Image} {others : List Image} {t : TerrainSheet} {finish : Nat} (m : Made first others t finish)
include m

theorem loadable : t.Loadable := by
  refine ⟨?_, ?_, ?_, ?_, ?_, ?_, m.patches⟩
  · rw [m.header]
    exact fits_headerOf _ _ _
  · intro l mem
    obtain ⟨i, _, start, rfl⟩ := m.placed.exists_image mem
    exact fits_layerOf start i
  · rw [m.footer]
    exact fits_footer
  · rw [m.header, m.placed.length_eq]
    rfl
  · intro l mem
    obtain ⟨i, inside, start, rfl⟩ := m.placed.exists_image mem
    rw [length_pixels (m.coloured i inside) (m.placed.sides inside).wide]
    rfl
  · rw [m.footer]
    rfl

variable {b head foot : Bytes} {heads : List Bytes} (p : t.Pieces b head heads foot)
include p

theorem length_front : (head ++ heads.flatten).length = 52 + 32 * (first :: others).length := by
  rw [List.length_append, (m.loadable.header.written p.header).length, Bytes.length_flatten_blocks p.size,
    p.length_heads, m.placed.length_eq]
  rfl

theorem slice_file (k n : Nat) : b.slice (52 + 32 * (first :: others).length + k) n =
    Bytes.slice ((t.layers.map (·.pixels)).flatten ++ foot) k n := by
  rw [p.file, ← List.append_assoc, Bytes.slice_add (m.length_front p)]

theorem length_body : (head ++ heads.flatten ++ (t.layers.map (·.pixels)).flatten).length = finish := by
  rw [List.length_append, m.length_front p, List.length_flatten, List.map_map, m.finish]
  rfl

theorem drop_file : b.drop finish = foot := by
  rw [p.file, ← List.append_assoc, ← List.append_assoc, List.drop_left' (m.length_body p)]

end Made

/-- Saved textures of images: each layer has its pixels at its offset, with the pixel in column `x` and row `y` of the
image in the row that has this number from below and blue before red; the footer ends the file; loading gives back the
texture. -/
theorem replaced_texture_layout {images : List Image} {t : TerrainSheet} {s s' : Session} {b : Bytes}
    (coloured : ∀ i ∈ images, i.Coloured) (made : (ofImages images).fill s = (.ok t, s')) (saved : t.save = .ok b) :
    t.layers.length = images.length ∧
    (∀ (n : Nat) (i : Image), images[n]? = some i → ∃ (l : TerrainLayer) (offset : Nat), t.layers[n]? = some l ∧
      l.fields.lookup "image_offset" = some (.int offset) ∧
      l.fields.lookup "image_width" = some (.int i.width) ∧ l.fields.lookup "image_height" = some (.int i.height) ∧
      l.pixels.length = i.width * i.height * 4 ∧ b.slice offset (i.width * i.height * 4) = l.pixels ∧
      ∀ x y, x < i.width → y < i.height → ∃ red green blue alpha, i.pixel x y = [red, green, blue, alpha] ∧
        l.pixels.slice (4 * ((i.height - 1 - y) * i.width + x)) 4 = [blue, green, red, alpha]) ∧
    (∃ finish : Nat, t.header.lookup "footer_offset" = some (.int finish) ∧ b.length = finish + 24 ∧
      footerLayout.write "TEXFooter" t.footer = .ok (b.drop finish)) ∧
    load b {} = (.ok (), t) := by
  obtain ⟨first, others, finish, rfl, m⟩ := made_of_ofImages coloured made
  obtain ⟨head, heads, foot, p⟩ := m.loadable.pieces saved
  refine ⟨m.placed.length_eq, ?_, ⟨finish, ?_, ?_, ?_⟩, p.load m.loadable⟩
  · intro n i place
    have inside := List.mem_of_getElem? place
    have colours := coloured i inside
    have wide := (m.placed.sides inside).wide
    have layer := m.placed.getElem? place
    refine ⟨_, _, layer, rfl, rfl, rfl, length_pixels colours wide _, ?_, ?_⟩
    · have stored := congrArg (Option.map TerrainLayer.pixels) layer
      rw [← List.getElem?_map, Option.map_some] at stored
      have found := Bytes.slice_flatten stored foot
      rwa [length_pixels colours wide, List.map_take, List.map_map, ← List.map_take, ← m.slice_file p] at found
    · intro x y inRow inColumn
      obtain ⟨red, green, blue, alpha, pixel⟩ := Image.exists_colours
        ((colours.packed.length_pixel inRow inColumn).trans colours.pixelSize)
      refine ⟨red, green, blue, alpha, pixel, ?_⟩
      rw [slice_pixels colours inRow inColumn, pixel]
      rfl
  · rw [m.header]
    rfl
  · have footer := (m.loadable.footer.written p.footer).length
    have body := m.length_body p
    rw [p.file, ← List.append_assoc, ← List.append_assoc, List.length_append, body, footer]
    rfl
  · rw [m.drop_file p, p.footer]

/-- An image of two by two pixels and one of half its area. -/
def shapesSample : List Image :=
  [{ mode := .colourAlpha, width := 2, height := 2, data := [1, 2, 3, 4, 5, 6, 7, 8, 9, 10, 11, 12, 13, 14, 15, 16] },
   { mode := .colourAlpha, width := 1, height := 2, data := [17, 18, 19, 20, 21, 22, 23, 24] }]

/-- A texture of the images can be made and written. -/
theorem exists_saved_of_isOk (images : List Image)
    (works : (((ofImages images).fill {}).1.bind fun t => t.save).isOk = true) :
    ∃ t s b, (ofImages images).fill {} = (.ok t, s) ∧ t.save = .ok b := by
  rcases made : (ofImages images).fill {} with ⟨f | t, s⟩
  · rw [made] at works
    cases works
  · rw [made] at works
    cases saved : t.save with
    | error f =>
        simp only [Except.bind, saved] at works
        cases works
    | ok b => exact ⟨t, s, b, rfl, saved⟩

theorem replaced_texture_layout_shapesSample : (∀ i ∈ shapesSample, i.Coloured) ∧
    ∃ t s b, (ofImages shapesSample).fill {} = (.ok t, s) ∧ t.save = .ok b ∧ load b {} = (.ok (), t) ∧
      ∃ l, t.layers[1]? = some l ∧ l.pixels.slice 0 4 = [23, 22, 21, 24] := by
  have coloured : ∀ i ∈ shapesSample, i.Coloured := by decide +kernel
  obtain ⟨t, s, b, made, saved⟩ := exists_saved_of_isOk shapesSample (by decide +kernel)
  obtain ⟨_, layers, _, loaded⟩ := replaced_texture_layout coloured made saved
  obtain ⟨l, _, layer, _, _, _, _, _, pixels⟩ := layers 1 _ rfl
  obtain ⟨red, green, blue, alpha, pixel, stored⟩ := pixels 0 1 (by decide) (by decide)
  cases pixel
  exact ⟨coloured, t, s, b, made, saved, loaded, l, layer, stored⟩

end GameData.Texture.TerrainSheet
