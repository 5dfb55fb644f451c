import GameData.Proofs.Texture.Replacement

/-!
Textures of images read as sheets.

A sheet takes its bitmaps off the file in the size that the header tells, while the texture was written with layers of
their own sizes. Reading a layer in another size than its own either cuts it or runs into what follows it, at the
latest into the footer. So the bitmaps are the layers exactly when all images are as large as the first.
-/
namespace GameData.Texture

theorem record_append {size : Nat} {head : Bytes} (length : head.length = size) (rest : Bytes) :
    record size (head ++ rest) = .ok (head, rest) := by
  rw [record, List.take_left' length, List.drop_left' length]
  exact bind_eq_ok.mpr ⟨head, exactly_eq_ok.mpr ⟨length, rfl⟩, rfl⟩

theorem records_flatten {α : Type} {size : Nat} (make : Bytes → α) {heads : List Bytes}
    (each : ∀ h ∈ heads, h.length = size) (rest : Bytes) :
    records size make heads.length (heads.flatten ++ rest) = .ok (heads.map make, rest) := by
  induction heads with
  | nil => rfl
  | cons h heads ih =>
      obtain ⟨first, others⟩ := List.forall_mem_cons.mp each
      rw [List.length_cons, records, List.flatten_cons, List.append_assoc, record_append first, ok_bind]
      exact bind_eq_ok.mpr ⟨_, ih others, rfl⟩

section Bitmaps

variable {width height mode d : Nat} (known : depth mode = .ok d) {bitmaps : List Bytes} {rest : Bytes}
include known

theorem sheetBitmaps_flatten (small : width * height * d ≤ Bytes.readLimit)
    (size : ∀ b ∈ bitmaps, b.length = width * height * d) :
    sheetBitmaps width height mode bitmaps.length (bitmaps.flatten ++ rest) = .ok (bitmaps, rest) := by
  induction bitmaps with
  | nil => rfl
  | cons b bitmaps ih =>
      obtain ⟨first, others⟩ := List.forall_mem_cons.mp size
      rw [List.length_cons, sheetBitmaps, known, ok_bind, Bytes.read, if_pos small, ok_bind, List.flatten_cons,
        List.append_assoc, List.take_left' first, List.drop_left' first, ih others]
      rfl

/-- Bitmaps that are read back as they are have the size in which they are read, if anything follows them. -/
theorem size_of_sheetBitmaps (more : rest ≠ []) {left : Bytes}
    (h : sheetBitmaps width height mode bitmaps.length (bitmaps.flatten ++ rest) = .ok (bitmaps, left)) :
    ∀ b ∈ bitmaps, b.length = width * height * d := by
  induction bitmaps with
  | nil => exact List.forall_mem_nil _
  | cons b bitmaps ih =>
      rw [List.length_cons, sheetBitmaps, known, ok_bind, List.flatten_cons, List.append_assoc] at h
      obtain ⟨taken, read, h⟩ := bind_eq_ok.mp h
      obtain ⟨⟨later, left'⟩, others, h⟩ := bind_eq_ok.mp h
      cases h
      have cut := congrArg List.length (Bytes.eq_take_of_read read)
      have first : b.length = width * height * d := by
        have follows : 0 < rest.length := List.length_pos_iff.mpr more
        rw [List.length_take, List.length_append, List.length_append] at cut
        omega
      rw [List.drop_left' first] at others
      exact List.forall_mem_cons.mpr ⟨first, ih others⟩

end Bitmaps

def sheetOf (head : Bytes) (heads bitmaps : List Bytes) (grid : Grid) : Sheet Layer9 :=
  ⟨head.slice 0 4, head.u32 4, head.u32 8, head.u32 12, head.u32 16, head.u32 20, head.u32 24, head.u32 28, head.u32 32,
    head.u32 36, head.u32 40, head.u32 44, head.u32 48, heads.map layer9, bitmaps, grid⟩

namespace TerrainSheet.Made

open Files Filling Layout

variable {first : Image} {others : List Image} {t : TerrainSheet} {finish : Nat} (m : Made first others t finish)
  {b head foot : Bytes} {heads : List Bytes} (p : t.Pieces b head heads foot)
include m p

theorem header_mark : head.slice 0 4 = Bytes.ofText "LOOP" := by
  have headed := m.loadable.header.written p.header
  rw [m.header] at headed
  have marked := headed.slice_field (k := 0) rfl rfl
  rw [Slot.encode, List.take_left' length_mark] at marked
  exact (Except.ok.inj marked).symm

theorem length_heads : heads.length = (first :: others).length := p.length_heads.trans m.placed.length_eq

theorem header_words : head.u32 4 = 9 ∧ head.u32 32 = heads.length ∧ head.u32 40 = first.width ∧
    head.u32 44 = first.height ∧ head.u32 48 = 3 := by
  have headed := m.loadable.header.written p.header
  rw [m.header] at headed
  refine ⟨?_, ?_, ?_, ?_, ?_⟩
  · exact headed.u32_field (k := 1) (n := 9) rfl rfl
  · rw [m.length_heads p]
    exact headed.u32_field (k := 8) rfl rfl
  · exact headed.u32_field (k := 10) rfl rfl
  · exact headed.u32_field (k := 11) rfl rfl
  · exact headed.u32_field (k := 12) (n := 3) rfl rfl

theorem readGrid_foot : ∃ grid, readGrid foot = .ok (grid, []) := by
  have footed := m.loadable.footer.written p.footer
  rw [m.footer] at footed
  have columns : foot.u32 16 = 0 := footed.u32_field (k := 6) (n := 0) rfl rfl
  have sized : foot.length = 24 := footed.length
  have alone := record_append sized []
  rw [List.append_nil] at alone
  rw [readGrid, alone, ok_bind]
  simp only [columns, Nat.zero_mul]
  exact ⟨_, rfl⟩

/-- The sheet in a texture of images: the fields of its header, with the bitmaps and the grid taken off what follows. -/
theorem readSheet_file : readSheet 32 layer9 b =
    (sheetBitmaps first.width first.height 3 (t.layers.map (·.pixels)).length
      ((t.layers.map (·.pixels)).flatten ++ foot) >>= fun (bitmaps, rest) =>
        readGrid rest >>= fun (grid, rest) => .ok (sheetOf head heads bitmaps grid, rest)) := by
  have headed : head.length = 52 := (m.loadable.header.written p.header).length
  have each : ∀ h ∈ heads, h.length = 32 := p.size
  obtain ⟨_, count, width, height, mode⟩ := m.header_words p
  rw [readSheet, p.file, record_append headed, ok_bind]
  simp only [sheetOf, count, width, height, mode]
  rw [records_flatten layer9 each, ok_bind, List.length_map, List.length_map, p.length_heads]

theorem decode_file : Loop.decode b = (readSheet 32 layer9 b).map fun (t, rest) => (.sheet9 t, rest) := by
  have headed : head.length = 52 := (m.loadable.header.written p.header).length
  have front : b.take 52 = head := by rw [p.file, List.take_left' headed]
  have long : (b.take 8).length = 8 := by
    rw [List.length_take, p.file, List.length_append, headed]
    omega
  have same (k : Nat) (inside : k + 4 ≤ 8) : Bytes.slice (b.take 8) k 4 = head.slice k 4 := by
    rw [Bytes.slice_take inside, ← front, Bytes.slice_take (by omega)]
  have mark : Bytes.slice (b.take 8) 0 4 = Bytes.ofText "LOOP" := (same 0 (by omega)).trans (m.header_mark p)
  have version : Bytes.u32 (b.take 8) 4 = 9 := by
    rw [Bytes.u32, same 4 (by omega)]
    exact (m.header_words p).1
  have eight := record_append long (b.drop 8)
  rw [List.take_append_drop] at eight
  rw [Loop.decode, eight, ok_bind]
  simp only [mark, version, ne_eq, not_true_eq_false, if_false]

omit p in
theorem same_size_iff : (∀ c ∈ t.layers.map (·.pixels), c.length = first.width * first.height * 4) ↔
    ∀ i ∈ first :: others, i.width * i.height = first.width * first.height := by
  constructor
  · intro sizes i mem
    obtain ⟨n, place⟩ := List.mem_iff_getElem?.mp mem
    have layer := List.mem_of_getElem? (m.placed.getElem? place)
    have size := sizes _ (List.mem_map_of_mem layer)
    rw [length_pixels (m.coloured i mem) (m.placed.sides mem).wide] at size
    omega
  · intro areas c mem
    obtain ⟨l, layer, rfl⟩ := List.mem_map.mp mem
    obtain ⟨i, inside, start, rfl⟩ := m.placed.exists_image layer
    rw [length_pixels (m.coloured i inside) (m.placed.sides inside).wide, areas i inside]

theorem decode_of_same_size (sizes : ∀ c ∈ t.layers.map (·.pixels), c.length = first.width * first.height * 4) :
    ∃ sheet, Loop.decode b = .ok (.sheet9 sheet, []) ∧ sheet.bitmaps = t.layers.map (·.pixels) := by
  have small := (m.placed.sides List.mem_cons_self).area_le (m.coloured first List.mem_cons_self).1
  obtain ⟨grid, read⟩ := m.readGrid_foot p
  refine ⟨sheetOf head heads (t.layers.map (·.pixels)) grid, ?_, rfl⟩
  rw [m.decode_file p, m.readSheet_file p, sheetBitmaps_flatten (d := 4) rfl small sizes, ok_bind]
  simp only [read, ok_bind]
  rfl

theorem same_size_of_decode {sheet : Sheet Layer9} {left : Bytes} (read : Loop.decode b = .ok (.sheet9 sheet, left))
    (same : sheet.bitmaps = t.layers.map (·.pixels)) :
    ∀ c ∈ t.layers.map (·.pixels), c.length = first.width * first.height * 4 := by
  have footed : foot.length = 24 := (m.loadable.footer.written p.footer).length
  have follows : foot ≠ [] := by
    rintro rfl
    cases footed
  rw [m.decode_file p, m.readSheet_file p] at read
  obtain ⟨_, taken, joined⟩ := map_eq_ok.mp read
  obtain ⟨⟨bitmaps, _⟩, cut, rest⟩ := bind_eq_ok.mp taken
  obtain ⟨_, _, built⟩ := bind_eq_ok.mp rest
  cases built
  cases joined
  cases same
  exact size_of_sheetBitmaps (d := 4) rfl follows cut

end TerrainSheet.Made

open Files Filling in
/-- A saved texture of images is read as a sheet with its layers as bitmaps exactly when all images are as large as
the first. Nothing is left behind its footer then. -/
theorem sheet_reads_layers_iff {first : Image} {others : List Image} {t : TerrainSheet} {s s' : Session} {b : Bytes}
    (coloured : ∀ i ∈ first :: others, i.Coloured)
    (made : (TerrainSheet.ofImages (first :: others)).fill s = (.ok t, s')) (saved : t.save = .ok b) (name : String) :
    ((∃ sheet line, Loop.load name b = .ok (.sheet9 sheet, line) ∧ sheet.bitmaps = t.layers.map (·.pixels)) ↔
      ∀ i ∈ first :: others, i.width * i.height = first.width * first.height) ∧
    ((∀ i ∈ first :: others, i.width * i.height = first.width * first.height) →
      ∃ sheet, Loop.decode b = .ok (.sheet9 sheet, []) ∧ sheet.bitmaps = t.layers.map (·.pixels)) := by
  obtain ⟨_, _, finish, same, m⟩ := TerrainSheet.made_of_ofImages coloured made
  cases same
  obtain ⟨head, heads, foot, p⟩ := m.loadable.pieces saved
  rw [← m.same_size_iff]
  refine ⟨⟨?_, ?_⟩, m.decode_of_same_size p⟩
  · rintro ⟨sheet, line, loaded, same⟩
    obtain ⟨⟨loop, left⟩, read, outcome⟩ := map_eq_ok.mp loaded
    cases outcome
    exact m.same_size_of_decode p read same
  · intro sizes
    obtain ⟨sheet, read, same⟩ := m.decode_of_same_size p sizes
    exact ⟨sheet, _, map_eq_ok.mpr ⟨_, read, rfl⟩, same⟩

/-- Two images of one area and different shapes. -/
def areasSample : List Image :=
  [{ mode := .colourAlpha, width := 2, height := 1, data := [1, 2, 3, 4, 5, 6, 7, 8] },
   { mode := .colourAlpha, width := 1, height := 2, data := [9, 10, 11, 12, 13, 14, 15, 16] }]

open TerrainSheet in
theorem sheet_reads_layers_iff_samples :
    ((∀ i ∈ areasSample, i.Coloured) ∧ ∃ t s b, (ofImages areasSample).fill {} = (.ok t, s) ∧ t.save = .ok b ∧
      ∃ sheet, Loop.decode b = .ok (.sheet9 sheet, []) ∧ sheet.bitmaps = t.layers.map (·.pixels)) ∧
    (∀ i ∈ shapesSample, i.Coloured) ∧ ∃ t s b, (ofImages shapesSample).fill {} = (.ok t, s) ∧ t.save = .ok b ∧
      ¬ ∃ sheet line, Loop.load "input" b = .ok (.sheet9 sheet, line) ∧ sheet.bitmaps = t.layers.map (·.pixels) := by
  have equal : ∀ i ∈ areasSample, i.Coloured := by decide +kernel
  have different : ∀ i ∈ shapesSample, i.Coloured := by decide +kernel
  obtain ⟨t, s, b, made, saved⟩ := exists_saved_of_isOk areasSample (by decide +kernel)
  obtain ⟨t', s', b', made', saved'⟩ := exists_saved_of_isOk shapesSample (by decide +kernel)
  refine ⟨⟨equal, t, s, b, made, saved, ?_⟩, different, t', s', b', made', saved', ?_⟩
  · exact (sheet_reads_layers_iff equal made saved "input").2 (by decide +kernel)
  · intro read
    have areas := (sheet_reads_layers_iff different made' saved' "input").1.mp read
    exact absurd areas (by decide +kernel)

end GameData.Texture
