import GameData.Image.Basic
import GameData.Proofs.Bytes.Blocks

/-!
Images pixel by pixel.

Mirroring an image and turning it move whole pixels: the lemmas say for each place where its pixel comes from.
Exchanging red and blue works on each pixel alone and undoes itself.
-/
namespace GameData

theorem eq_pow_of_isPowerOfTwo {n : Nat} (h : isPowerOfTwo n = true) : n = 2 ^ n.log2 :=
  (beq_iff_eq.mp (Bool.and_eq_true_iff.mp h).2).symm

theorem pos_of_isPowerOfTwo {n : Nat} (h : isPowerOfTwo n = true) : 0 < n := by
  rw [eq_pow_of_isPowerOfTwo h]
  exact Nat.two_pow_pos _

theorem le_of_isPowerOfTwo {n k : Nat} (h : isPowerOfTwo n = true) (small : n < 2 ^ (k + 1)) : n ≤ 2 ^ k := by
  rw [eq_pow_of_isPowerOfTwo h] at small ⊢
  exact Nat.pow_le_pow_right Nat.two_pos (Nat.le_of_lt_succ ((Nat.pow_lt_pow_iff_right Nat.one_lt_two).mp small))

namespace Image

def pixel (i : Image) (x y : Nat) : Bytes := i.data.slice (i.pixelSize * (y * i.width + x)) i.pixelSize

/-- An image as it is held in memory: all rows are there, the sides are signed 32-bit numbers, and only indexed pixels
have a palette. -/
structure WellFormed (i : Image) : Prop where
  size : i.data.length = dataSize i.mode i.width i.height
  width : i.width < 0x80000000
  height : i.height < 0x80000000
  palette : i.mode ≠ .indexed → i.palette = []

instance (i : Image) : Decidable i.WellFormed :=
  decidable_of_iff
    (i.data.length = dataSize i.mode i.width i.height ∧ i.width < 0x80000000 ∧ i.height < 0x80000000 ∧
      (i.mode ≠ .indexed → i.palette = []))
    ⟨fun ⟨size, width, height, palette⟩ => ⟨size, width, height, palette⟩,
      fun h => ⟨h.size, h.width, h.height, h.palette⟩⟩

theorem mode_of_ofBytes {m : PixelMode} {width height : Nat} {b : Bytes} {i : Image}
    (made : ofBytes m width height b = .ok i) : i.mode = m := by
  unfold ofBytes at made
  split at made
  · cases made
  · cases made
    rfl

/-- The rows consist of whole pixels, and all of them are there. -/
structure Packed (i : Image) : Prop where
  row : i.mode.rowSize i.width = i.pixelSize * i.width
  size : i.data.length = i.pixelSize * i.width * i.height

def Binary (i : Image) : Prop := isPowerOfTwo i.width = true ∧ isPowerOfTwo i.height = true

theorem pixelSize_pos (i : Image) : 0 < i.pixelSize := by
  unfold pixelSize
  cases i.mode <;> decide

theorem WellFormed.packed {i : Image} (h : i.WellFormed) (whole : i.mode ≠ .bilevel) : i.Packed := by
  have row : i.mode.rowSize i.width = i.pixelSize * i.width := by
    unfold pixelSize
    cases mode : i.mode with
    | bilevel => exact absurd mode whole
    | _ => simp only [PixelMode.rowSize, Nat.mul_one, Nat.one_mul]
  exact ⟨row, by rw [h.size, dataSize, row]⟩

structure Coloured (i : Image) : Prop extends i.WellFormed where
  mode : i.mode = .colourAlpha

instance (i : Image) : Decidable i.Coloured :=
  decidable_of_iff (i.WellFormed ∧ i.mode = .colourAlpha) ⟨fun ⟨sound, mode⟩ => ⟨sound, mode⟩, fun h => ⟨h.1, h.mode⟩⟩

namespace Coloured

variable {i : Image} (h : i.Coloured)
include h

theorem packed : i.Packed := WellFormed.packed h.1 (by rw [h.mode]; decide)

theorem pixelSize : i.pixelSize = 4 := by
  rw [Image.pixelSize, h.mode]
  rfl

theorem length_data : i.data.length = i.width * i.height * 4 := by
  rw [h.packed.size, h.pixelSize, Nat.mul_assoc, Nat.mul_comm]

theorem toColourAlpha : i.toColourAlpha = i := by
  have mode := h.mode
  have palette := h.palette (by rw [mode]; decide)
  obtain ⟨_, width, height, data, _⟩ := i
  cases mode
  cases palette
  rfl

end Coloured

theorem place_lt {x y width height : Nat} (inRow : x < width) (inColumn : y < height) :
    y * width + x < width * height := by
  calc y * width + x < y * width + width := Nat.add_lt_add_left inRow _
    _ = width * (y + 1) := by rw [Nat.mul_succ, Nat.mul_comm]
    _ ≤ width * height := Nat.mul_le_mul_left width inColumn

theorem Binary.wide {i : Image} (h : i.Binary) : 0 < i.width := pos_of_isPowerOfTwo h.1

theorem Binary.high {i : Image} (h : i.Binary) : 0 < i.height := pos_of_isPowerOfTwo h.2

/-- The pixels of an image with such sides can be read at once. -/
theorem Binary.area_le {i : Image} (h : i.Binary) (sound : i.WellFormed) :
    i.width * i.height * 4 ≤ Bytes.readLimit := by
  have width := le_of_isPowerOfTwo h.1 (k := 30) sound.width
  have height := le_of_isPowerOfTwo h.2 (k := 30) sound.height
  calc i.width * i.height * 4 ≤ 2 ^ 30 * 2 ^ 30 * 4 := Nat.mul_le_mul_right 4 (Nat.mul_le_mul width height)
    _ ≤ Bytes.readLimit := by decide

def row (i : Image) (y : Nat) : Bytes := i.data.slice (i.pixelSize * i.width * y) (i.pixelSize * i.width)

theorem pixel_eq_slice_row (i : Image) {x : Nat} (y : Nat) (inside : x < i.width) :
    i.pixel x y = (i.row y).slice (i.pixelSize * x) i.pixelSize := by
  have fits : i.pixelSize * x + i.pixelSize ≤ i.pixelSize * i.width := Nat.mul_le_mul_left i.pixelSize inside
  rw [row, Bytes.slice_slice _ fits, pixel, Nat.mul_add, Nat.mul_comm y, Nat.mul_assoc]

namespace Packed

variable {i : Image} (h : i.Packed) {x y : Nat} (inRow : x < i.width) (inColumn : y < i.height)
include h

theorem length_row (inColumn : y < i.height) : (i.row y).length = i.pixelSize * i.width := by
  refine Bytes.length_slice_of_le ?_
  rw [h.size]
  exact Nat.mul_le_mul_left (i.pixelSize * i.width) inColumn

theorem length_pixel (inRow : x < i.width) (inColumn : y < i.height) : (i.pixel x y).length = i.pixelSize := by
  refine Bytes.length_slice_of_le ?_
  rw [h.size, Nat.mul_assoc]
  exact Nat.mul_le_mul_left i.pixelSize (place_lt inRow inColumn)

theorem length_rows (inRow : x < i.width) : i.rows.length = i.height := by
  rw [rows, h.row]
  exact Bytes.length_chunks (Nat.mul_pos i.pixelSize_pos (Nat.zero_lt_of_lt inRow)) h.size

include inRow

theorem getElem?_rows (inColumn : y < i.height) : i.rows[y]? = some (i.row y) := by
  rw [rows, h.row]
  exact Bytes.getElem?_chunks (Nat.mul_pos i.pixelSize_pos (Nat.zero_lt_of_lt inRow)) h.size inColumn

theorem length_of_mem_rows {r : Bytes} (mem : r ∈ i.rows) : r.length = i.pixelSize * i.width := by
  obtain ⟨y, place⟩ := List.mem_iff_getElem?.mp mem
  have inColumn : y < i.height := by
    rw [← h.length_rows inRow]
    exact (List.getElem?_eq_some_iff.mp place).1
  rw [h.getElem?_rows inRow inColumn] at place
  cases place
  exact h.length_row inColumn

end Packed

section Reversal

variable (i : Image) {r : Bytes} {n : Nat} (length : r.length = i.pixelSize * n)
include length

theorem length_of_mem_pixels {c : Bytes} (mem : c ∈ (Bytes.chunks i.pixelSize r).reverse) : c.length = i.pixelSize :=
  Bytes.length_of_mem_chunks (by rw [length, Nat.mul_mod_right]) (List.mem_reverse.mp mem)

theorem length_reverseRow : (i.reverseRow r).length = r.length := by
  rw [reverseRow, Bytes.length_flatten_blocks fun c => i.length_of_mem_pixels length, List.length_reverse,
    Bytes.length_chunks i.pixelSize_pos length, length]

theorem slice_reverseRow {x : Nat} (inside : x < n) :
    (i.reverseRow r).slice (i.pixelSize * x) i.pixelSize = r.slice (i.pixelSize * (n - 1 - x)) i.pixelSize := by
  have counted := Bytes.length_chunks i.pixelSize_pos length
  have place : (Bytes.chunks i.pixelSize r).reverse[x]? = some (r.slice (i.pixelSize * (n - 1 - x)) i.pixelSize) := by
    rw [List.getElem?_reverse (by rwa [counted]), counted]
    exact Bytes.getElem?_chunks i.pixelSize_pos length (by omega)
  have found := Bytes.slice_flatten_blocks (fun c => i.length_of_mem_pixels length) place []
  rwa [List.append_nil] at found

end Reversal

/-- A pixel of an image that was put together from rows. -/
theorem pixel_of_rows {i : Image} {rows : List Bytes} (joined : i.data = rows.flatten)
    (size : ∀ r ∈ rows, r.length = i.pixelSize * i.width) {x y : Nat} {r : Bytes} (inRow : x < i.width)
    (place : rows[y]? = some r) : i.pixel x y = r.slice (i.pixelSize * x) i.pixelSize := by
  have found := Bytes.slice_flatten_blocks size place []
  rw [List.append_nil, ← joined] at found
  rw [pixel_eq_slice_row i y inRow, row, found]

namespace Packed

variable {i : Image} (h : i.Packed) {x y : Nat} (inRow : x < i.width)
include h inRow

section Reversed

variable {rows : List Bytes} (mem : ∀ r ∈ rows, r ∈ i.rows)
include mem

theorem length_of_mem_reversed {r : Bytes} (inside : r ∈ rows.map i.reverseRow) : r.length = i.pixelSize * i.width := by
  obtain ⟨original, old, rfl⟩ := List.mem_map.mp inside
  have length := h.length_of_mem_rows inRow (mem original old)
  rw [i.length_reverseRow length, length]

/-- Rows of an image with their pixels reversed make up an image of the same size. -/
theorem reversed (same : rows.length = i.height) : { i with data := (rows.map i.reverseRow).flatten }.Packed := by
  refine ⟨h.row, ?_⟩
  change (rows.map i.reverseRow).flatten.length = i.pixelSize * i.width * i.height
  rw [Bytes.length_flatten_blocks fun r => h.length_of_mem_reversed inRow mem, List.length_map, same]

theorem pixel_reversed {k : Nat} (inColumn : k < i.height) (place : rows[y]? = some (i.row k)) :
    { i with data := (rows.map i.reverseRow).flatten }.pixel x y = i.pixel (i.width - 1 - x) k := by
  have turned : (rows.map i.reverseRow)[y]? = some (i.reverseRow (i.row k)) := by
    rw [List.getElem?_map, place]
    rfl
  calc { i with data := (rows.map i.reverseRow).flatten }.pixel x y
      = (i.reverseRow (i.row k)).slice (i.pixelSize * x) i.pixelSize :=
        pixel_of_rows (i := { i with data := (rows.map i.reverseRow).flatten }) rfl
          (fun r => h.length_of_mem_reversed inRow mem) inRow turned
    _ = (i.row k).slice (i.pixelSize * (i.width - 1 - x)) i.pixelSize :=
        i.slice_reverseRow (h.length_row inColumn) inRow
    _ = i.pixel (i.width - 1 - x) k := (i.pixel_eq_slice_row k (by omega)).symm

end Reversed

theorem flipLeftRight : i.flipLeftRight.Packed := h.reversed inRow (fun _ mem => mem) (h.length_rows inRow)

theorem halfTurn : i.halfTurn.Packed :=
  h.reversed inRow (fun _ mem => List.mem_reverse.mp mem) (by rw [List.length_reverse, h.length_rows inRow])

variable (inColumn : y < i.height)
include inColumn

theorem pixel_flipLeftRight : i.flipLeftRight.pixel x y = i.pixel (i.width - 1 - x) y :=
  h.pixel_reversed inRow (fun _ mem => mem) inColumn (h.getElem?_rows inRow inColumn)

theorem pixel_halfTurn : i.halfTurn.pixel x y = i.pixel (i.width - 1 - x) (i.height - 1 - y) := by
  have counted := h.length_rows inRow
  have last : i.height - 1 - y < i.height := by omega
  refine h.pixel_reversed inRow (fun _ mem => List.mem_reverse.mp mem) last ?_
  rw [List.getElem?_reverse (by rwa [counted]), counted, h.getElem?_rows inRow last]

/-- The mirror and the half turn together exchange top and bottom. -/
theorem pixel_halfTurn_flipLeftRight : i.flipLeftRight.halfTurn.pixel x y = i.pixel x (i.height - 1 - y) := by
  have turned : i.flipLeftRight.halfTurn.pixel x y = i.flipLeftRight.pixel (i.width - 1 - x) (i.height - 1 - y) :=
    (h.flipLeftRight inRow).pixel_halfTurn inRow inColumn
  have back : i.width - 1 - (i.width - 1 - x) = x := by omega
  rw [turned, h.pixel_flipLeftRight (by omega) (by omega), back]

end Packed

theorem length_swapRedBlue (b : Bytes) : (swapRedBlue b).length = b.length := by
  fun_induction swapRedBlue b with
  | case1 r g b a rest ih => simp only [List.length_cons, ih]
  | case2 => rfl

theorem swapRedBlue_swapRedBlue (b : Bytes) : swapRedBlue (swapRedBlue b) = b := by
  fun_induction swapRedBlue b with
  | case1 r g b a rest ih => rw [swapRedBlue, ih]
  | case2 rest short =>
      rw [swapRedBlue]
      exact short

/-- Four bytes are the red, green, blue and alpha of a pixel. -/
theorem exists_colours {p : Bytes} (length : p.length = 4) : ∃ r g b a, p = [r, g, b, a] := by
  obtain ⟨r, p, rfl⟩ := List.exists_cons_of_length_eq_add_one length
  obtain ⟨g, p, rfl⟩ := List.exists_cons_of_length_eq_add_one (Nat.succ.inj length)
  obtain ⟨b, p, rfl⟩ := List.exists_cons_of_length_eq_add_one (Nat.succ.inj (Nat.succ.inj length))
  obtain ⟨a, rfl⟩ := List.length_eq_one_iff.mp (Nat.succ.inj (Nat.succ.inj (Nat.succ.inj length)))
  exact ⟨r, g, b, a, rfl⟩

theorem swapRedBlue_split {b : Bytes} (long : 4 ≤ b.length) :
    swapRedBlue b = swapRedBlue (b.take 4) ++ swapRedBlue (b.drop 4) := by
  obtain ⟨r, g, u, a, first⟩ := exists_colours (p := b.take 4) (by rw [List.length_take]; omega)
  rw [← List.take_append_drop 4 b, first]
  rfl

/-- Exchanging red and blue works on each pixel alone. -/
theorem slice_swapRedBlue {b : Bytes} {n : Nat} (inside : 4 * n + 4 ≤ b.length) :
    (swapRedBlue b).slice (4 * n) 4 = swapRedBlue (b.slice (4 * n) 4) := by
  have first : (swapRedBlue (b.take 4)).length = 4 := by
    rw [length_swapRedBlue, List.length_take]
    omega
  rw [swapRedBlue_split (by omega)]
  induction n generalizing b with
  | zero => exact List.take_left' first
  | succ n ih =>
      have long : 4 * n + 4 ≤ (b.drop 4).length := by
        rw [List.length_drop]
        omega
      have later := ih long (by rw [length_swapRedBlue, List.length_take]; omega)
      rw [← swapRedBlue_split (by omega), Bytes.slice, Bytes.slice, List.drop_drop, Nat.add_comm 4] at later
      rw [Bytes.slice, Nat.mul_succ, Nat.add_comm, ← List.drop_drop, List.drop_left' first, later, Bytes.slice,
        Nat.add_comm]

end Image

end GameData
