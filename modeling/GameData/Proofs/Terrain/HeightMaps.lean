import Mathlib
import GameData.Proofs.Terrain.MapFile

/-!
Height maps written again.

Every part of the header and all pixels go back to their places, except that the first word is replaced by the first
word after the date.
-/
namespace GameData.Terrain.DatedMap

theorem height_image {w h : Nat} {b : Bytes} {i : Image} (made : MapKind.height.image w h b = .ok i)
    (short : b.length ≤ w * h * 4) : i.width = w ∧ i.height = h ∧ i.data = b ∧ b.length = w * h * 4 := by
  have size : Image.dataSize .real w h = w * h * 4 := by
    rw [Image.dataSize, PixelMode.rowSize, Nat.mul_assoc, Nat.mul_comm]
  simp only [MapKind.image, Image.ofBytes, size] at made
  split at made
  case isTrue => cases made
  case isFalse enough =>
    cases made
    exact ⟨rfl, rfl, List.take_of_length_le short, by omega⟩

/-- The images of a height map hold the bytes of the file one after another, as many as their sides ask for. -/
theorem readLevels_height {width height count level : Nat} {data : Bytes} {levels : List Image}
    (read : readLevels .height width height count level data = .ok levels) :
    Halved width height level levels ∧ (∀ i ∈ levels, i.data.length = i.width * i.height * 4) ∧
      (levels.map (·.data)).flatten <+: data := by
  induction count generalizing level data levels with
  | zero =>
      cases read
      exact ⟨.nil level, List.forall_mem_nil _, List.nil_prefix⟩
  | succ count ih =>
      rcases readLevels_succ_eq_ok read with rfl | ⟨i, more, made, others, rfl⟩
      · exact ⟨.nil level, List.forall_mem_nil _, List.nil_prefix⟩
      · obtain ⟨wide, high, same, length⟩ := height_image made (List.length_take_le _ _)
        obtain ⟨halved, lengths, rest, joined⟩ := ih others
        refine ⟨.cons wide high halved, List.forall_mem_cons.mpr ⟨?_, lengths⟩, rest, ?_⟩
        · rw [same, length, wide, high]
        · rw [List.map_cons, List.flatten_cons, List.append_assoc, joined, same]
          exact List.take_append_drop _ data

section Written

variable {data : Bytes} {m : DatedMap} (loaded : load .height data = .ok m)
include loaded

theorem length_of_load_height : 52 ≤ data.length := by
  obtain ⟨h, decoded, _⟩ := load_eq_ok loaded
  have length := (MapHeader.decode_eq_ok decoded).1
  rw [List.length_take] at length
  exact length.symm.trans_le (Nat.min_le_right _ _)

theorem unknowns_of_load_height : m.unknown0 = data.u32 0 ∧ m.unknowns.head? = some (data.u32 32) := by
  obtain ⟨h, decoded, _, _, parts⟩ := load_eq_ok loaded
  obtain ⟨length, rfl⟩ := MapHeader.decode_eq_ok decoded
  have counted := Bytes.length_words (by decide) length
  rw [parts]
  constructor
  · exact Bytes.getD_words_take length (by decide)
  · rw [MapHeader.unknowns_ofWords .height (by rw [counted]; decide), Bytes.getD_words_take length (by decide)]

/-- Behind its first word a height map that is written again has what the file had there. -/
theorem save_of_load_height (present : m.levels ≠ [])
    (ends : data.length = 52 + (m.levels.map fun i => i.width * i.height * 4).sum) :
    m.save = .ok (Bytes.ofInt 4 (Int.ofNat (data.u32 32)) ++ data.drop 4) := by
  obtain ⟨h, decoded, read, _, parts⟩ := load_eq_ok loaded
  have length : (data.take 52).length = 4 * 13 := (MapHeader.decode_eq_ok decoded).1
  obtain ⟨halved, lengths, stored⟩ := readLevels_height read
  have kind : m.kind = .height := by rw [parts]
  have words : ∀ start, m.head start = start :: (Bytes.words 4 (data.take 52)).drop 1 :=
    head_of_load decoded (by rw [parts]) (by rw [parts]) (halved.sides present)
  have ninth : m.unknowns.getD 0 0 = data.u32 32 := by
    rw [List.getD_eq_getElem?_getD, ← List.head?_eq_getElem?, (unknowns_of_load_height loaded).2, Option.getD_some]
  have small : ∀ n ∈ m.head (data.u32 32), n < Nat.pow 256 4 := by
    rw [words]
    refine List.forall_mem_cons.mpr ⟨?_, fun n mem => Bytes.words_lt (List.mem_of_mem_drop mem)⟩
    exact Bytes.u32_lt (by have := length_of_load_height loaded; omega)
  have pixels : (m.levels.map (·.data)).flatten = data.drop 52 := by
    refine stored.eq_of_length ?_
    have sizes : m.levels.map (List.length ∘ (·.data)) = m.levels.map fun i => i.width * i.height * 4 :=
      List.map_congr_left lengths
    rw [List.length_flatten, List.map_map, sizes, List.length_drop, ends]
    exact (Nat.add_sub_cancel_left 52 _).symm
  have behind : Bytes.ofWords ((Bytes.words 4 (data.take 52)).drop 1) = (data.drop 4).take 48 := by
    rw [Bytes.ofWords_drop_one length, List.drop_take]
  have rest : data.drop 52 = (data.drop 4).drop 48 := (List.drop_drop (i := 48) (j := 4)).symm
  calc m.save = m.encode (m.unknowns.getD 0 0) (·.data) := by rw [save, kind]
    _ = .ok (Bytes.ofWords (m.head (data.u32 32)) ++ (m.levels.map (·.data)).flatten) := by
      rw [ninth, encode_eq_ok small]
    _ = .ok (Bytes.ofInt 4 (Int.ofNat (data.u32 32)) ++ data.drop 4) := by
      rw [words, Bytes.ofWords_cons, behind, pixels, rest, List.append_assoc, List.take_append_drop]

/-- A height map that ends with its last image is written again with as many bytes, of which the first four alone may be
others: in place of the first word stands the ninth. -/
theorem height_map_written_again (present : m.levels ≠ [])
    (ends : data.length = 52 + (m.levels.map fun i => i.width * i.height * 4).sum) :
    ∃ b, m.save = .ok b ∧ b.length = data.length ∧ b.drop 4 = data.drop 4 ∧ (b = data ↔ data.u32 0 = data.u32 32) ∧
      (b = data ↔ m.unknowns.head? = some m.unknown0) := by
  have long := length_of_load_height loaded
  obtain ⟨first, ninth⟩ := unknowns_of_load_height loaded
  have size : (Bytes.ofInt 4 (Int.ofNat (data.u32 32))).length = 4 := Bytes.length_ofInt 4 _
  have equal := Bytes.word_append_drop_eq_iff (b := data) (n := data.u32 32) (Bytes.u32_lt (by omega)) (by omega)
  refine ⟨_, save_of_load_height loaded present ends, ?_, List.drop_left' size, equal, ?_⟩
  · rw [List.length_append, size, List.length_drop]
    omega
  · rw [equal, ninth, first, Option.some_inj, eq_comm]

end Written

/-- A map of two by two and of one by one, whose first word is not the ninth. -/
def heightSample : Bytes :=
  Bytes.ofWords [5, 2003, 2, 13, 10, 30, 0, 0, 7, 8, 9, 2, 2] ++ (List.range 20).map UInt8.ofNat

theorem height_map_written_again_heightSample : ∃ m, load .height heightSample = .ok m ∧ m.levels.length = 2 ∧
    ∃ b, m.save = .ok b ∧ b.length = 72 ∧ b.drop 4 = heightSample.drop 4 ∧ b ≠ heightSample := by
  have loaded : load .height heightSample =
      .ok ⟨.height, 5, ⟨2003, 2, 13, 10, 30, 0, 0⟩, [7, 8, 9],
        [{ mode := .real, width := 2, height := 2, data := (List.range 16).map UInt8.ofNat },
          { mode := .real, width := 1, height := 1, data := [16, 17, 18, 19] }]⟩ := by
    decide +kernel
  obtain ⟨b, saved, length, behind, equal, _⟩ := height_map_written_again loaded (by decide) (by decide +kernel)
  exact ⟨_, loaded, rfl, b, saved, length, behind, fun same => absurd (equal.mp same) (by decide +kernel)⟩

end GameData.Terrain.DatedMap
