import GameData.Terrain.DatedMap
import GameData.Proofs.Bytes.Words

/-!
Files of dated maps.

The header of a map is a run of words, from which date, sizes and the rest are taken. The images follow, each with half
the sides of the one before, so that the sides at a level are those of the header divided by a power of two.
-/
namespace GameData

namespace Bytes

def ofWords (ws : List Nat) : Bytes := (ws.map Int.ofNat).flatMap (ofInt 4)

theorem ofWords_cons (n : Nat) (ws : List Nat) : ofWords (n :: ws) = ofInt 4 (Int.ofNat n) ++ ofWords ws := rfl

theorem length_ofWords (ws : List Nat) : (ofWords ws).length = 4 * ws.length := by
  rw [ofWords, length_flatMap_ofInt, List.length_map]

theorem ofLE_ofInt_ofNat {n : Nat} (small : n < Nat.pow 256 4) : ofLE (ofInt 4 (Int.ofNat n)) = n := by
  have value := ofLE_ofInt 4 (Int.ofNat n)
  rw [Int.ofNat_eq_natCast, ← Int.natCast_emod, Nat.mod_eq_of_lt small] at value
  exact Int.ofNat_inj.mp value

theorem u32_lt {b : Bytes} {off : Nat} (inside : off + 4 ≤ b.length) : b.u32 off < Nat.pow 256 4 := by
  have bound := ofLE_lt (b.slice off 4)
  rwa [length_slice_of_le inside] at bound

/-- A word of a string is written as it stands there. -/
theorem ofInt_u32 {b : Bytes} {off : Nat} (inside : off + 4 ≤ b.length) :
    ofInt 4 (Int.ofNat (b.u32 off)) = b.slice off 4 := by
  have same := toLE_ofLE (b.slice off 4)
  rw [length_slice_of_le inside] at same
  exact (ofInt_natCast 4 _).trans (by rw [Nat.mod_eq_of_lt (u32_lt inside), u32, same])

/-- Writing a word over the first one changes a string unless it is the same word. -/
theorem word_append_drop_eq_iff {b : Bytes} {n : Nat} (small : n < Nat.pow 256 4) (long : 4 ≤ b.length) :
    ofInt 4 (Int.ofNat n) ++ b.drop 4 = b ↔ b.u32 0 = n := by
  have front : ofInt 4 (Int.ofNat (b.u32 0)) ++ b.drop 4 = b := by
    rw [ofInt_u32 (by omega), slice, List.drop_zero, List.take_append_drop]
  constructor
  · intro same
    have word := List.append_cancel_right (same.trans front.symm)
    rw [← ofLE_ofInt_ofNat small, word, ofLE_ofInt_ofNat (u32_lt (by omega))]
  · intro same
    rw [← same, front]

theorem words_ofWords {ws : List Nat} (small : ∀ n ∈ ws, n < Nat.pow 256 4) : words 4 (ofWords ws) = ws := by
  rw [ofWords, words_flatMap_ofInt (by decide), List.map_map]
  calc ws.map ((fun n => ofLE (ofInt 4 n)) ∘ Int.ofNat) = ws.map id :=
        List.map_congr_left fun n mem => ofLE_ofInt_ofNat (small n mem)
    _ = ws := List.map_id ws

theorem ofWords_words {n : Nat} {b : Bytes} (length : b.length = 4 * n) : ofWords (words 4 b) = b :=
  flatMap_ofInt_words (by decide) (by rw [length, Nat.mul_mod_right])

theorem ofWords_drop_one {n : Nat} {b : Bytes} (length : b.length = 4 * n) :
    ofWords ((words 4 b).drop 1) = b.drop 4 := by
  have whole := ofWords_words length
  cases found : words 4 b with
  | nil =>
      rw [found] at whole
      rw [← whole]
      rfl
  | cons w ws =>
      rw [found, ofWords_cons] at whole
      rw [← whole, List.drop_left' (length_ofInt 4 _)]
      rfl

/-- The words at the front of a file are its words at every fourth place. -/
theorem getD_words_take {n : Nat} {data : Bytes} (length : (data.take (4 * n)).length = 4 * n) {i : Nat}
    (inside : i < n) : (words 4 (data.take (4 * n))).getD i 0 = data.u32 (4 * i) := by
  rw [words_eq_map_range (by decide) length, List.getD_eq_getElem?_getD, List.getElem?_map, List.getElem?_range inside,
    Option.map_some, Option.getD_some, slice_take (by omega), u32]

end Bytes

namespace Timestamp

/-- A date that passes is left as it is, and each part is a signed 32-bit number. -/
theorem check_eq_ok {t t' : Timestamp} (h : t.check = .ok t') : t' = t ∧ ∀ n ∈ t.words, n < 0x80000000 := by
  unfold check at h
  split at h
  case isTrue => cases h
  case isFalse small =>
    constructor
    · iterate 7
        split at h
        · cases h
      exact (Except.ok.inj h).symm
    · intro n mem
      have part := List.any_eq_false.mp (Bool.eq_false_iff.mpr small) n mem
      simpa using part

end Timestamp

namespace Terrain

namespace MapHeader

theorem drop_eq_getD_cons {ws : List Nat} {n : Nat} (inside : n < ws.length) :
    ws.drop n = ws.getD n 0 :: ws.drop (n + 1) := by
  rw [List.drop_eq_getElem_cons inside, List.getD_eq_getElem?_getD, List.getElem?_eq_getElem inside, Option.getD_some]

/-- The parts of a header behind its first word make up the words they were taken from. -/
theorem parts_ofWords {k : MapKind} {ws : List Nat} (length : ws.length = k.headerLength) :
    let h := ofWords k ws
    [h.year, h.month, h.day, h.hour, h.minute, h.second, h.microsecond] ++ h.unknowns ++ [h.width, h.height] =
      ws.drop 1 := by
  have length : ws.length = 10 + k.unknownCount := length
  have sides : ws.drop (8 + k.unknownCount) = [(ofWords k ws).width, (ofWords k ws).height] := by
    rw [drop_eq_getD_cons (by omega), drop_eq_getD_cons (by omega), List.drop_eq_nil_of_le (by omega)]
    simp only [ofWords, Nat.add_right_comm]
  have others : (ofWords k ws).unknowns ++ [(ofWords k ws).width, (ofWords k ws).height] = ws.drop 8 := by
    rw [← sides, ← List.drop_drop]
    exact List.take_append_drop k.unknownCount (ws.drop 8)
  intro h
  rw [List.append_assoc, others]
  symm
  iterate 7 refine (drop_eq_getD_cons (by omega)).trans (congrArg (_ :: ·) ?_)
  rfl

theorem unknowns_ofWords (k : MapKind) {ws : List Nat} (long : 8 < ws.length) :
    (ofWords k ws).unknowns.head? = some (ws.getD 8 0) := by
  simp only [ofWords, drop_eq_getD_cons long]
  cases k <;> rfl

theorem decode_eq_ok {k : MapKind} {data : Bytes} {h : MapHeader} (read : decode k data = .ok h) :
    (data.take (4 * k.headerLength)).length = 4 * k.headerLength ∧
      h = ofWords k (Bytes.words 4 (data.take (4 * k.headerLength))) := by
  obtain ⟨ws, decoded, rfl⟩ := map_eq_ok.mp read
  obtain ⟨head, whole, rfl⟩ := map_eq_ok.mp decoded
  obtain ⟨length, rfl⟩ := exactly_eq_ok.mp whole
  exact ⟨length, rfl⟩

theorem decode_ofWords {k : MapKind} {ws : List Nat} (length : ws.length = k.headerLength)
    (small : ∀ n ∈ ws, n < Nat.pow 256 4) (rest : Bytes) :
    decode k (Bytes.ofWords ws ++ rest) = .ok (ofWords k ws) := by
  have size : (Bytes.ofWords ws).length = 4 * k.headerLength := by rw [Bytes.length_ofWords, length]
  rw [decode, List.take_left' size, Bytes.words32, exactly_eq_ok.mpr ⟨size, rfl⟩]
  exact congrArg (fun ws => Except.ok (ofWords k ws)) (Bytes.words_ofWords small)

end MapHeader

namespace DatedMap

theorem encode_eq_ok {m : DatedMap} {start : Nat} (small : ∀ n ∈ m.head start, n < Nat.pow 256 4)
    (stored : Image → Bytes) :
    m.encode start stored = .ok (Bytes.ofWords (m.head start) ++ (m.levels.map stored).flatten) := by
  have inside : ∀ n ∈ (m.head start).map Int.ofNat, Field.u32.least ≤ n ∧ n < Field.u32.limit := by
    intro n mem
    obtain ⟨w, word, rfl⟩ := List.mem_map.mp mem
    exact ⟨Int.natCast_nonneg w, Int.ofNat_lt.mpr (small w word)⟩
  obtain ⟨pieces, packed, flat⟩ := map_eq_ok.mp (Field.mapM_packInt inside)
  rw [encode, packed, ok_bind, flat]
  rfl

/-- The images from a level on have the sides of the map, halved as often as the level tells. -/
inductive Halved (width height : Nat) : Nat → List Image → Prop
  | nil (level : Nat) : Halved width height level []
  | cons {level : Nat} {i : Image} {levels : List Image} (wide : i.width = width / Nat.pow 2 level)
      (high : i.height = height / Nat.pow 2 level) (others : Halved width height (level + 1) levels) :
      Halved width height level (i :: levels)

theorem Halved.sides {m : DatedMap} {width height : Nat} (halved : Halved width height 0 m.levels)
    (some : m.levels ≠ []) : m.sides = [width, height] := by
  unfold DatedMap.sides
  cases found : m.levels with
  | nil => exact absurd found some
  | cons i levels =>
      rw [found] at halved
      cases halved with
      | cons wide high _ => simp only [wide, high, Nat.pow_eq, Nat.pow_zero, Nat.div_one]

variable {k : MapKind} {width height count level : Nat} {data : Bytes}

/-- Reading goes on until nothing is left at a level. -/
theorem readLevels_succ_eq_ok {levels : List Image}
    (read : readLevels k width height (count + 1) level data = .ok levels) :
    let w := width / Nat.pow 2 level
    let h := height / Nat.pow 2 level
    levels = [] ∨ ∃ i more, k.image w h (data.take (w * h * k.pixelSize)) = .ok i ∧
      readLevels k width height count (level + 1) (data.drop (w * h * k.pixelSize)) = .ok more ∧
      levels = i :: more := by
  intro w h
  rw [readLevels] at read
  obtain ⟨b, taken, read⟩ := bind_eq_ok.mp read
  rw [Bytes.eq_take_of_read taken] at read
  split at read
  · cases read
    exact .inl rfl
  · obtain ⟨i, made, read⟩ := bind_eq_ok.mp read
    obtain ⟨more, others, joined⟩ := bind_eq_ok.mp read
    exact .inr ⟨i, more, made, others, (Except.ok.inj joined).symm⟩

theorem readLevels_nil (small : width / Nat.pow 2 level * (height / Nat.pow 2 level) * k.pixelSize ≤ Bytes.readLimit) :
    readLevels k width height (count + 1) level [] = .ok [] := by
  rw [readLevels, Bytes.read, if_pos small, ok_bind, List.take_nil]
  rfl

theorem readLevels_append {w h : Nat} (wide : w = width / Nat.pow 2 level) (high : h = height / Nat.pow 2 level)
    {b rest : Bytes} {i : Image} {more : List Image} (length : b.length = w * h * k.pixelSize)
    (small : w * h * k.pixelSize ≤ Bytes.readLimit) (some : b ≠ []) (made : k.image w h b = .ok i)
    (others : readLevels k width height count (level + 1) rest = .ok more) :
    readLevels k width height (count + 1) level (b ++ rest) = .ok (i :: more) := by
  rw [readLevels, ← wide, ← high, Bytes.read, if_pos small, ok_bind, List.take_left' length, List.drop_left' length,
    if_neg (by rwa [List.isEmpty_iff]), made, ok_bind, others, ok_bind]

/-- The parts of a map come from the header of its file, and the images from what follows it. -/
theorem load_eq_ok {m : DatedMap} (loaded : load k data = .ok m) :
    ∃ h, MapHeader.decode k data = .ok h ∧
      readLevels k h.width h.height 10 0 (data.drop (4 * k.headerLength)) = .ok m.levels ∧
      m.createdAt.check = .ok m.createdAt ∧
      m = ⟨k, h.unknown0, ⟨h.year, h.month, h.day, h.hour, h.minute, h.second, h.microsecond⟩, h.unknowns,
        m.levels⟩ := by
  obtain ⟨h, decoded, loaded⟩ := bind_eq_ok.mp loaded
  obtain ⟨levels, read, loaded⟩ := bind_eq_ok.mp loaded
  obtain ⟨date, checked, loaded⟩ := bind_eq_ok.mp loaded
  obtain ⟨rfl, _⟩ := Timestamp.check_eq_ok checked
  split at loaded
  · cases loaded
    exact ⟨h, decoded, read, checked, rfl⟩
  · cases loaded

/-- The words of a loaded map are those of the file, but for the first one. -/
theorem head_of_load {m : DatedMap} {h : MapHeader} (decoded : MapHeader.decode k data = .ok h)
    (createdAt : m.createdAt = ⟨h.year, h.month, h.day, h.hour, h.minute, h.second, h.microsecond⟩)
    (unknowns : m.unknowns = h.unknowns) (sides : m.sides = [h.width, h.height]) (start : Nat) :
    m.head start = start :: (Bytes.words 4 (data.take (4 * k.headerLength))).drop 1 := by
  obtain ⟨length, rfl⟩ := MapHeader.decode_eq_ok decoded
  rw [← MapHeader.parts_ofWords (Bytes.length_words (by decide) length), head, createdAt, unknowns, sides]
  rfl

end DatedMap

end Terrain

end GameData
