import GameData.Terrain.Squares
import GameData.Proofs.Bytes.Words

/-!
Maps of squares written again.

The squares of a file hold its bytes: the words of its table, and its data cut at the sides that the table tells. Data
that end early leave the last squares short or empty, and still make up the file.
-/
namespace GameData

namespace Terrain

def Square.words (s : Square) : List Int := [s.unknown0, s.unknown1, s.side]

/-- What was read of a file: the words of the table in front, and its data without what is left of them. -/
theorem readSquares_eq_ok {area : Nat → Nat} {count : Nat} {words : List Nat} {rest left : Bytes}
    {squares : List Square} (h : readSquares area count words rest = (squares, .ok left)) :
    squares.length = count ∧ 3 * count ≤ words.length ∧
      squares.flatMap Square.words = (words.take (3 * count)).map Int.ofNat ∧
      rest = (squares.map (·.data)).flatten ++ left := by
  fun_induction readSquares area count words rest generalizing squares left with
  | case1 words rest =>
      cases h
      exact ⟨rfl, Nat.zero_le _, rfl, rfl⟩
  | case2 => cases h
  | case3 count a b side words rest data read more outcome run ih =>
      cases h
      obtain ⟨length, enough, table, parts⟩ := ih run
      have taken : data = rest.take (area side) := Bytes.eq_take_of_read read
      refine ⟨congrArg Nat.succ length, ?_, ?_, ?_⟩
      · simp only [List.length_cons]
        omega
      · rw [List.flatMap_cons, table, Nat.mul_succ]
        rfl
      · rw [List.map_cons, List.flatten_cons, List.append_assoc, ← parts, taken, List.take_append_drop]
  | case4 => cases h

/-- Squares whose words fit are written as their words and then their data. -/
theorem writeSquares_eq_ok {squares : List Square}
    (fits : ∀ n ∈ squares.flatMap Square.words, Field.u32.least ≤ n ∧ n < Field.u32.limit) :
    writeSquares squares =
      .ok ((squares.flatMap Square.words).flatMap (Bytes.ofInt 4) ++ (squares.map (·.data)).flatten) := by
  have heads : squares.mapM (fun s => do
      let a ← Field.u32.packInt s.unknown0
      let b ← Field.u32.packInt s.unknown1
      let c ← Field.u32.packInt s.side
      .ok (a ++ b ++ c)) = .ok (squares.map fun s => s.words.flatMap (Bytes.ofInt 4)) := by
    refine mapM_eq_ok_map fun s mem => ?_
    have word : ∀ n ∈ s.words, Field.u32.packInt n = .ok (Bytes.ofInt 4 n) := by
      intro n inside
      obtain ⟨low, high⟩ := fits n (List.mem_flatMap.mpr ⟨s, mem, inside⟩)
      exact Field.packInt_eq_ok low high
    obtain ⟨first, second, third, _⟩ : _ ∧ _ ∧ _ ∧ _ := by
      simpa only [Square.words, List.forall_mem_cons] using word
    rw [first, ok_bind, second, ok_bind, third, ok_bind, List.append_assoc]
    simp only [Square.words, List.flatMap_cons, List.flatMap_nil, List.append_nil]
  rw [writeSquares, heads, ok_bind, ← List.flatMap_def, ← List.flatMap_assoc]

theorem tableWords_eq_ok {data : Bytes} {words : List Nat} (h : tableWords data = .ok words) :
    (data.take tableSize).length % 4 = 0 ∧ words = Bytes.words 4 (data.take tableSize) := by
  simp only [tableWords] at h
  split at h
  case isTrue whole =>
    cases h
    exact ⟨whole, rfl⟩
  case isFalse => cases h

namespace Heights

/-- Loading succeeds on a full table whose squares use up the data. -/
theorem load_eq_ok {data : Bytes} {old squares : List Square} (h : load data old = (.ok (), squares)) :
    ∃ words added, tableWords data = .ok words ∧
      readSquares area tableLength words (data.drop tableSize) = (added, .ok []) ∧ squares = old ++ added := by
  unfold load at h
  split at h
  case h_1 => cases h
  case h_2 words table =>
    rcases run : readSquares area tableLength words (data.drop tableSize) with ⟨added, f | left⟩
    · simp only [run] at h
      cases h
    · simp only [run] at h
      split at h
      case isTrue none =>
        cases h
        rw [List.isEmpty_iff.mp none] at run
        exact ⟨words, added, table, run, rfl⟩
      case isFalse => cases h

theorem save_of_load {data : Bytes} {squares : List Square} (h : load data [] = (.ok (), squares)) :
    save squares = .ok data := by
  obtain ⟨words, _, table, run, rfl⟩ := load_eq_ok h
  obtain ⟨whole, rfl⟩ := tableWords_eq_ok table
  obtain ⟨_, enough, heads, parts⟩ := readSquares_eq_ok run
  rw [List.append_nil] at parts
  -- The table is as long as it can be, so that its words are all those read.
  have length : (Bytes.words 4 (data.take tableSize)).length ≤ 3 * tableLength := by
    have cut : (data.take tableSize).length = 4 * ((data.take tableSize).length / 4) := by omega
    rw [Bytes.length_words (by decide) cut, List.length_take]
    simp only [tableSize]
    omega
  rw [List.take_of_length_le length] at heads
  have fits : ∀ n ∈ (Bytes.words 4 (data.take tableSize)).map Int.ofNat, Field.u32.least ≤ n ∧ n < Field.u32.limit := by
    intro n mem
    obtain ⟨w, word, rfl⟩ := List.mem_map.mp mem
    exact ⟨Int.natCast_nonneg w, Int.ofNat_lt.mpr (Bytes.words_lt word)⟩
  rw [save, writeSquares_eq_ok (heads ▸ fits), heads, ← parts,
    Bytes.flatMap_ofInt_words (by decide) whole, List.take_append_drop]

end Heights

namespace Lights

/-- A file of squares is empty, or starts with a side and as many pixels as there are, up to its square. -/
theorem readAll_inv {data : Bytes} {squares : List LightSquare} (h : readAll data = (squares, .ok ())) :
    data = [] ∧ squares = [] ∨
    4 ≤ data.length ∧ ∃ side more, side = Bytes.ofLE (data.take 4) ∧
      squares = ⟨side, (data.drop 4).take (side * side)⟩ :: more ∧
      readAll (data.drop (4 + side * side)) = (more, .ok ()) := by
  rw [readAll.eq_def] at h
  split at h
  · cases h
    exact .inl ⟨rfl, rfl⟩
  · rename_i x xs
    split at h
    case isTrue long =>
      generalize Bytes.ofLE ((x :: xs).take 4) = side at h ⊢
      simp only at h
      cases read : Bytes.read (side * side) ((x :: xs).drop 4) with
      | error f =>
          rw [read] at h
          cases h
      | ok pixels =>
          rcases run : readAll ((x :: xs).drop (4 + side * side)) with ⟨more, outcome⟩
          simp only [read, run] at h
          cases h
          exact .inr ⟨long, side, more, rfl, by rw [Bytes.eq_take_of_read read], run⟩
    case isFalse => cases h

theorem save_of_readAll {data : Bytes} {squares : List LightSquare} (h : readAll data = (squares, .ok ())) :
    save squares = .ok data := by
  rcases readAll_inv h with ⟨rfl, rfl⟩ | ⟨long, side, more, side_eq, rfl, run⟩
  · rfl
  · have length : (data.take 4).length = Field.u32.width := by
      rw [List.length_take]
      exact Nat.min_eq_left long
    have head : Field.u32.packInt side = .ok (data.take 4) := by
      rw [side_eq]
      exact Field.packInt_unpackInt length
    obtain ⟨parts, mapped, saved⟩ := bind_eq_ok.mp (save_of_readAll run)
    refine bind_eq_ok.mpr ⟨(data.take 4 ++ (data.drop 4).take (side * side)) :: parts, ?_, ?_⟩
    · refine mapM_cons_eq_ok.mpr ⟨_, parts, ?_, mapped, rfl⟩
      rw [head, ok_bind]
    · rw [List.flatten_cons, Except.ok.inj saved, ← List.drop_drop, List.append_assoc, List.take_append_drop,
        List.take_append_drop]
termination_by data.length
decreasing_by rw [List.length_drop]; omega

theorem save_of_load {data : Bytes} {squares : List LightSquare} (h : load data [] = (.ok (), squares)) :
    save squares = .ok data := by
  rcases run : readAll data with ⟨added, outcome⟩
  simp only [load, run, List.nil_append] at h
  cases h
  exact save_of_readAll run

end Lights

end Terrain

end GameData
