import Mathlib
import GameData.Proofs.Terrain.MapFile
import GameData.Proofs.Terrain.Squares

/-!
The table in front of a map of squares.

The third word of an entry is the side of a square. The data of the squares follow the table, so that the sides before a
square tell where its data start.
-/
namespace GameData.Terrain

variable {area : Nat → Nat} {sides : Nat → Nat}

/-- Where the data of a square start among the data of all squares. -/
def offset (area sides : Nat → Nat) : Nat → Nat
  | 0 => 0
  | i + 1 => offset area sides i + area (sides i)

def side (data : Bytes) (i : Nat) : Nat := data.u32 (12 * i + 8)

def start (area : Nat → Nat) (data : Bytes) (i : Nat) : Nat := tableSize + offset area (side data) i

theorem offset_succ_left (area sides : Nat → Nat) (i : Nat) :
    offset area sides (i + 1) = area (sides 0) + offset area (fun j => sides (j + 1)) i := by
  induction i with
  | zero => simp [offset]
  | succ i ih => rw [offset, ih, offset, Nat.add_assoc]

theorem offset_congr {other : Nat → Nat} {n : Nat} (same : ∀ j < n, sides j = other j) :
    offset area sides n = offset area other n := by
  induction n with
  | zero => rfl
  | succ n ih => rw [offset, offset, ih fun j less => same j (Nat.lt_succ_of_lt less), same n (Nat.lt_succ_self n)]

/-- Squares without data do not move those after them. -/
theorem offset_of_zero {k n : Nat} (le : k ≤ n) (zero : ∀ i, k ≤ i → i < n → area (sides i) = 0) :
    offset area sides n = offset area sides k := by
  induction n, le using Nat.le_induction with
  | base => rfl
  | succ n le ih =>
      rw [offset, zero n le (Nat.lt_succ_self n)]
      exact ih fun i low high => zero i low (Nat.lt_succ_of_lt high)

/-- A square has no side where the table is zero. -/
theorem side_eq_zero {front back : Bytes} {n i : Nat} (after : front.length ≤ 12 * i + 8)
    (before : 12 * i + 12 ≤ front.length + n) : side (front ++ (Bytes.zeros n ++ back)) i = 0 := by
  obtain ⟨k, place⟩ : ∃ k, 12 * i + 8 = front.length + k := ⟨12 * i + 8 - front.length, by omega⟩
  have inside : k + 4 ≤ (Bytes.zeros n).length := by
    rw [Bytes.zeros, List.length_replicate]
    omega
  have word : Bytes.slice (front ++ (Bytes.zeros n ++ back)) (12 * i + 8) 4 = Bytes.zeros 4 := by
    rw [place, Bytes.slice, ← List.drop_drop, List.drop_left, List.drop_append_of_le_length (by omega),
      List.take_append_of_le_length (by rw [List.length_drop]; omega), Bytes.zeros, List.drop_replicate,
      List.take_replicate, Nat.min_eq_left]
    · rfl
    · rw [Bytes.zeros, List.length_replicate] at inside
      omega
  rw [side, Bytes.u32, word]
  rfl

def sideWord (words : List Nat) (i : Nat) : Nat := words.getD (3 * i + 2) 0

theorem sideWord_cons_succ (a b c : Nat) (words : List Nat) :
    (fun i => sideWord (a :: b :: c :: words) (i + 1)) = sideWord words := by
  funext i
  rfl

/-- A square that was read has its words and its part of the data. -/
theorem getElem?_readSquares {count : Nat} {words : List Nat} {rest left : Bytes} {squares : List Square}
    (h : readSquares area count words rest = (squares, .ok left)) {i : Nat} (inside : i < count) :
    squares[i]? = some ⟨words.getD (3 * i) 0, words.getD (3 * i + 1) 0, sideWord words i,
      rest.slice (offset area (sideWord words) i) (area (sideWord words i))⟩ := by
  fun_induction readSquares area count words rest generalizing squares left i with
  | case1 => cases inside
  | case2 => cases h
  | case3 count a b c words rest data read more outcome run ih =>
      cases h
      cases i with
      | zero =>
          rw [Bytes.eq_take_of_read read]
          rfl
      | succ i =>
          rw [List.getElem?_cons_succ, ih run (Nat.lt_of_succ_lt_succ inside), offset_succ_left, sideWord_cons_succ,
            Bytes.slice, Bytes.slice, List.drop_drop]
          rfl
  | case4 => cases h

theorem tableSize_le {data : Bytes} {words : List Nat} (table : tableWords data = .ok words)
    (enough : 3 * tableLength ≤ words.length) : tableSize ≤ data.length := by
  obtain ⟨whole, rfl⟩ := tableWords_eq_ok table
  have cut : (data.take tableSize).length = 4 * ((data.take tableSize).length / 4) := by omega
  rw [Bytes.length_words (by decide) cut, List.length_take] at enough
  simp only [tableSize, tableLength] at enough ⊢
  omega

/-- The words of a full table stand in the file one after the other. -/
theorem getD_tableWords {data : Bytes} {words : List Nat} (table : tableWords data = .ok words)
    (enough : tableSize ≤ data.length) {i : Nat} (inside : i < 3 * tableLength) :
    words.getD i 0 = data.u32 (4 * i) := by
  obtain ⟨_, rfl⟩ := tableWords_eq_ok table
  have length : (data.take (4 * (3 * tableLength))).length = 4 * (3 * tableLength) := List.length_take_of_le enough
  exact Bytes.getD_words_take length inside

theorem sideWord_eq {data : Bytes} {words : List Nat} (table : tableWords data = .ok words)
    (enough : tableSize ≤ data.length) {i : Nat} (inside : i < tableLength) : sideWord words i = side data i := by
  have word := getD_tableWords table enough (i := 3 * i + 2) (by omega)
  rw [sideWord, word, side]
  congr 1
  omega

theorem offset_sideWord {data : Bytes} {words : List Nat} (table : tableWords data = .ok words)
    (enough : tableSize ≤ data.length) {n : Nat} (inside : n ≤ tableLength) :
    offset area (sideWord words) n = offset area (side data) n :=
  offset_congr fun _ less => sideWord_eq table enough (Nat.lt_of_lt_of_le less inside)

end GameData.Terrain
