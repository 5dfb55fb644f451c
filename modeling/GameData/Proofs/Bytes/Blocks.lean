import Mathlib
import GameData.Proofs.Loading

/-!
Byte strings joined from blocks.

Each block stands in the joined string behind the blocks before it. A string of whole blocks of one size is cut into
them by `chunks`, so that the block with a number is the slice at that multiple of the size.
-/
namespace GameData.Bytes

theorem slice_slice (b : Bytes) {start size k n : Nat} (inside : k + n ≤ size) :
    (b.slice start size).slice k n = b.slice (start + k) n := by
  rw [slice, slice, slice, List.drop_take, List.drop_drop, List.take_take, Nat.min_eq_left (by omega)]

theorem slice_add {front : Bytes} {m : Nat} (length : front.length = m) (rest : Bytes) (k n : Nat) :
    slice (front ++ rest) (m + k) n = slice rest k n := by
  rw [slice, ← List.drop_drop, List.drop_left' length, slice]

theorem slice_flatten {blocks : List Bytes} {n : Nat} {c : Bytes} (place : blocks[n]? = some c) (rest : Bytes) :
    slice (blocks.flatten ++ rest) ((blocks.take n).map List.length).sum c.length = c := by
  induction blocks generalizing n with
  | nil => cases place
  | cons first blocks ih =>
      cases n with
      | zero =>
          cases place
          rw [List.take_zero, List.map_nil, List.sum_nil, slice, List.drop_zero, List.flatten_cons, List.append_assoc,
            List.take_left]
      | succ n =>
          rw [List.take_succ_cons, List.map_cons, List.sum_cons, slice, ← List.drop_drop, List.flatten_cons,
            List.append_assoc, List.drop_left]
          exact ih place

section OneSize

variable {w : Nat}

theorem sum_length_blocks {blocks : List Bytes} (size : ∀ c ∈ blocks, c.length = w) :
    (blocks.map List.length).sum = w * blocks.length := by
  induction blocks with
  | nil => rfl
  | cons c blocks ih =>
      obtain ⟨first, others⟩ := List.forall_mem_cons.mp size
      rw [List.map_cons, List.sum_cons, ih others, first, List.length_cons, Nat.mul_succ, Nat.add_comm]

theorem length_flatten_blocks {blocks : List Bytes} (size : ∀ c ∈ blocks, c.length = w) :
    blocks.flatten.length = w * blocks.length := by
  rw [List.length_flatten, sum_length_blocks size]

/-- The block with a number stands at that multiple of the size. -/
theorem slice_flatten_blocks {blocks : List Bytes} (size : ∀ c ∈ blocks, c.length = w) {n : Nat} {c : Bytes}
    (place : blocks[n]? = some c) (rest : Bytes) : slice (blocks.flatten ++ rest) (w * n) w = c := by
  have before : ((blocks.take n).map List.length).sum = w * n := by
    rw [sum_length_blocks fun b mem => size b (List.mem_of_mem_take mem), List.length_take]
    have := (List.getElem?_eq_some_iff.mp place).1
    rw [Nat.min_eq_left (by omega)]
  have found := slice_flatten place rest
  rwa [before, size c (List.mem_of_getElem? place)] at found

theorem flatten_chunks (positive : 0 < w) (b : Bytes) : (chunks w b).flatten = b := by
  rw [chunks]
  split
  case isTrue more =>
    have shorter : (b.drop w).length < b.length := by
      have := List.length_pos_iff.mpr more.2
      rw [List.length_drop]
      omega
    rw [List.flatten_cons, flatten_chunks positive, List.take_append_drop]
  case isFalse none =>
    cases b with
    | nil => rfl
    | cons x xs => exact absurd ⟨positive, List.cons_ne_nil x xs⟩ none
termination_by b.length

theorem chunks_flatten (positive : 0 < w) {blocks : List Bytes} (size : ∀ c ∈ blocks, c.length = w) :
    chunks w blocks.flatten = blocks := by
  induction blocks with
  | nil => rw [List.flatten_nil, chunks, dif_neg fun more => more.2 rfl]
  | cons c blocks ih =>
      obtain ⟨first, others⟩ := List.forall_mem_cons.mp size
      have more : c ++ blocks.flatten ≠ [] := by
        intro empty
        rw [(List.append_eq_nil_iff.mp empty).1] at first
        exact Nat.ne_of_gt positive first.symm
      rw [List.flatten_cons, chunks, dif_pos ⟨positive, more⟩, List.take_left' first, List.drop_left' first, ih others]

theorem length_of_mem_chunks {b c : Bytes} (whole : b.length % w = 0) (mem : c ∈ chunks w b) : c.length = w := by
  rw [chunks] at mem
  split at mem
  case isTrue more =>
    have long : 0 < b.length := List.length_pos_iff.mpr more.2
    have enough : w ≤ b.length := Nat.le_of_dvd long (Nat.dvd_of_mod_eq_zero whole)
    rcases List.mem_cons.mp mem with rfl | rest
    · rw [List.length_take, Nat.min_eq_left enough]
    · refine length_of_mem_chunks ?_ rest
      rw [List.length_drop, ← Nat.mod_eq_sub_mod enough, whole]
  case isFalse => cases mem
termination_by b.length
decreasing_by rw [List.length_drop]; omega

variable {b : Bytes} {count : Nat} (positive : 0 < w) (length : b.length = w * count)
include positive length

theorem length_chunks : (chunks w b).length = count := by
  have size : ∀ c ∈ chunks w b, c.length = w := fun c => length_of_mem_chunks (by rw [length, Nat.mul_mod_right])
  have total := length_flatten_blocks size
  rw [flatten_chunks positive, length] at total
  exact (Nat.eq_of_mul_eq_mul_left positive total).symm

theorem getElem?_chunks {n : Nat} (inside : n < count) : (chunks w b)[n]? = some (b.slice (w * n) w) := by
  have size : ∀ c ∈ chunks w b, c.length = w := fun c => length_of_mem_chunks (by rw [length, Nat.mul_mod_right])
  have place := List.getElem?_eq_getElem (l := chunks w b) (i := n) (by rwa [length_chunks positive length])
  have found := slice_flatten_blocks size place []
  rw [List.append_nil, flatten_chunks positive] at found
  rw [place, found]

end OneSize

end GameData.Bytes
