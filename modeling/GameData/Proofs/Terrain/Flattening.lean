import Mathlib
import GameData.Batch.Terrain
import GameData.Proofs.Batch.Mirroring
import GameData.Proofs.Terrain.Table

/-!
Flattened maps.

Flattening a map of heights or lights sets the data of the squares with a side to zero. All other bytes of the file stay,
those that tell the sides among them, so that the flattened file has the same layout. The maps of a folder are flattened
into another one or in place.
-/
namespace GameData.Terrain

section Zeroed

/-- The bytes at some positions are zero, and all others are as they were. -/
structure Zeroed (there : Nat → Prop) (data flat : Bytes) : Prop where
  length : flat.length = data.length
  zero : ∀ k < data.length, there k → flat[k]? = some 0
  same : ∀ k, ¬ there k → flat[k]? = data[k]?

variable {P Q : Nat → Prop} {data front back : Bytes} {n : Nat}

theorem Zeroed.congr (zeroed : Zeroed P data front) (same : ∀ k, P k ↔ Q k) : Zeroed Q data front :=
  ⟨zeroed.length, fun k inside there => zeroed.zero k inside ((same k).mpr there),
    fun k other => zeroed.same k fun there => other ((same k).mp there)⟩

theorem zeroed_nowhere (data : Bytes) : Zeroed (fun _ => False) data data := by
  refine ⟨rfl, ?_, fun _ _ => rfl⟩
  intro k _ there
  cases there

theorem zeroed_zeros (data : Bytes) : Zeroed (fun _ => True) data (Bytes.zeros data.length) := by
  refine ⟨List.length_replicate, ?_, ?_⟩
  · intro k inside _
    exact List.getElem?_replicate_of_lt inside
  · intro k other
    exact absurd trivial other

/-- What replaces two parts of a string is cut where the string was. -/
theorem take_drop_of_lengths (first : front.length = (data.take n).length) (second : back.length = (data.drop n).length) :
    (front ++ back).take n = front ∧ (front ++ back).drop n = back := by
  rw [List.length_take] at first
  rw [List.length_drop] at second
  by_cases long : n ≤ data.length
  · have exact : front.length = n := by omega
    exact ⟨List.take_left' exact, List.drop_left' exact⟩
  · have none : back = [] := List.length_eq_zero_iff.mp (by omega)
    subst none
    rw [List.append_nil]
    exact ⟨List.take_of_length_le (by omega), List.drop_of_length_le (by omega)⟩

theorem Zeroed.append (first : Zeroed P (data.take n) front) (second : Zeroed Q (data.drop n) back) :
    Zeroed (fun k => if k < n then P k else Q (k - n)) data (front ++ back) := by
  obtain ⟨taken, dropped⟩ := take_drop_of_lengths first.length second.length
  have before {k : Nat} (less : k < n) : (front ++ back)[k]? = front[k]? ∧ data[k]? = (data.take n)[k]? := by
    have cut : ((front ++ back).take n)[k]? = (front ++ back)[k]? := List.getElem?_take_of_lt less
    rw [taken] at cut
    exact ⟨cut.symm, (List.getElem?_take_of_lt less).symm⟩
  have after {k : Nat} (more : n ≤ k) : (front ++ back)[k]? = back[k - n]? ∧ data[k]? = (data.drop n)[k - n]? := by
    have cut : ((front ++ back).drop n)[k - n]? = (front ++ back)[n + (k - n)]? := List.getElem?_drop
    rw [dropped, Nat.add_sub_cancel' more] at cut
    refine ⟨cut.symm, ?_⟩
    rw [List.getElem?_drop, Nat.add_sub_cancel' more]
  have lengths := congrArg₂ (· + ·) first.length second.length
  rw [List.length_take, List.length_drop] at lengths
  refine ⟨?_, ?_, ?_⟩
  · rw [List.length_append]
    omega
  · intro k inside there
    by_cases less : k < n
    · rw [if_pos less] at there
      rw [(before less).1]
      exact first.zero k (by rw [List.length_take]; omega) there
    · rw [if_neg less] at there
      rw [(after (Nat.le_of_not_lt less)).1]
      exact second.zero _ (by rw [List.length_drop]; omega) there
  · intro k other
    by_cases less : k < n
    · rw [if_pos less] at other
      rw [(before less).1, (before less).2]
      exact first.same k other
    · rw [if_neg less] at other
      rw [(after (Nat.le_of_not_lt less)).1, (after (Nat.le_of_not_lt less)).2]
      exact second.same _ other

def cleared (side : Int) (data : Bytes) : Bytes := if side = 0 then data else Bytes.zeros data.length

theorem zeroed_cleared (side : Nat) (data : Bytes) : Zeroed (fun _ => side ≠ 0) data (cleared side data) := by
  by_cases none : side = 0
  · rw [cleared, if_pos (by simp [none])]
    exact (zeroed_nowhere data).congr fun _ => by simp [none]
  · rw [cleared, if_neg (by simp [none])]
    exact (zeroed_zeros data).congr fun _ => by simp [none]

theorem cleared_cleared (side : Int) (data : Bytes) : cleared side (cleared side data) = cleared side data := by
  rw [cleared, cleared]
  split
  · rfl
  · rw [Bytes.zeros, Bytes.zeros, List.length_replicate]

theorem read_of_read {rest b : Bytes} (read : Bytes.read n rest = .ok b) (other : Bytes) :
    Bytes.read n other = .ok (other.take n) := by
  unfold Bytes.read at read ⊢
  split at read
  · rename_i small
    rw [if_pos small]
  · cases read

end Zeroed

namespace Heights

/-- A byte of the data of a square with a side. -/
def Pixel (data : Bytes) (k : Nat) : Prop :=
  ∃ i < tableLength, side data i ≠ 0 ∧ start area data i ≤ k ∧ k < start area data i + area (side data i)

/-- What a file becomes: all heights of squares with a side are zero, the table is the same, and the file is flat
already. -/
structure Flattens (data flat : Bytes) : Prop where
  saved : save (flatten (load data []).2) = .ok flat
  zeroed : Zeroed (Pixel data) data flat
  table : flat.take tableSize = data.take tableSize
  again : ∃ squares, load flat [] = (.ok (), squares) ∧ save (flatten squares) = .ok flat

theorem flatten_eq (squares : List Square) :
    flatten squares = squares.map fun s => { s with data := cleared s.side s.data } := by
  refine List.map_congr_left fun s _ => ?_
  simp only [cleared]
  split <;> rfl

theorem flatten_flatten (squares : List Square) : flatten (flatten squares) = flatten squares := by
  rw [flatten_eq, flatten_eq, List.map_map]
  refine List.map_congr_left fun s _ => ?_
  simp only [Function.comp_apply, cleared_cleared]

theorem words_flatten (squares : List Square) : (flatten squares).flatMap Square.words = squares.flatMap Square.words := by
  rw [flatten_eq, List.flatMap_map]
  rfl

/-- A byte of the data of a square with a side, counted from the first of the squares. -/
def Inside (sides : Nat → Nat) (count k : Nat) : Prop :=
  ∃ i < count, sides i ≠ 0 ∧ offset area sides i ≤ k ∧ k < offset area sides i + area (sides i)

theorem inside_succ_iff (sides : Nat → Nat) (count k : Nat) :
    Inside sides (count + 1) k ↔
      if k < area (sides 0) then sides 0 ≠ 0 else Inside (fun i => sides (i + 1)) count (k - area (sides 0)) := by
  constructor
  · rintro ⟨i, less, ne, low, high⟩
    cases i with
    | zero =>
        simp only [offset, Nat.zero_add] at high
        rwa [if_pos high]
    | succ i =>
        rw [offset_succ_left] at low high
        rw [if_neg (by omega)]
        refine ⟨i, Nat.lt_of_succ_lt_succ less, ne, by omega, ?_⟩
        beta_reduce
        omega
  · intro h
    split at h
    case isTrue less => exact ⟨0, Nat.succ_pos _, h, Nat.zero_le _, by simpa [offset] using less⟩
    case isFalse more =>
      obtain ⟨i, less, ne, low, high⟩ := h
      beta_reduce at high
      refine ⟨i + 1, Nat.succ_lt_succ less, ne, ?_, ?_⟩
      · rw [offset_succ_left]
        omega
      · rw [offset_succ_left]
        omega

/-- Data of squares that were all used up are cleared at the squares with a side, and read again as flattened squares. -/
theorem readSquares_flatten {count : Nat} {words : List Nat} {rest : Bytes} {squares : List Square}
    (h : readSquares area count words rest = (squares, .ok [])) :
    Zeroed (Inside (sideWord words) count) rest (((flatten squares).map (·.data)).flatten) ∧
      readSquares area count words (((flatten squares).map (·.data)).flatten) = (flatten squares, .ok []) := by
  fun_induction readSquares area count words rest generalizing squares with
  | case1 words rest =>
      cases h
      refine ⟨(zeroed_nowhere []).congr fun k => ?_, rfl⟩
      constructor
      · intro none
        cases none
      · rintro ⟨_, less, _⟩
        cases less
  | case2 => cases h
  | case3 count a b c words rest data read more outcome run ih =>
      cases h
      obtain ⟨cleared, reread⟩ := ih run
      have taken : data = rest.take (area c) := Bytes.eq_take_of_read read
      have first := zeroed_cleared c data
      rw [taken] at first
      rw [flatten_eq, List.map_cons, ← flatten_eq, List.map_cons, List.flatten_cons, taken]
      obtain ⟨take, drop⟩ := take_drop_of_lengths first.length cleared.length
      constructor
      · refine (first.append cleared).congr fun k => ?_
        rw [inside_succ_iff, sideWord_cons_succ]
        rfl
      · rw [readSquares, read_of_read read, drop, reread, take]
  | case4 => cases h

/-- What loading a file has found of it: its table, and squares that use up its data. -/
theorem table_of_load {data : Bytes} {squares : List Square} (h : load data [] = (.ok (), squares)) :
    ∃ words, tableWords data = .ok words ∧ tableSize ≤ data.length ∧
      readSquares area tableLength words (data.drop tableSize) = (squares, .ok []) ∧
      (∀ n ∈ squares.flatMap Square.words, Field.u32.least ≤ n ∧ n < Field.u32.limit) := by
  obtain ⟨words, added, table, run, same⟩ := load_eq_ok h
  rw [List.nil_append] at same
  subst same
  obtain ⟨_, enough, heads, _⟩ := readSquares_eq_ok run
  refine ⟨words, table, tableSize_le table enough, run, ?_⟩
  intro n mem
  rw [heads] at mem
  obtain ⟨w, word, rfl⟩ := List.mem_map.mp mem
  obtain ⟨_, rfl⟩ := tableWords_eq_ok table
  exact ⟨Int.natCast_nonneg w, Int.ofNat_lt.mpr (Bytes.words_lt (List.mem_of_mem_take word))⟩

/-- The flattened file is the table and then the data, the squares with a side cleared. -/
theorem save_flatten {data : Bytes} {squares : List Square} (h : load data [] = (.ok (), squares)) :
    save (flatten squares) = .ok (data.take tableSize ++ ((flatten squares).map (·.data)).flatten) := by
  obtain ⟨words, table, enough, run, fits⟩ := table_of_load h
  have whole := save_of_load h
  rw [save, writeSquares_eq_ok fits, Except.ok.injEq] at whole
  have length : ((squares.flatMap Square.words).flatMap (Bytes.ofInt 4)).length = tableSize := by
    have count : (squares.flatMap Square.words).length = 3 * squares.length := by
      simp [Square.words, List.length_flatMap]
      omega
    rw [Bytes.length_flatMap_ofInt, count, (readSquares_eq_ok run).1]
    rfl
  rw [save, writeSquares_eq_ok (words_flatten squares ▸ fits), words_flatten, ← whole, List.take_left' length]

theorem pixel_iff {data : Bytes} {words : List Nat} (table : tableWords data = .ok words)
    (enough : tableSize ≤ data.length) (k : Nat) :
    Pixel data k ↔ if k < tableSize then False else Inside (sideWord words) tableLength (k - tableSize) := by
  have each {i : Nat} (inside : i < tableLength) :
      sideWord words i = side data i ∧ offset area (sideWord words) i = offset area (side data) i :=
    ⟨sideWord_eq table enough inside, offset_sideWord table enough (Nat.le_of_lt inside)⟩
  constructor
  · rintro ⟨i, inside, ne, low, high⟩
    rw [start] at low high
    rw [if_neg (by omega)]
    refine ⟨i, inside, ?_⟩
    rw [(each inside).1, (each inside).2]
    exact ⟨ne, by omega, by omega⟩
  · intro h
    split at h
    case isTrue => cases h
    case isFalse more =>
      obtain ⟨i, inside, h⟩ := h
      rw [(each inside).1, (each inside).2] at h
      obtain ⟨ne, low, high⟩ := h
      refine ⟨i, inside, ne, ?_, ?_⟩
      · rw [start]
        omega
      · rw [start]
        omega

theorem flattens {data : Bytes} {squares : List Square} (h : load data [] = (.ok (), squares)) :
    ∃ flat, save (flatten squares) = .ok flat ∧ Flattens data flat := by
  obtain ⟨words, table, enough, run, _⟩ := table_of_load h
  obtain ⟨cleared, reread⟩ := readSquares_flatten run
  have zeroed := (zeroed_nowhere (data.take tableSize)).append cleared
  obtain ⟨take, drop⟩ := take_drop_of_lengths (Eq.refl (data.take tableSize).length) cleared.length
  have saved := save_flatten h
  refine ⟨_, saved, by rw [h]; exact saved, zeroed.congr fun k => (pixel_iff table enough k).symm, take, flatten squares, ?_, ?_⟩
  · have table' : tableWords (data.take tableSize ++ ((flatten squares).map (·.data)).flatten) = .ok words := by
      rw [← table, tableWords, tableWords, take]
    simp only [load, table', drop, reread]
    rfl
  · rw [flatten_flatten]
    exact saved

end Heights

namespace Lights

/-- Where a square starts: after those before it, each four bytes for the side and then its pixels. -/
def start (data : Bytes) : Nat → Nat
  | 0 => 0
  | i + 1 => start data i + 4 + data.u32 (start data i) * data.u32 (start data i)

/-- A byte of the pixels of a square. -/
def Pixel (data : Bytes) (k : Nat) : Prop := ∃ i, start data i + 4 ≤ k ∧ k < start data (i + 1)

/-- What a file becomes: all lights are zero, the squares start where they did and have the sides they had, and the file is
flat already. -/
structure Flattens (data flat : Bytes) : Prop where
  saved : save (flatten (load data []).2) = .ok flat
  zeroed : Zeroed (Pixel data) data flat
  starts : ∀ i, start flat i = start data i
  sides : ∀ i, flat.slice (start data i) 4 = data.slice (start data i) 4
  again : ∃ squares, load flat [] = (.ok (), squares) ∧ save (flatten squares) = .ok flat

theorem flatten_eq (squares : List LightSquare) :
    flatten squares = squares.map fun s => { s with data := cleared s.side s.data } := by
  refine List.map_congr_left fun s _ => ?_
  simp only [cleared]
  split <;> rfl

theorem flatten_flatten (squares : List LightSquare) : flatten (flatten squares) = flatten squares := by
  rw [flatten_eq, flatten_eq, List.map_map]
  refine List.map_congr_left fun s _ => ?_
  simp only [Function.comp_apply, cleared_cleared]

theorem start_mono (data : Bytes) {i j : Nat} (le : i ≤ j) : start data i ≤ start data j := by
  induction j, le using Nat.le_induction with
  | base => exact Nat.le_refl _
  | succ j _ ih =>
      rw [start]
      omega

/-- No pixel stands among the four bytes of a side. -/
theorem not_pixel_side (data : Bytes) (i : Nat) {j : Nat} (small : j < 4) : ¬ Pixel data (start data i + j) := by
  rintro ⟨n, low, high⟩
  rcases Nat.lt_or_ge n i with less | more
  · have before : start data (n + 1) ≤ start data i := start_mono data less
    omega
  · have after := start_mono data more
    omega

theorem u32_drop (data : Bytes) (n o : Nat) : Bytes.u32 (data.drop n) o = data.u32 (n + o) := by
  rw [Bytes.u32, Bytes.u32, Bytes.slice, Bytes.slice, List.drop_drop]

theorem start_succ_left (data : Bytes) (i : Nat) :
    start data (i + 1) = 4 + data.u32 0 * data.u32 0 + start (data.drop (4 + data.u32 0 * data.u32 0)) i := by
  induction i with
  | zero => simp [start]
  | succ i ih =>
      rw [start, ih, start, u32_drop]
      omega

theorem pixel_iff (data : Bytes) (k : Nat) :
    Pixel data k ↔ if k < 4 then False else
      if k - 4 < data.u32 0 * data.u32 0 then data.u32 0 ≠ 0
      else Pixel (data.drop (4 + data.u32 0 * data.u32 0)) (k - 4 - data.u32 0 * data.u32 0) := by
  constructor
  · rintro ⟨i, low, high⟩
    cases i with
    | zero =>
        rw [start] at low
        rw [start_succ_left, start] at high
        rw [if_neg (by omega), if_pos (by omega)]
        intro none
        rw [none] at high
        omega
    | succ i =>
        rw [start_succ_left] at low high
        rw [if_neg (by omega), if_neg (by omega)]
        exact ⟨i, by omega, by omega⟩
  · intro h
    split at h
    · cases h
    · split at h
      · refine ⟨0, ?_, ?_⟩
        · rw [start]
          omega
        · rw [start_succ_left, start]
          omega
      · obtain ⟨i, low, high⟩ := h
        refine ⟨i + 1, ?_, ?_⟩
        · rw [start_succ_left]
          omega
        · rw [start_succ_left]
          omega

theorem small_of_readAll {data : Bytes} {squares : List LightSquare} (h : readAll data = (squares, .ok ()))
    (some : data ≠ []) : ∃ pixels, Bytes.read (data.u32 0 * data.u32 0) (data.drop 4) = .ok pixels := by
  rw [readAll.eq_def] at h
  split at h
  · exact absurd rfl some
  · split at h
    · simp only at h
      split at h
      · cases h
      · rename_i pixels read
        exact ⟨pixels, read⟩
    · cases h

theorem readAll_of_read {data pixels : Bytes} {side : Nat} {more : List LightSquare} (long : 4 ≤ data.length)
    (word : data.u32 0 = side) (read : Bytes.read (side * side) (data.drop 4) = .ok pixels)
    (rest : readAll (data.drop (4 + side * side)) = (more, .ok ())) :
    readAll data = (⟨side, pixels⟩ :: more, .ok ()) := by
  subst word
  rw [readAll.eq_def]
  cases data with
  | nil => simp at long
  | cons x xs =>
      have first : Bytes.ofLE ((x :: xs).take 4) = Bytes.u32 (x :: xs) 0 := rfl
      simp only [if_pos long, first, read, rest]

theorem save_cons {square : LightSquare} {squares : List LightSquare} {head flat : Bytes}
    (packed : Field.u32.packInt square.side = .ok head) (saved : save squares = .ok flat) :
    save (square :: squares) = .ok (head ++ square.data ++ flat) := by
  obtain ⟨parts, mapped, joined⟩ := bind_eq_ok.mp saved
  rw [Except.ok.injEq] at joined
  refine bind_eq_ok.mpr ⟨(head ++ square.data) :: parts, ?_, by rw [List.flatten_cons, joined]⟩
  exact mapM_cons_eq_ok.mpr ⟨_, parts, bind_eq_ok.mpr ⟨head, packed, rfl⟩, mapped, rfl⟩

/-- The pixels of squares are cleared, and the squares read again as flattened ones. -/
theorem readAll_flatten {data : Bytes} {squares : List LightSquare} (h : readAll data = (squares, .ok ())) :
    ∃ flat, save (flatten squares) = .ok flat ∧ Zeroed (Pixel data) data flat ∧
      readAll flat = (flatten squares, .ok ()) := by
  rcases readAll_inv h with ⟨rfl, rfl⟩ | ⟨long, side, more, side_eq, rfl, run⟩
  · refine ⟨[], rfl, ⟨rfl, ?_, fun _ _ => rfl⟩, h⟩
    intro k inside
    cases inside
  · have word : side = data.u32 0 := side_eq
    subst word
    obtain ⟨back, saved, behind, reread⟩ := readAll_flatten run
    obtain ⟨pixels, read⟩ := small_of_readAll h (by rintro rfl; simp at long)
    have length : (data.take 4).length = Field.u32.width := List.length_take_of_le long
    have packed : Field.u32.packInt (data.u32 0) = .ok (data.take 4) := Field.packInt_unpackInt length
    rw [← List.drop_drop] at behind
    have body := (zeroed_cleared (data.u32 0) ((data.drop 4).take (data.u32 0 * data.u32 0))).append behind
    have zeroed := (zeroed_nowhere (data.take 4)).append body
    obtain ⟨head, rest⟩ := take_drop_of_lengths (Eq.refl (data.take 4).length) body.length
    obtain ⟨front, tail⟩ := take_drop_of_lengths (zeroed_cleared (data.u32 0) _).length behind.length
    rw [flatten_eq, List.map_cons, ← flatten_eq]
    refine ⟨_, save_cons packed saved, ?_, ?_⟩
    · rw [List.append_assoc]
      refine zeroed.congr fun k => ?_
      rw [pixel_iff data k, List.drop_drop]
    · rw [List.append_assoc]
      refine readAll_of_read ?_ ?_ ?_ ?_
      · rw [zeroed.length]
        exact long
      · rw [Bytes.u32, Bytes.slice, List.drop_zero, head]
        rfl
      · rw [rest, read_of_read read, front]
      · rw [← List.drop_drop, rest, tail]
        exact reread
termination_by data.length
decreasing_by rw [List.length_drop]; omega

theorem slice_side {data flat : Bytes} (zeroed : Zeroed (Pixel data) data flat) (i : Nat) :
    flat.slice (start data i) 4 = data.slice (start data i) 4 := by
  refine List.ext_getElem? fun j => ?_
  rw [Bytes.slice, Bytes.slice, List.getElem?_take, List.getElem?_take]
  split
  · rename_i small
    rw [List.getElem?_drop, List.getElem?_drop]
    exact zeroed.same _ (not_pixel_side data i small)
  · rfl

theorem flattens {data : Bytes} {squares : List LightSquare} (h : load data [] = (.ok (), squares)) :
    ∃ flat, save (flatten squares) = .ok flat ∧ Flattens data flat := by
  have loaded := h
  rcases run : readAll data with ⟨added, outcome⟩
  simp only [load, run, List.nil_append] at h
  cases h
  obtain ⟨flat, saved, zeroed, reread⟩ := readAll_flatten run
  have sides := slice_side zeroed
  refine ⟨flat, saved, by rw [loaded]; exact saved, zeroed, ?_, sides, flatten squares, ?_, ?_⟩
  · intro i
    induction i with
    | zero => rfl
    | succ i ih => rw [start, start, ih, Bytes.u32, Bytes.u32, sides]
  · simp only [load, reread, List.nil_append]
  · rw [flatten_flatten]
    exact saved

end Lights

end GameData.Terrain

namespace GameData.Batch.Terrain

open Files Filling GameData.Terrain

variable {r : Request} {t : Tree} {src : String} {S D : Place}

theorem readHeights_fill {s : Session} {path : String} {data : Bytes} {squares : List Square}
    (read : (Shell.readBytes path).fill s = (.ok data, s)) (loads : Heights.load data [] = (.ok (), squares)) :
    (readHeights path).fill s = (.ok squares, s) := by
  rw [readHeights, fill_bind_of_ok read, loads]
  rfl

theorem readLights_fill {s : Session} {path : String} {data : Bytes} {squares : List LightSquare}
    (read : (Shell.readBytes path).fill s = (.ok data, s)) (loads : Lights.load data [] = (.ok (), squares)) :
    (readLights path).fill s = (.ok squares, s) := by
  rw [readLights, fill_bind_of_ok read, loads]
  rfl

/-- Every file of a walk is there at its route below `D` as a flattened one, and all other files are as they were. -/
structure Flattened (flattens : Bytes → Bytes → Prop) (m : String → Bool) (S D : Place) (t u : Tree) : Prop where
  made : ∀ rel ∈ t.sources m S, ∃ c flat, t.get? (S ++ rel) = some (.file c) ∧
    u.get? (D ++ rel) = some (.file (.raw flat)) ∧ flattens c.bytes flat
  others : ∀ p c, (∀ rel ∈ t.sources m S, p ≠ D ++ rel) → (u.get? p = some (.file c) ↔ t.get? p = some (.file c))

def AllLoad (loads : Bytes → Prop) (m : String → Bool) (S : Place) (t : Tree) : Prop :=
  ∀ rel ∈ t.sources m S, ∀ c, t.get? (S ++ rel) = some (.file c) → loads c.bytes

/-- A job that makes a flattened file of each file it comes to. -/
theorem flattened_of_visits (mirrors : r.Mirrors t src S D) {patterns : List String} {visit : String → Shell Unit}
    {flattens : Bytes → Bytes → Prop}
    (aside : ∀ rel ∈ t.sources (Pattern.oneAccepts patterns) S, t.Aside S D rel)
    (room : ∀ rel ∈ t.sources (Pattern.oneAccepts patterns) S, t.Room D rel)
    (does : ∀ rel ∈ t.sources (Pattern.oneAccepts patterns) S, ∀ c, t.get? (S ++ rel) = some (.file c) →
      ∃ flat, flattens c.bytes flat ∧ ∀ s, Tree.Spared S rel t s.tree → s.tree.Room D rel →
        (visit (pathBelow src rel)).fill s =
          (.ok (), { s with tree := (s.tree.addFolders (D ++ rel.dropLast)).put (D ++ rel) (.file (.raw flat)) }))
    (out : String) :
    ∃ after, (r.forSources patterns visit).fill ⟨t, out⟩ = (.ok (), ⟨after, out⟩) ∧
      Flattened flattens (Pattern.oneAccepts patterns) S D t after := by
  have each : ∀ rel, ∃ flat, rel ∈ t.sources (Pattern.oneAccepts patterns) S → ∃ c, t.get? (S ++ rel) = some (.file c) ∧
      flattens c.bytes flat ∧ ∀ s, Tree.Spared S rel t s.tree → s.tree.Room D rel →
        (visit (pathBelow src rel)).fill s =
          (.ok (), { s with tree := (s.tree.addFolders (D ++ rel.dropLast)).put (D ++ rel) (.file (.raw flat)) }) := by
    intro rel
    by_cases mem : rel ∈ t.sources (Pattern.oneAccepts patterns) S
    · obtain ⟨_, c, _, _, found⟩ := mirrors.sound.mem_sources_iff.mp mem
      obtain ⟨flat, flattens, run⟩ := does rel mem c found
      exact ⟨flat, fun _ => ⟨c, found, flattens, run⟩⟩
    · exact ⟨[], fun inside => absurd inside mem⟩
  choose flat known using each
  obtain ⟨after, run, stored⟩ := mirrors.stores aside room (fun rel mem s spared room => by
    obtain ⟨_, _, _, visited⟩ := known rel mem
    exact visited s spared room) out
  refine ⟨after, run, ?_, stored.others⟩
  intro rel mem
  obtain ⟨c, found, flattens, _⟩ := known rel mem
  exact ⟨c, flat rel, found, stored.files rel mem, flattens⟩

theorem room_of_home (sound : t.Sound) {rel : Place} (home : t.get? (D ++ rel.dropLast) = some .folder)
    (free : t.get? (D ++ rel) ≠ some .folder) : t.Room D rel := by
  refine ⟨?_, free⟩
  rintro p c ⟨more, whole⟩ file
  by_cases last : more = []
  · rw [last, List.append_nil] at whole
    rw [whole, home] at file
    cases file
  · rw [← whole] at home
    rw [sound.folder_of_append home last] at file
    cases file

/-- The last steps of a visit: the file is opened and the flattened data are written, where its folder is there. -/
theorem fill_store {s : Session} {rel : Place} (sound : s.tree.Sound) (names : ∀ n ∈ D ++ rel, IsName n) (ne : rel ≠ [])
    (home : s.tree.get? (D ++ rel.dropLast) = some .folder) (free : s.tree.get? (D ++ rel) ≠ some .folder)
    {result : Except Fault Bytes} {flat : Bytes} (saved : result = .ok flat) :
    (do
      Shell.writeBytes (Tree.Place.text (D ++ rel)) []
      let data ← attempt result
      Shell.writeBytes (Tree.Place.text (D ++ rel)) data).fill s =
      (.ok (), { s with tree := s.tree.put (D ++ rel) (.file (.raw flat)) }) := by
  subst saved
  refine Shell.store_text sound names ?_ free flat
  rw [List.dropLast_append_of_ne_nil ne]
  exact home

/-- Flattening the heights of a folder, where the target has the folders it needs. -/
theorem flattenHeights_flattens (mirrors : r.Mirrors t src S D)
    (loads : AllLoad (fun b => (Heights.load b []).1 = .ok ()) (Pattern.oneAccepts ["*.hmp"]) S t)
    (aside : ∀ rel ∈ t.sources (Pattern.oneAccepts ["*.hmp"]) S, t.Aside S D rel)
    (home : ∀ rel ∈ t.sources (Pattern.oneAccepts ["*.hmp"]) S, t.get? (D ++ rel.dropLast) = some .folder)
    (free : ∀ rel ∈ t.sources (Pattern.oneAccepts ["*.hmp"]) S, t.get? (D ++ rel) ≠ some .folder) (out : String) :
    ∃ after, (flattenHeights r).fill ⟨t, out⟩ = (.ok (), ⟨after, out⟩) ∧
      Flattened Heights.Flattens (Pattern.oneAccepts ["*.hmp"]) S D t after := by
  have room : ∀ rel ∈ t.sources (Pattern.oneAccepts ["*.hmp"]) S, t.Room D rel :=
    fun rel mem => room_of_home mirrors.sound (home rel mem) (free rel mem)
  refine flattened_of_visits mirrors aside room ?_ out
  intro rel mem c found
  have source := mirrors.sound.mem_sources_iff.mp mem
  have names := mirrors.sound.isName_of_isSource source
  have loaded : Heights.load c.bytes [] = (.ok (), (Heights.load c.bytes []).2) := Prod.ext (loads rel mem c found) rfl
  obtain ⟨flat, saved, flattens⟩ := Heights.flattens loaded
  refine ⟨flat, flattens, fun s spared room => ?_⟩
  have there := spared.folders _ (home rel mem)
  rw [spared.sound.addFolders_eq there]
  refine (fill_bind_of_ok (mirrors.fill_moved source.ne_nil names s) _).trans ?_
  refine (fill_bind_of_ok (readHeights_fill (mirrors.fill_readBytes spared found) loaded) _).trans ?_
  exact fill_store spared.sound (mirrors.names_append names) source.ne_nil there room.free saved

/-- Flattening the lights of a folder, which makes the folders that the target needs. -/
theorem flattenLights_flattens (mirrors : r.Mirrors t src S D)
    (loads : AllLoad (fun b => (Lights.load b []).1 = .ok ()) (Pattern.oneAccepts ["*.lmp"]) S t)
    (aside : ∀ rel ∈ t.sources (Pattern.oneAccepts ["*.lmp"]) S, t.Aside S D rel)
    (room : ∀ rel ∈ t.sources (Pattern.oneAccepts ["*.lmp"]) S, t.Room D rel) (out : String) :
    ∃ after, (flattenLights r).fill ⟨t, out⟩ = (.ok (), ⟨after, out⟩) ∧
      Flattened Lights.Flattens (Pattern.oneAccepts ["*.lmp"]) S D t after := by
  refine flattened_of_visits mirrors aside room ?_ out
  intro rel mem c found
  have source := mirrors.sound.mem_sources_iff.mp mem
  have names := mirrors.sound.isName_of_isSource source
  have loaded : Lights.load c.bytes [] = (.ok (), (Lights.load c.bytes []).2) := Prod.ext (loads rel mem c found) rfl
  obtain ⟨flat, saved, flattens⟩ := Lights.flattens loaded
  refine ⟨flat, flattens, fun s spared room => ?_⟩
  have before : ∀ n ∈ D ++ rel.dropLast, IsName n :=
    mirrors.names_append fun n mem => names n (List.mem_of_mem_dropLast mem)
  have furnished := spared.sound.addFolders before room.clear
  have there := Tree.get?_addFolders_self s.tree (D ++ rel.dropLast)
  have free : (s.tree.addFolders (D ++ rel.dropLast)).get? (D ++ rel) ≠ some .folder := by
    have positive := List.length_pos_iff.mpr source.ne_nil
    rw [Tree.get?_addFolders_of_lt]
    · exact room.free
    · rw [List.length_append, List.length_append, List.length_dropLast]
      omega
  refine (fill_bind_of_ok (mirrors.fill_moved source.ne_nil names s) _).trans ?_
  refine (fill_bind_of_ok (mirrors.fill_makeFolderFor source.ne_nil names spared.sound room.clear) _).trans ?_
  refine (fill_bind_of_ok (readLights_fill (mirrors.fill_readBytes (spared.furnished furnished) found) loaded) _).trans ?_
  exact fill_store furnished.sound (mirrors.names_append names) source.ne_nil there free saved

/-- A map of heights with a square of side one, one without a side, and nothing more. -/
def heightsSample : Bytes := Bytes.zeros 8 ++ [1, 0, 0, 0] ++ Bytes.zeros 3060 ++ [1, 2, 3, 4, 5]

/-- A map of lights that ends before the last pixel of its square. -/
def lightsSample : Bytes := [2, 0, 0, 0, 7, 8, 9]

def mapsSample : Tree :=
  ⟨[(["in"], .folder), (["in", "a.hmp"], .file (.raw heightsSample)), (["in", "b.lmp"], .file (.raw lightsSample)),
    (["out"], .folder)]⟩

def mapsRequest (target : String) : Request := { source := some "in", target := some target }

theorem mapsRequest_mirrors (target : String) (isName : IsName target) :
    (mapsRequest target).Mirrors mapsSample "in" ["in"] [target] where
  sound := ⟨by decide +kernel, by decide +kernel, by decide +kernel⟩
  source := rfl
  way := Tree.locate_name (by decide)
  target := ⟨target, rfl, by rw [show gap "in" = "/" by decide +kernel]; rfl⟩
  ne := List.cons_ne_nil _ _
  names := fun n mem => List.mem_singleton.mp mem ▸ isName

theorem sources_heights : mapsSample.sources (Pattern.oneAccepts ["*.hmp"]) ["in"] = [["a.hmp"]] := by decide +kernel

theorem sources_lights : mapsSample.sources (Pattern.oneAccepts ["*.lmp"]) ["in"] = [["b.lmp"]] := by decide +kernel

theorem heights_load :
    AllLoad (fun b => (Heights.load b []).1 = .ok ()) (Pattern.oneAccepts ["*.hmp"]) ["in"] mapsSample := by
  rw [AllLoad, sources_heights]
  intro rel mem c found
  cases List.mem_singleton.mp mem
  cases found
  decide +kernel

theorem lights_load :
    AllLoad (fun b => (Lights.load b []).1 = .ok ()) (Pattern.oneAccepts ["*.lmp"]) ["in"] mapsSample := by
  rw [AllLoad, sources_lights]
  intro rel mem c found
  cases List.mem_singleton.mp mem
  cases found
  decide +kernel

theorem mapsSample_target {target : String} (mem : target ∈ ["out", "in"]) (name : String)
    (file : name ∈ ["a.hmp", "b.lmp"]) : mapsSample.Aside ["in"] [target] [name] ∧
      mapsSample.get? [target] = some .folder ∧ mapsSample.get? [target, name] ≠ some .folder := by
  have there : ∀ n ∈ ["out", "in"], mapsSample.get? [n] = some .folder ∧
      ∀ name ∈ ["a.hmp", "b.lmp"], mapsSample.get? [n, name] ≠ some .folder := by
    decide +kernel
  refine ⟨?_, (there target mem).1, (there target mem).2 name file⟩
  rcases List.mem_pair.mp mem with rfl | rfl
  · exact Tree.aside_of_apart (by simp)
  · exact .inl rfl

theorem heights_target {target : String} (mem : target ∈ ["out", "in"]) :
    ∀ rel ∈ mapsSample.sources (Pattern.oneAccepts ["*.hmp"]) ["in"], mapsSample.Aside ["in"] [target] rel ∧
      mapsSample.get? ([target] ++ rel.dropLast) = some .folder ∧ mapsSample.get? ([target] ++ rel) ≠ some .folder := by
  rw [sources_heights]
  intro rel only
  cases List.mem_singleton.mp only
  exact mapsSample_target mem _ (by decide)

theorem lights_target {target : String} (isName : IsName target) (mem : target ∈ ["out", "in"]) :
    ∀ rel ∈ mapsSample.sources (Pattern.oneAccepts ["*.lmp"]) ["in"], mapsSample.Aside ["in"] [target] rel ∧
      mapsSample.Room [target] rel := by
  rw [sources_lights]
  intro rel only
  cases List.mem_singleton.mp only
  obtain ⟨aside, home, free⟩ := mapsSample_target mem "b.lmp" (by decide)
  exact ⟨aside, room_of_home (mapsRequest_mirrors target isName).sound home free⟩

end GameData.Batch.Terrain
