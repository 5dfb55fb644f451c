import Mathlib
import GameData.Batch.Terrain
import GameData.Proofs.Batch.Mirroring
import GameData.Proofs.Bytes.Blocks
import GameData.Proofs.Image.Pixels
import GameData.Proofs.Terrain.Table

/-!
Masks as images of two colours.

A mask has a bit for each point, the least significant bit of a byte first; an image has the most significant one first
and fills its rows up to whole bytes. With the bits of each byte reversed the two agree for the sides that are multiples
of eight. For all other sides an image needs more bytes than a square has.
-/
namespace GameData

/-- A bit of a string, counted from the least significant bit of each byte. -/
def Bytes.bit (b : Bytes) (k : Nat) : Bool := (b.getD (k / 8) 0).toNat.testBit (k % 8)

theorem testBit_shiftRight (b : UInt8) {k : Nat} (small : k < 8) :
    ((b >>> UInt8.ofNat k) % 2 == 1) = b.toNat.testBit k := by
  have shift : k % 8 = k := Nat.mod_eq_of_lt small
  have wide : k % 256 = k := Nat.mod_eq_of_lt (by omega)
  rw [Bool.eq_iff_iff, beq_iff_eq, ← UInt8.toNat_inj, UInt8.toNat_mod, UInt8.toNat_shiftRight, UInt8.toNat_ofNat',
    Nat.testBit_eq_decide_div_mod_eq, decide_eq_true_iff, ← Nat.shiftRight_eq_div_pow]
  simp [shift, wide]

namespace Image

/-- The pixel in column `x` and row `y` of an image of two colours is white. -/
def white (i : Image) (x y : Nat) : Bool := (bits i.width (i.rows.getD y [])).getD x false

def byteBits (b : UInt8) : List Bool := (List.range 8).map fun i => (b >>> UInt8.ofNat (7 - i)) % 2 == 1

theorem getElem?_byteBits (b : UInt8) {k : Nat} (small : k < 8) :
    (byteBits b)[k]? = some (b.toNat.testBit (7 - k)) := by
  rw [byteBits, List.getElem?_map, List.getElem?_range small, Option.map_some, testBit_shiftRight b (by omega)]

theorem getElem?_flatMap_byteBits {row : Bytes} {x : Nat} (enough : x / 8 < row.length) :
    (row.flatMap byteBits)[x]? = some ((row.getD (x / 8) 0).toNat.testBit (7 - x % 8)) := by
  induction row generalizing x with
  | nil => cases enough
  | cons b row ih =>
      have length : (byteBits b).length = 8 := rfl
      rw [List.flatMap_cons]
      by_cases first : x < 8
      · rw [List.getElem?_append_left (by omega), getElem?_byteBits b first, Nat.div_eq_of_lt first,
          Nat.mod_eq_of_lt first]
        rfl
      · have before : x / 8 = (x - 8) / 8 + 1 := by omega
        have turn : (x - 8) % 8 = x % 8 := by omega
        rw [List.length_cons] at enough
        rw [List.getElem?_append_right (by omega), length, ih (by omega), before, turn]
        rfl

theorem getD_bits {width x : Nat} {row : Bytes} (inside : x < width) (enough : x / 8 < row.length) :
    (bits width row).getD x false = (row.getD (x / 8) 0).toNat.testBit (7 - x % 8) := by
  have bit := getElem?_flatMap_byteBits enough
  have cut : (bits width row)[x]? = (row.flatMap byteBits)[x]? := List.getElem?_take_of_lt inside
  rw [List.getD_eq_getElem?_getD, cut, bit]
  rfl

end Image

namespace Terrain.Masks

theorem testBit_reverseBits (b : UInt8) {j : Nat} (small : j < 8) :
    (reverseBits b).toNat.testBit j = b.toNat.testBit (7 - j) := by
  have all : ∀ n < 256, ∀ j < 8, (reverseBits (UInt8.ofNat n)).toNat.testBit j = n.testBit (7 - j) := by decide +kernel
  have byte := all b.toNat b.toNat_lt j small
  rwa [UInt8.ofNat_toNat] at byte

/-- The bits of a byte are reversed as its binary digits are. -/
theorem reverseBitsOf_toNat (b : UInt8) : reverseBitsOf b.toNat = .ok (reverseBits b).toNat := by
  have all : ∀ n < 256, reverseBitsOf (n : Nat) = .ok (reverseBits (UInt8.ofNat n)).toNat := by decide +kernel
  have byte := all b.toNat b.toNat_lt
  rwa [UInt8.ofNat_toNat] at byte

/-- What a row of an image takes is what a row of a square has, if the side is a multiple of eight. -/
theorem rowSize_of_dvd {s : Nat} (multiple : 8 ∣ s) : PixelMode.bilevel.rowSize s = s / 8 := by
  simp only [PixelMode.rowSize]
  omega

theorem area_of_dvd {s : Nat} (multiple : 8 ∣ s) : area s = s / 8 * s := by
  obtain ⟨k, rfl⟩ := multiple
  rw [area, Nat.mul_assoc, Nat.mul_div_cancel_left _ (by decide), Nat.mul_div_cancel_left _ (by decide)]

theorem area_lt_of_not_dvd {s : Nat} (other : ¬ 8 ∣ s) : area s < Image.dataSize .bilevel s s := by
  have more : (s + 7) / 8 = s / 8 + 1 := by omega
  have pos : 0 < s := by
    rw [Nat.pos_iff_ne_zero]
    rintro rfl
    exact other (Nat.dvd_zero 8)
  have split : s * s = 8 * (s / 8 * s) + s % 8 * s := by
    rw [← Nat.mul_assoc, ← Nat.add_mul, Nat.div_add_mod]
  have rest : s % 8 * s < 8 * s := Nat.mul_lt_mul_of_pos_right (Nat.mod_lt _ (by decide)) pos
  rw [area, Image.dataSize, PixelMode.rowSize, more, Nat.add_mul]
  omega

/-- The image of a square, where there are enough data for one. -/
def picture (s : Nat) (d : Bytes) : Image := { mode := .bilevel, width := s, height := s, data := d.map reverseBits }

variable {s : Nat} {d : Bytes} (length : d.length = area s)
include length

theorem ofBytes_of_dvd (multiple : 8 ∣ s) : Image.ofBytes .bilevel s s (d.map reverseBits) = .ok (picture s d) := by
  have size : Image.dataSize .bilevel s s = area s := by
    rw [Image.dataSize, rowSize_of_dvd multiple, area_of_dvd multiple]
  rw [Image.ofBytes, List.length_map, size, length, if_neg (Nat.lt_irrefl _), List.take_of_length_le]
  · rfl
  · rw [List.length_map, length]

theorem ofBytes_of_not_dvd (other : ¬ 8 ∣ s) :
    Image.ofBytes .bilevel s s (d.map reverseBits) = .error (.value .fewPixels) := by
  rw [Image.ofBytes, List.length_map, length, if_pos (area_lt_of_not_dvd other)]

/-- A pixel is white where the bit for its point is set. -/
theorem white_picture (multiple : 8 ∣ s) {x y : Nat} (inRow : x < s) (inColumn : y < s) :
    (picture s d).white x y = d.bit (y * s + x) := by
  have positive : 0 < s / 8 := by omega
  have size : (d.map reverseBits).length = s / 8 * s := by rw [List.length_map, length, area_of_dvd multiple]
  have rows : (picture s d).rows = Bytes.chunks (s / 8) (d.map reverseBits) := by
    rw [Image.rows, picture, rowSize_of_dvd multiple]
  have row : (picture s d).rows.getD y [] = Bytes.slice (d.map reverseBits) (s / 8 * y) (s / 8) := by
    rw [rows, List.getD_eq_getElem?_getD, Bytes.getElem?_chunks positive size inColumn]
    rfl
  have fits : s / 8 * y + s / 8 ≤ s / 8 * s := Nat.mul_le_mul_left (s / 8) inColumn
  have inside : x / 8 < s / 8 := by omega
  have byte : (y * s + x) / 8 = s / 8 * y + x / 8 := by
    obtain ⟨k, rfl⟩ := multiple
    rw [Nat.mul_div_cancel_left _ (by decide), Nat.mul_left_comm, Nat.mul_add_div (by decide), Nat.mul_comm]
  have place : (y * s + x) % 8 = x % 8 := by
    obtain ⟨k, rfl⟩ := multiple
    rw [Nat.mul_left_comm, Nat.mul_add_mod]
  have width : (Bytes.slice (d.map reverseBits) (s / 8 * y) (s / 8)).length = s / 8 :=
    Bytes.length_slice_of_le (by rw [size]; exact fits)
  rw [Image.white, row, Image.getD_bits (by exact inRow) (by rw [width]; exact inside), Bytes.bit, byte, place,
    Bytes.slice, List.getD_eq_getElem?_getD, List.getElem?_take_of_lt inside, List.getElem?_drop, List.getElem?_map]
  have there : s / 8 * y + x / 8 < d.length := by
    rw [List.length_map] at size
    omega
  rw [List.getElem?_eq_getElem there, Option.map_some, Option.getD_some, testBit_reverseBits _ (by omega),
    List.getD_eq_getElem _ _ there]
  congr 1
  omega

omit length

/-- The file holds all the data that its table calls for. -/
def Whole (data : Bytes) : Prop := start area data tableLength ≤ data.length

def points (data : Bytes) (i : Nat) : Bytes := data.slice (start area data i) (area (side data i))

theorem readSquares_of_words (count : Nat) (words : List Nat) (rest : Bytes) (enough : 3 * count ≤ words.length)
    (small : ∀ i < count, area (sideWord words i) ≤ Bytes.readLimit) :
    ∃ squares left, readSquares area count words rest = (squares, .ok left) := by
  induction count generalizing words rest with
  | zero => exact ⟨[], rest, rfl⟩
  | succ count ih =>
      obtain ⟨a, b, c, words, rfl⟩ : ∃ a b c more, words = a :: b :: c :: more := by
        rcases words with _ | ⟨a, _ | ⟨b, _ | ⟨c, more⟩⟩⟩
        case cons.cons.cons => exact ⟨a, b, c, more, rfl⟩
        all_goals
          simp only [List.length_nil, List.length_cons] at enough
          omega
      have enough' : 3 * count ≤ words.length := by
        simp only [List.length_cons] at enough
        omega
      obtain ⟨squares, left, run⟩ := ih words (rest.drop (area c)) enough' fun i inside =>
        small (i + 1) (Nat.succ_lt_succ inside)
      have read : Bytes.read (area c) rest = .ok (rest.take (area c)) := if_pos (small 0 (Nat.succ_pos _))
      exact ⟨_, left, by rw [readSquares, read, run]⟩

variable {data : Bytes}

theorem Whole.tableSize_le (whole : Whole data) : tableSize ≤ data.length :=
  Nat.le_trans (Nat.le_add_right _ _) whole

theorem offset_mono (sides : Nat → Nat) {i j : Nat} (le : i ≤ j) : offset area sides i ≤ offset area sides j := by
  induction j, le using Nat.le_induction with
  | base => exact Nat.le_refl _
  | succ j _ ih => exact Nat.le_trans ih (Nat.le_add_right _ _)

theorem Whole.length_points (whole : Whole data) {i : Nat} (inside : i < tableLength) :
    (points data i).length = area (side data i) := by
  refine Bytes.length_slice_of_le (Nat.le_trans ?_ whole)
  rw [start, start, Nat.add_assoc]
  exact Nat.add_le_add_left (offset_mono (side data) inside) _

theorem Whole.area_le (whole : Whole data) {i : Nat} (inside : i < tableLength) :
    area (side data i) ≤ Bytes.readLimit := by
  have enough := whole.tableSize_le
  have word : side data i < Nat.pow 256 4 := Bytes.u32_lt (by simp only [tableSize, tableLength] at *; omega)
  calc area (side data i) ≤ Nat.pow 256 4 * Nat.pow 256 4 / 8 :=
        Nat.div_le_div_right (Nat.mul_le_mul (Nat.le_of_lt word) (Nat.le_of_lt word))
    _ ≤ Bytes.readLimit := by decide

/-- Loading a whole file gives its squares, the bits of each byte reversed. -/
theorem Whole.load (whole : Whole data) : ∃ squares, Masks.load data none = (.ok (), some squares) ∧
    squares.length = tableLength ∧ ∀ i < tableLength, ∃ square, squares[i]? = some square ∧
      square.side = side data i ∧ square.data = (points data i).map reverseBits := by
  have enough := whole.tableSize_le
  have full : (data.take tableSize).length = 4 * (3 * tableLength) := List.length_take_of_le enough
  have table : tableWords data = .ok (Bytes.words 4 (data.take tableSize)) := if_pos (by rw [full]; rfl)
  obtain ⟨squares, left, run⟩ := readSquares_of_words tableLength (Bytes.words 4 (data.take tableSize))
    (data.drop tableSize) (by rw [Bytes.length_words (by decide) full]) (by
      intro i inside
      rw [sideWord_eq table enough inside]
      exact whole.area_le inside)
  refine ⟨squares.map fun s => { s with data := s.data.map reverseBits }, ?_, ?_, ?_⟩
  · simp only [Masks.load, table, run]
    rfl
  · rw [List.length_map]
    exact (readSquares_eq_ok run).1
  · intro i inside
    refine ⟨_, by rw [List.getElem?_map, getElem?_readSquares run inside, Option.map_some], ?_, ?_⟩
    · rw [sideWord_eq table enough inside]
    · rw [sideWord_eq table enough inside, offset_sideWord table enough (Nat.le_of_lt inside), points, start,
        Bytes.slice, Bytes.slice, List.drop_drop]

end Terrain.Masks

namespace Batch.Terrain

open Files Filling GameData.Terrain

def squareName (name : String) (n : Nat) : String :=
  String.ofList (name.toList.take (name.length - 4)) ++ ".#" ++ zeroPadded 3 n ++ ".png"

theorem squareName_inj {name : String} {m n : Nat} (same : squareName name m = squareName name n) : m = n := by
  have numbers : zeroPadded 3 m = zeroPadded 3 n := by
    rw [← String.toList_inj] at same ⊢
    simpa [squareName] using same
  exact zeroPadded_inj numbers

theorem isName_squareName {name : String} (isName : IsName name) (n : Nat) : IsName (squareName name n) := by
  have chars : (squareName name n).toList =
      name.toList.take (name.length - 4) ++ '.' :: '#' :: ((zeroPadded 3 n).toList ++ ".png".toList) := by
    simp [squareName]
  have mark : '#' ∈ (squareName name n).toList := by simp [chars]
  refine ⟨?_, ?_, ?_, ?_⟩
  · intro none
    rw [none] at mark
    simp at mark
  · intro dot
    rw [dot] at mark
    simp at mark
  · intro dots
    rw [dots] at mark
    simp at mark
  · rw [chars]
    simp only [List.mem_append, List.mem_cons]
    rintro (front | slash | slash | digits | ending)
    · exact isName.2.2.2 (List.mem_of_mem_take front)
    · cases slash
    · cases slash
    · exact not_mem_zeroPadded 3 n digits
    · simp at ending

theorem not_accepts_squareName (name : String) (n : Nat) : Pattern.oneAccepts ["*.bit"] (squareName name n) = false := by
  have ends : ".png".toList <:+ (squareName name n).toList := by
    rw [squareName, String.toList_append]
    exact List.suffix_append _ _
  refine Pattern.oneAccepts_eq_false [".bit"] rfl ?_ ends ?_
  · simp [Pattern.Plain]
  · decide

theorem isName_square {P : Place} {name : String} (names : ∀ n ∈ P, IsName n) (isName : IsName name) (n : Nat) :
    ∀ m ∈ P ++ [squareName name n], IsName m := by
  intro m mem
  rcases List.mem_append.mp mem with mem | mem
  · exact names m mem
  · cases List.mem_singleton.mp mem
    exact isName_squareName isName n

theorem squareFile_text {src : String} (ne : src ≠ "") {P front : Place} {name : String} (some : P ≠ [])
    (names : ∀ n ∈ P, IsName n) (each : ∀ n ∈ front ++ [name], IsName n) (n : Nat) :
    squareFile (Tree.Place.text P) (pathBelow src (front ++ [name])) n =
      Tree.Place.text (P ++ [squareName name n]) := by
  have isName := each name (by simp)
  have before := Tree.pathBelow_ne ne fun n mem => each n (List.mem_append_left _ mem)
  rw [squareFile, Tree.pathBelow_concat, baseName_join before isName,
    ← Tree.join_text some (isName_square names isName n)]
  rfl

def exportSquare (target source : String) (x : Square × Nat) : Shell Unit :=
  if x.1.side = 0 then pure () else storeSquare (squareFile target source x.2) .bilevel x.1.side x.1.data

def exportMask (r : Request) (p : String) : Shell Unit := do
  let target ← r.moved p
  let squares ← readMasks p
  (numbered squares).forM (exportSquare target p)

theorem exportMasks_eq (r : Request) : exportMasks r = r.forSources ["*.bit"] (exportMask r) := rfl

/-- The images of the first squares are there, and nothing more below the place they are stored at. -/
structure Exported (T : Place) (name : String) (data : Bytes) (n : Nat) (u : Tree) : Prop where
  sound : u.Sound
  clear : ∀ p c, p <+: T → u.get? p ≠ some (.file c)
  images : ∀ i < n, side data i ≠ 0 → u.get? (T ++ [squareName name i]) =
    some (.file (.picture (Masks.picture (side data i) (Masks.points data i))))
  nothing : ∀ q, q ≠ [] → (∀ i < n, side data i ≠ 0 → q ≠ [squareName name i]) → u.get? (T ++ q) = none

namespace Exported

variable {T : Place} {name : String} {data : Bytes} {n : Nat} {u : Tree} (exported : Exported T name data n u)
include exported

theorem skip (none : side data n = 0) : Exported T name data (n + 1) u := by
  refine ⟨exported.sound, exported.clear, ?_, ?_⟩
  · intro i less ne
    rcases Nat.lt_succ_iff_lt_or_eq.mp less with less | rfl
    · exact exported.images i less ne
    · exact absurd none ne
  · intro q some others
    exact exported.nothing q some fun i less => others i (Nat.lt_succ_of_lt less)

theorem furnish (names : ∀ n ∈ T, IsName n) : Exported T name data n (u.addFolders T) := by
  have furnished := exported.sound.addFolders names exported.clear
  refine ⟨furnished.sound, ?_, ?_, ?_⟩
  · intro p c front there
    exact exported.clear p c front (furnished.files p c there)
  · intro i less ne
    exact furnished.kept _ _ (exported.images i less ne)
  · intro q some others
    have positive := List.length_pos_iff.mpr some
    rw [Tree.get?_addFolders_of_lt u (by rw [List.length_append]; omega)]
    exact exported.nothing q some others

theorem store (names : ∀ n ∈ T, IsName n) (isName : IsName name) (home : u.get? T = some .folder)
    (ne : side data n ≠ 0) :
    Exported T name data (n + 1)
      (u.put (T ++ [squareName name n]) (.file (.picture (Masks.picture (side data n) (Masks.points data n))))) := by
  have some : T ++ [squareName name n] ≠ [] := by simp
  have free : u.get? (T ++ [squareName name n]) = none := by
    refine exported.nothing _ (by simp) fun i less _ same => ?_
    exact absurd (squareName_inj (List.cons.inj same).1) (Nat.ne_of_gt less)
  refine ⟨?_, ?_, ?_, ?_⟩
  · refine exported.sound.put some (isName_square names isName n) (by rwa [List.dropLast_concat]) ?_
    intro folder
    rw [free] at folder
    cases folder
  · intro p c front
    rw [Tree.get?_put_of_ne some]
    · exact exported.clear p c front
    · rintro rfl
      have lengths := front.length_le
      simp at lengths
  · intro i less other
    by_cases last : i = n
    · rw [last]
      exact Tree.get?_put_self some
    · rw [Tree.get?_put_of_ne some]
      · exact exported.images i (by omega) other
      · intro same
        exact last (squareName_inj (List.cons.inj (List.append_cancel_left same)).1)
  · intro q more others
    rw [Tree.get?_put_of_ne some]
    · exact exported.nothing q more fun i less => others i (Nat.lt_succ_of_lt less)
    · intro same
      exact others n (Nat.lt_succ_self n) ne (List.append_cancel_left same)

end Exported

theorem fill_writePicture {path : String} {i : Image} (mode : i.mode = .bilevel) (s : Session) :
    (Shell.writePicture path i).fill s = (Shell.write path (.picture i)).fill s := by
  rw [Shell.writePicture, fill_bind_of_ok (Shell.fill_look? path s), mode]

theorem getElem?_numbered {α : Type} {items : List α} {i : Nat} {x : α} (place : items[i]? = some x) :
    (numbered items)[i]? = some (x, i) := by
  have inside : i < items.length := (List.getElem?_eq_some_iff.mp place).1
  rw [numbered, List.getElem?_zip_eq_some]
  exact ⟨place, List.getElem?_range inside⟩

/-- What is known of a file that was loaded and of the place that its images go to. -/
structure Setting (src : String) (T front : Place) (name : String) (data : Bytes) (squares : List Square) : Prop where
  src_ne : src ≠ ""
  ne : T ≠ []
  names : ∀ m ∈ T, IsName m
  each : ∀ m ∈ front ++ [name], IsName m
  whole : Masks.Whole data
  length : squares.length = tableLength
  known : ∀ i < tableLength, ∃ square, squares[i]? = some square ∧ square.side = side data i ∧
    square.data = (Masks.points data i).map Masks.reverseBits

namespace Setting

variable {src : String} {T front : Place} {name : String} {data : Bytes} {squares : List Square} {s : Session} {n : Nat}
  {square : Square} (setting : Setting src T front name data squares)
include setting

theorem isName : IsName name := setting.each name (by simp)

/-- The folder for the image of a square is made, and then it is stored if there are enough data. -/
theorem fill_exportSquare (side_eq : square.side = side data n)
    (data_eq : square.data = (Masks.points data n).map Masks.reverseBits) (exported : Exported T name data n s.tree)
    (ne : side data n ≠ 0) :
    (exportSquare (Tree.Place.text T) (pathBelow src (front ++ [name])) (square, n)).fill s =
      (do
        let i ← attempt (Image.ofBytes .bilevel (side data n) (side data n) ((Masks.points data n).map Masks.reverseBits))
        Shell.writePicture (Tree.Place.text (T ++ [squareName name n])) i : Shell Unit).fill
        { s with tree := s.tree.addFolders T } := by
  have known : square.side ≠ 0 := by
    rw [side_eq]
    simpa using ne
  rw [exportSquare, if_neg known, storeSquare, squareFile_text setting.src_ne setting.ne setting.names setting.each,
    side_eq, data_eq, Int.toNat_natCast]
  exact fill_bind_of_ok (Shell.makeFolderFor_text exported.sound setting.ne
    (isName_square setting.names setting.isName n) exported.clear) _

/-- A square whose side is a multiple of eight is stored as an image. -/
theorem fill_exportSquare_of_dvd (side_eq : square.side = side data n)
    (data_eq : square.data = (Masks.points data n).map Masks.reverseBits) (exported : Exported T name data n s.tree)
    (inside : n < tableLength) (ne : side data n ≠ 0) (multiple : 8 ∣ side data n) :
    ∃ u, (exportSquare (Tree.Place.text T) (pathBelow src (front ++ [name])) (square, n)).fill s =
      (.ok (), { s with tree := u }) ∧ Exported T name data (n + 1) u := by
  have names := isName_square setting.names setting.isName n
  have furnished := exported.furnish setting.names
  have home := Tree.get?_addFolders_self s.tree T
  have free : (s.tree.addFolders T).get? (T ++ [squareName name n]) ≠ some .folder := by
    rw [furnished.nothing _ (by simp) fun i less _ same =>
      absurd (squareName_inj (List.cons.inj same).1) (Nat.ne_of_gt less)]
    simp
  refine ⟨_, ?_, furnished.store setting.names setting.isName home ne⟩
  rw [setting.fill_exportSquare side_eq data_eq exported ne,
    Masks.ofBytes_of_dvd (setting.whole.length_points inside) multiple]
  refine (fill_bind_of_ok (fill_attempt _ _) _).trans ?_
  refine (fill_writePicture rfl _).trans ?_
  exact Shell.write_text furnished.sound names (by rwa [List.dropLast_concat]) free _

/-- Nothing is stored for a square with another side; only the folder for its image is made. -/
theorem fill_exportSquare_of_not_dvd (side_eq : square.side = side data n)
    (data_eq : square.data = (Masks.points data n).map Masks.reverseBits) (exported : Exported T name data n s.tree)
    (inside : n < tableLength) (other : ¬ 8 ∣ side data n) :
    ∃ u, (exportSquare (Tree.Place.text T) (pathBelow src (front ++ [name])) (square, n)).fill s =
      (.error (.value .fewPixels), { s with tree := u }) ∧ Exported T name data n u := by
  have ne : side data n ≠ 0 := by
    intro none
    exact other (none ▸ Nat.dvd_zero 8)
  refine ⟨_, ?_, exported.furnish setting.names⟩
  rw [setting.fill_exportSquare side_eq data_eq exported ne,
    Masks.ofBytes_of_not_dvd (setting.whole.length_points inside) other]
  exact fill_bind_of_error (fill_attempt _ _) _

/-- The squares before the first whose side is no multiple of eight are stored. -/
theorem fill_take (inside : n ≤ tableLength) (good : ∀ i < n, side data i ≠ 0 → 8 ∣ side data i)
    (start : Exported T name data 0 s.tree) :
    ∃ u, (((numbered squares).take n).forM
        (exportSquare (Tree.Place.text T) (pathBelow src (front ++ [name])))).fill s = (.ok (), { s with tree := u }) ∧
      Exported T name data n u := by
  induction n with
  | zero => exact ⟨s.tree, rfl, start⟩
  | succ n ih =>
      obtain ⟨u, run, exported⟩ := ih (Nat.le_of_succ_le inside) fun i less => good i (Nat.lt_succ_of_lt less)
      obtain ⟨square, place, side_eq, data_eq⟩ := setting.known n inside
      have step : ∃ v, (exportSquare (Tree.Place.text T) (pathBelow src (front ++ [name])) (square, n)).fill
          { s with tree := u } = (.ok (), { s with tree := v }) ∧ Exported T name data (n + 1) v := by
        by_cases none : side data n = 0
        · refine ⟨u, ?_, exported.skip none⟩
          rw [exportSquare, if_pos (by rw [side_eq, none]; rfl)]
          rfl
        · exact setting.fill_exportSquare_of_dvd side_eq data_eq exported inside none (good n (Nat.lt_succ_self n) none)
      obtain ⟨v, last, exported⟩ := step
      refine ⟨v, ?_, exported⟩
      rw [List.take_add_one, getElem?_numbered place, Option.toList_some]
      refine (congrArg (Filling.fill · s) List.forM_append).trans ?_
      refine (fill_bind_of_ok run _).trans ?_
      exact (fill_bind_of_ok last _).trans rfl

/-- All squares are stored if each side is a multiple of eight. -/
theorem fill_all (good : ∀ i < tableLength, side data i ≠ 0 → 8 ∣ side data i)
    (start : Exported T name data 0 s.tree) :
    ∃ u, ((numbered squares).forM (exportSquare (Tree.Place.text T) (pathBelow src (front ++ [name])))).fill s =
      (.ok (), { s with tree := u }) ∧ Exported T name data tableLength u := by
  obtain ⟨u, run, exported⟩ := setting.fill_take (Nat.le_refl _) good start
  have length : (numbered squares).length ≤ tableLength := by
    rw [numbered, List.length_zip, List.length_range, setting.length]
    exact Nat.le_of_eq (Nat.min_self _)
  rw [List.take_of_length_le length] at run
  exact ⟨u, run, exported⟩

/-- The first side that is no multiple of eight ends the export. -/
theorem fill_until (inside : n < tableLength) (other : ¬ 8 ∣ side data n)
    (good : ∀ i < n, side data i ≠ 0 → 8 ∣ side data i) (start : Exported T name data 0 s.tree) :
    ∃ u, ((numbered squares).forM (exportSquare (Tree.Place.text T) (pathBelow src (front ++ [name])))).fill s =
      (.error (.value .fewPixels), { s with tree := u }) ∧ Exported T name data n u := by
  obtain ⟨u, run, exported⟩ := setting.fill_take (Nat.le_of_lt inside) good start
  obtain ⟨square, place, side_eq, data_eq⟩ := setting.known n inside
  obtain ⟨v, last, exported⟩ :=
    setting.fill_exportSquare_of_not_dvd side_eq data_eq (s := { s with tree := u }) exported inside other
  refine ⟨v, ?_, exported⟩
  obtain ⟨rest, split⟩ : ∃ rest, numbered squares = (numbered squares).take n ++ (square, n) :: rest := by
    obtain ⟨less, item⟩ := List.getElem?_eq_some_iff.mp (getElem?_numbered place)
    refine ⟨(numbered squares).drop (n + 1), ?_⟩
    rw [← item, List.cons_getElem_drop_succ, List.take_append_drop]
  rw [split]
  refine (congrArg (Filling.fill · s) List.forM_append).trans ?_
  refine (fill_bind_of_ok run _).trans ?_
  exact fill_bind_of_error last _

end Setting

section Job

variable {r : Request} {t : Tree} {src : String} {S D : Place}

theorem exportSquare_keeps {target source : String} {x : Square × Nat} {P : Place} {name : String}
    (path : squareFile target source x.2 = Tree.Place.text (P ++ [squareName name x.2]))
    (names : ∀ m ∈ P ++ [squareName name x.2], IsName m) :
    Keeps (fun s => Tree.Steady (Pattern.oneAccepts ["*.bit"]) S t s.tree) (exportSquare target source x) := by
  unfold exportSquare
  split
  · exact .pure ()
  · refine (Shell.makeFolders_steady _ S t _).bind fun _ => ?_
    cases made : Image.ofBytes .bilevel x.1.side.toNat x.1.side.toNat x.1.data with
    | error f =>
        intro s steady
        rw [fill_bind_of_error (fill_attempt s _)]
        exact steady
    | ok i =>
        intro s steady
        rw [fill_bind_of_ok (fill_attempt s _), fill_writePicture (Image.mode_of_ofBytes made), path]
        refine Shell.write_keeps _ S t ?_ (.picture i) s steady
        intro u p last way ends
        rw [Shell.spot_text (by simp) names] at way
        rw [(Tree.eq_of_locate_text (by simp) names way).1, List.getLast?_concat] at ends
        cases ends
        exact not_accepts_squareName name x.2

theorem readMasks_keeps (P : Session → Prop) (path : String) : Keeps P (readMasks path) :=
  (Shell.readBytes_keeps P path).bind fun _ => (Keeps.attempt _).bind fun _ => .pure _

theorem exportMasks_spares (mirrors : r.Mirrors t src S D) :
    Shell.Spares (Pattern.oneAccepts ["*.bit"]) S src t (fun _ : Unit => exportMask r) fun _ s =>
      Tree.Steady (Pattern.oneAccepts ["*.bit"]) S t s.tree := by
  refine .of_steady mirrors.sound (fun out => .refl _ S mirrors.sound) (fun _ => id) ?_
  intro b rel s b' s' source steady run
  have names := mirrors.sound.isName_of_isSource source
  have all := mirrors.names_append names
  obtain ⟨front, name, rfl⟩ : ∃ front name, rel = front ++ [name] :=
    ⟨_, _, (List.dropLast_append_getLast source.ne_nil).symm⟩
  have kept : Tree.Steady (Pattern.oneAccepts ["*.bit"]) S t
      ((exportMask r (pathBelow src (front ++ [name]))).fill s).2.tree := by
    rw [exportMask, fill_bind_of_ok (mirrors.fill_moved source.ne_nil names s)]
    refine Keeps.bind (P := fun s => Tree.Steady (Pattern.oneAccepts ["*.bit"]) S t s.tree) (readMasks_keeps _ _)
      (fun squares => Keeps.forM fun x _ => ?_) s steady
    exact exportSquare_keeps (squareFile_text mirrors.src_ne (by simp) all names x.2)
      (isName_square all (names name (by simp)) x.2)
  rw [run] at kept
  exact kept

theorem readMasks_fill {s : Session} {path : String} {data : Bytes} {squares : List Square}
    (read : (Shell.readBytes path).fill s = (.ok data, s)) (loads : Masks.load data none = (.ok (), some squares)) :
    (readMasks path).fill s = (.ok squares, s) := by
  rw [readMasks, fill_bind_of_ok read, loads]
  rfl

/-- The squares before square `n` are there as images, bit for bit, and no others. -/
structure Pictured (T : Place) (name : String) (data : Bytes) (n : Nat) (u : Tree) : Prop where
  images : ∀ i < n, side data i ≠ 0 → ∃ image, u.get? (T ++ [squareName name i]) = some (.file (.picture image)) ∧
    image.mode = .bilevel ∧ image.width = side data i ∧ image.height = side data i ∧
    ∀ x < side data i, ∀ y < side data i, image.white x y = (Masks.points data i).bit (y * side data i + x)
  others : ∀ i, n ≤ i → u.get? (T ++ [squareName name i]) = none

theorem Exported.pictured {T : Place} {name : String} {data : Bytes} {n : Nat} {u : Tree}
    (exported : Exported T name data n u) (whole : Masks.Whole data) (inside : n ≤ tableLength)
    (good : ∀ i < n, side data i ≠ 0 → 8 ∣ side data i) : Pictured T name data n u := by
  constructor
  · intro i less ne
    refine ⟨_, exported.images i less ne, rfl, rfl, rfl, ?_⟩
    intro x inRow y inColumn
    exact Masks.white_picture (whole.length_points (Nat.lt_of_lt_of_le less inside)) (good i less ne) inRow inColumn
  · intro i more
    refine exported.nothing _ (by simp) fun j less _ same => ?_
    have equal := squareName_inj (List.cons.inj same).1
    omega

/-- Exporting the one mask of a folder, where nothing stands at the place its images go to, stores the squares up to the
first whose side is no multiple of eight, and fails there if there is one. -/
theorem exportMasks_bit_for_bit (mirrors : r.Mirrors t src S D) (front : Place) (name : String) {c : Content}
    (only : t.sources (Pattern.oneAccepts ["*.bit"]) S = [front ++ [name]])
    (found : t.get? (S ++ (front ++ [name])) = some (.file c)) (whole : Masks.Whole c.bytes)
    (clear : ∀ p d, p <+: D ++ (front ++ [name]) → t.get? p ≠ some (.file d))
    (empty : ∀ q, q ≠ [] → t.get? (D ++ (front ++ [name]) ++ q) = none) (out : String) :
    ∃ outcome after, (exportMasks r).fill ⟨t, out⟩ = (outcome, ⟨after, out⟩) ∧
      (outcome = .ok () ↔ ∀ i < tableLength, side c.bytes i ≠ 0 → 8 ∣ side c.bytes i) ∧
      (outcome = .ok () → Pictured (D ++ (front ++ [name])) name c.bytes tableLength after) ∧
      ∀ n < tableLength, ¬ 8 ∣ side c.bytes n → (∀ i < n, side c.bytes i ≠ 0 → 8 ∣ side c.bytes i) →
        outcome = .error (.value .fewPixels) ∧ Pictured (D ++ (front ++ [name])) name c.bytes n after := by
  have source : t.IsSource (Pattern.oneAccepts ["*.bit"]) S (front ++ [name]) :=
    mirrors.sound.mem_sources_iff.mp (by rw [only]; exact List.mem_singleton_self _)
  have names := mirrors.sound.isName_of_isSource source
  obtain ⟨squares, loads, length, known⟩ := whole.load
  have setting : Setting src (D ++ (front ++ [name])) front name c.bytes squares :=
    ⟨mirrors.src_ne, by simp, mirrors.names_append names, names, whole, length, known⟩
  have start : Exported (D ++ (front ++ [name])) name c.bytes 0 t :=
    ⟨mirrors.sound, clear, fun _ less => absurd less (Nat.not_lt_zero _), fun q ne _ => empty q ne⟩
  have job : (exportMasks r).fill ⟨t, out⟩ = ((numbered squares).forM
      (exportSquare (Tree.Place.text (D ++ (front ++ [name]))) (pathBelow src (front ++ [name])))).fill ⟨t, out⟩ := by
    obtain ⟨last, d, ends, agrees, there⟩ := source
    have read := mirrors.fill_readBytes (s := ⟨t, out⟩) ((Tree.Steady.refl _ S mirrors.sound).spared ends agrees) found
    rw [exportMasks_eq, mirrors.fill_forSources (exportMasks_spares mirrors), only, List.foldlM_cons]
    refine (congrArg (Filling.fill · _) (bind_pure _)).trans ?_
    rw [exportMask, fill_bind_of_ok (mirrors.fill_moved (by simp) names _), fill_bind_of_ok (readMasks_fill read loads)]
  by_cases good : ∀ i < tableLength, side c.bytes i ≠ 0 → 8 ∣ side c.bytes i
  · obtain ⟨u, run, exported⟩ := setting.fill_all good (s := ⟨t, out⟩) start
    refine ⟨.ok (), u, job.trans run, iff_of_true rfl good, fun _ => exported.pictured whole (Nat.le_refl _) good, ?_⟩
    intro n inside other _
    have none : side c.bytes n = 0 := by
      by_contra ne
      exact other (good n inside ne)
    exact absurd (none ▸ Nat.dvd_zero 8) other
  · push Not at good
    -- The first square that cannot be stored.
    have bad : ∃ n, n < tableLength ∧ ¬ 8 ∣ side c.bytes n := by
      obtain ⟨n, inside, _, other⟩ := good
      exact ⟨n, inside, other⟩
    obtain ⟨n, ⟨inside, other⟩, least⟩ : ∃ n, (n < tableLength ∧ ¬ 8 ∣ side c.bytes n) ∧
        ∀ i < n, ¬ (i < tableLength ∧ ¬ 8 ∣ side c.bytes i) := ⟨Nat.find bad, Nat.find_spec bad, fun _ => Nat.find_min bad⟩
    have before : ∀ i < n, side c.bytes i ≠ 0 → 8 ∣ side c.bytes i := by
      intro i less _
      by_contra none
      exact least i less ⟨Nat.lt_trans less inside, none⟩
    obtain ⟨u, run, exported⟩ := setting.fill_until inside other before (s := ⟨t, out⟩) start
    refine ⟨_, u, job.trans run, iff_of_false (by simp) ?_, by simp, ?_⟩
    · intro all
      exact other (all n inside fun none => other (none ▸ Nat.dvd_zero 8))
    · intro k small bad good
      have same : k = n := by
        rcases Nat.lt_trichotomy k n with less | same | more
        · exact absurd ⟨small, bad⟩ (least k less)
        · exact same
        · exact absurd (good n more fun none => other (none ▸ Nat.dvd_zero 8)) other
      subst same
      exact ⟨rfl, exported.pictured whole (Nat.le_of_lt inside) before⟩

/-- A mask with a square of side eight and one of side twelve. -/
def maskSample : Bytes :=
  Bytes.zeros 8 ++ [8, 0, 0, 0] ++ Bytes.zeros 8 ++ [12, 0, 0, 0] ++
    (Bytes.zeros 3048 ++ ([1, 2, 4, 8, 16, 32, 64, 128] ++ Bytes.zeros 18))

theorem whole_maskSample : Masks.Whole maskSample := by
  have later : ∀ i, 2 ≤ i → i < tableLength → Masks.area (side maskSample i) = 0 := by
    intro i low high
    have none : side maskSample i = 0 := side_eq_zero (by simp [Bytes.zeros]; omega) (by
      simp only [tableLength] at high
      simp [Bytes.zeros]
      omega)
    rw [none]
    rfl
  rw [Masks.Whole, start, offset_of_zero (by decide) later]
  decide +kernel

def masksSample : Tree := ⟨[(["in"], .folder), (["in", "a.bit"], .file (.raw maskSample))]⟩

def masksRequest : Request := { source := some "in", target := some "out" }

theorem masksRequest_mirrors : masksRequest.Mirrors masksSample "in" ["in"] ["out"] where
  sound := ⟨by decide +kernel, by decide +kernel, by decide +kernel⟩
  source := rfl
  way := Tree.locate_name (by decide)
  target := ⟨"out", rfl, by decide +kernel⟩
  ne := by decide
  names := by decide

theorem exportMasks_bit_for_bit_masksSample :
    masksRequest.Mirrors masksSample "in" ["in"] ["out"] ∧
    masksSample.sources (Pattern.oneAccepts ["*.bit"]) ["in"] = [["a.bit"]] ∧ Masks.Whole maskSample ∧
    ∃ outcome after, (exportMasks masksRequest).fill ⟨masksSample, ""⟩ = (outcome, ⟨after, ""⟩) ∧
      (outcome = .ok () ↔ ∀ i < tableLength, side maskSample i ≠ 0 → 8 ∣ side maskSample i) ∧
      (outcome = .ok () → Pictured ["out", "a.bit"] "a.bit" maskSample tableLength after) ∧
      ∀ n < tableLength, ¬ 8 ∣ side maskSample n → (∀ i < n, side maskSample i ≠ 0 → 8 ∣ side maskSample i) →
        outcome = .error (.value .fewPixels) ∧ Pictured ["out", "a.bit"] "a.bit" maskSample n after := by
  have only : masksSample.sources (Pattern.oneAccepts ["*.bit"]) ["in"] = [["a.bit"]] := by decide +kernel
  refine ⟨masksRequest_mirrors, only, whole_maskSample, ?_⟩
  refine exportMasks_bit_for_bit masksRequest_mirrors [] "a.bit" (c := .raw maskSample) only ?_ whole_maskSample ?_ ?_ ""
  · decide +kernel
  · intro p d front there
    have place := (List.mem_inits p _).mpr front
    simp only [List.nil_append, List.singleton_append, List.inits, List.map_cons, List.map_nil, List.mem_cons,
      List.not_mem_nil, or_false] at place
    rcases place with rfl | rfl | rfl
    all_goals cases there
  · intro q _
    rfl

end Job

end Batch.Terrain

end GameData
