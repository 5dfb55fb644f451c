import Mathlib
import GameData.Proofs.Bytes.Words
import GameData.Proofs.Files.Commands
import GameData.Proofs.Files.Moving
import GameData.Proofs.Image.Pixels
import GameData.Proofs.Terrain.HeightMaps
import GameData.Terrain.Export

/-!
Height maps as arrays.

The numbers of an image stand in an array row by row as they do in the image, but the array has as many rows as the image
has columns. The array of a square image has each pixel in its place; that of any other image does not have its shape.
-/
namespace GameData

open Files GameData.Path

namespace Image

def number (i : Image) (x y : Nat) : Single := Single.ofBytes (i.pixel x y)

theorem pixelSize_of_real {i : Image} (real : i.mode = .real) : i.pixelSize = 4 := by
  rw [pixelSize, real]
  rfl

theorem pixel_div_mod {i : Image} (real : i.mode = .real) (k : Nat) :
    i.pixel (k % i.width) (k / i.width) = i.data.slice (4 * k) 4 := by
  rw [pixel, pixelSize_of_real real, Nat.mul_comm (k / i.width), Nat.div_add_mod]

end Image

namespace Files.Content

def shape? : Content → Option (Nat × Nat)
  | .grid rows columns _ => some (rows, columns)
  | _ => none

def cell? : Content → Nat → Nat → Option Single
  | .grid rows columns values, row, column =>
    if row < rows ∧ column < columns then values[row * columns + column]? else none
  | _, _, _ => none

/-- An array with a row for each row of the image and in it a number for each column. -/
def Depicts (c : Content) (i : Image) : Prop :=
  c.shape? = some (i.height, i.width) ∧ ∀ x y, x < i.width → y < i.height → c.cell? y x = some (i.number x y)

end Files.Content

namespace Terrain.DatedMap

def array (i : Image) : Content := .grid i.width i.height (heights i)

section Numbers

variable {i : Image} (real : i.mode = .real) (packed : i.Packed)
include real packed

theorem heights_eq : heights i = (List.range (i.width * i.height)).map fun k => i.number (k % i.width) (k / i.width) := by
  have length : i.data.length = 4 * (i.width * i.height) := by
    rw [packed.size, Image.pixelSize_of_real real, Nat.mul_assoc]
  rw [heights, Bytes.words_eq_map_range (by decide) length, List.map_map]
  refine List.map_congr_left ?_
  intro k _
  rw [Image.number, Image.pixel_div_mod real]
  rfl

theorem cell?_array {a b : Nat} (inRow : b < i.height) (inColumn : a < i.width) :
    (array i).cell? a b =
      some (i.number ((a * i.height + b) % i.width) ((a * i.height + b) / i.width)) := by
  have inside := Image.place_lt inRow inColumn
  rw [array, Content.cell?, if_pos ⟨inColumn, inRow⟩, heights_eq real packed, List.getElem?_map,
    List.getElem?_range (Nat.mul_comm i.width i.height ▸ inside)]
  rfl

theorem depicts_array_iff : (array i).Depicts i ↔ i.width = i.height := by
  constructor
  · rintro ⟨shape, _⟩
    exact (Prod.mk.inj (Option.some.inj shape)).1
  · intro square
    refine ⟨by rw [array, Content.shape?, square], ?_⟩
    intro x y inRow inColumn
    have wide : 0 < i.width := Nat.zero_lt_of_lt inRow
    rw [cell?_array real packed (square ▸ inRow) (square ▸ inColumn), ← square, Nat.mul_comm y,
      Nat.mul_add_mod, Nat.mod_eq_of_lt inRow, Nat.mul_add_div wide, Nat.div_eq_of_lt inRow, Nat.add_zero]

end Numbers

section Levels

def levelSuffix (ending : String) (n : Nat) : String := ".thm" ++ s!".lod{n}" ++ ending

def levelName (name ending : String) (n : Nat) : String := (splitSuffix name).1 ++ levelSuffix ending n

def exportArray (target : Path) (ending : String) (x : Image × Nat) : Shell Unit := do
  let p ← Filling.attempt (target.withSuffix (levelSuffix ending x.2))
  Shell.write p.text (array x.1)

theorem exportArrays_eq (m : DatedMap) (ending : String) (target : Path) :
    m.exportArrays {} ending target = (m.levels.zip (List.range m.levels.length)).forM (exportArray target ending) := rfl

theorem toList_levelSuffix (ending : String) (n : Nat) :
    (levelSuffix ending n).toList = ".thm.lod".toList ++ Nat.toDigits 10 n ++ ending.toList := by
  change (".thm" ++ (".lod" ++ n.repr) ++ ending).toList = _
  simp [Nat.repr]

theorem levelName_inj {name ending : String} {n k : Nat} (same : levelName name ending n = levelName name ending k) :
    n = k := by
  have digits := congrArg String.toList ((String.append_right_inj _).mp same)
  rw [toList_levelSuffix, toList_levelSuffix, List.append_cancel_right_eq, List.append_cancel_left_eq] at digits
  have value (n : Nat) : Nat.ofDigitChars 10 (Nat.toDigits 10 n) 0 = n := Nat.ofDigitChars_toDigits (by decide) (by decide)
  rw [← value n, digits, value]

theorem not_mem_levelSuffix {ending : String} (clean : '/' ∉ ending.toList) (n : Nat) :
    '/' ∉ (levelSuffix ending n).toList := by
  rw [toList_levelSuffix, List.mem_append, List.mem_append]
  rintro ((front | digit) | back)
  · exact absurd front (by decide)
  · exact absurd (Nat.isDigit_of_mem_toDigits (by decide) (by decide) digit) (by decide)
  · exact clean back

theorem isSuffix_levelSuffix {ending : String} (clean : '/' ∉ ending.toList) (n : Nat) :
    IsSuffix (levelSuffix ending n) := by
  refine ⟨not_mem_levelSuffix clean n, .inr ⟨?_, ?_⟩⟩
  · rw [String.startsWith_string_iff, toList_levelSuffix]
    simp
  · intro point
    have chars := congrArg String.toList point
    rw [toList_levelSuffix] at chars
    simp at chars

theorem isName_levelName {name ending : String} (isName : '/' ∉ name.toList) (clean : '/' ∉ ending.toList) (n : Nat) :
    IsName (levelName name ending n) := by
  have long : 8 ≤ (levelName name ending n).toList.length := by
    rw [levelName, String.toList_append, List.length_append, toList_levelSuffix, List.length_append, List.length_append]
    have front : ".thm.lod".toList.length = 8 := by decide
    omega
  have other {s : String} (short : s.toList.length < 8) : levelName name ending n ≠ s := by
    rintro rfl
    omega
  refine ⟨other (by decide), other (by decide), other (by decide), ?_⟩
  rw [levelName, String.toList_append, List.mem_append]
  rintro (before | after)
  · rcases isStem_splitSuffix name with ⟨x, split, _⟩ | ⟨whole, _⟩
    · refine isName ?_
      rw [split]
      simp [before]
    · rw [whole] at before
      exact isName before
  · exact not_mem_levelSuffix clean n after

end Levels

section Export

theorem write_below {p : Path} (normal : p.Normal) {name : String} (isName : IsName name) {s : Session} {P : Place}
    (way : s.tree.locate p.text = .ok P) (home : s.tree.get? P = some .folder)
    (free : s.tree.get? (P ++ [name]) ≠ some .folder) (c : Content) :
    (Shell.write (p.below [name]).text c).fill s = (.ok (), { s with tree := s.tree.put (P ++ [name]) (.file c) }) := by
  have normal' : (p.below [name]).Normal := normal.below (by simpa using isName)
  obtain ⟨front, last, ends, other⟩ := text_last normal' (.inr (by simp))
  refine Shell.write_of_last ends other ?_ free (by rwa [List.dropLast_concat]) c
  rw [locate_below normal s.tree isName, way]
  exact (Tree.step_name isName).mpr ⟨home, rfl⟩

variable {target : Path} (normal : target.Normal) {front : List String} {name ending : String}
  (parts : target.parts = front ++ [name]) (clean : '/' ∉ ending.toList) {P : Place}
include normal parts clean

theorem fill_exportArray {s : Session} (way : s.tree.locate target.parent.text = .ok P)
    (home : s.tree.get? P = some .folder) {x : Image × Nat}
    (free : s.tree.get? (P ++ [levelName name ending x.2]) ≠ some .folder) :
    (exportArray target ending x).fill s =
      (.ok (), { s with tree := s.tree.put (P ++ [levelName name ending x.2]) (.file (array x.1)) }) := by
  have part := normal.parts name (by simp [parts])
  have normal' : target.parent.Normal := by
    refine ⟨normal.root, ?_⟩
    intro s mem
    exact normal.parts s (List.mem_of_mem_dropLast mem)
  have path : target.withSuffix (levelSuffix ending x.2) = .ok (target.parent.below [levelName name ending x.2]) := by
    rw [withSuffix_of_name (isSuffix_levelSuffix clean x.2) parts (ne_of_part part).1, below, parent, parts, List.dropLast_concat]
    rfl
  rw [exportArray, path, Filling.fill_bind_of_ok (Filling.fill_attempt s _)]
  exact write_below normal' (isName_levelName part.2 clean x.2) way home free (array x.1)

/-- All levels are stored, and nothing else changes. -/
theorem fill_exportArrays {xs : List (Image × Nat)} (distinct : (xs.map Prod.snd).Nodup) {s : Session}
    (way : s.tree.locate target.parent.text = .ok P) (home : s.tree.get? P = some .folder)
    (free : ∀ x ∈ xs, s.tree.get? (P ++ [levelName name ending x.2]) ≠ some .folder) :
    ∃ u, (xs.forM (exportArray target ending)).fill s = (.ok (), { s with tree := u }) ∧
      (∀ x ∈ xs, u.get? (P ++ [levelName name ending x.2]) = some (.file (array x.1))) ∧
      ∀ q, (∀ x ∈ xs, q ≠ P ++ [levelName name ending x.2]) → u.get? q = s.tree.get? q := by
  induction xs generalizing s with
  | nil => exact ⟨s.tree, rfl, by simp, by simp⟩
  | cons x xs ih =>
      obtain ⟨here, others⟩ := List.forall_mem_cons.mp free
      obtain ⟨fresh, distinct⟩ := List.nodup_cons.mp distinct
      have apart : ∀ y ∈ xs, P ++ [levelName name ending x.2] ≠ P ++ [levelName name ending y.2] := by
        intro y mem same
        have number := levelName_inj (List.cons.inj (List.append_cancel_left same)).1
        exact fresh (number ▸ List.mem_map_of_mem mem)
      have ne : P ++ [levelName name ending x.2] ≠ [] := by simp
      let t := s.tree.put (P ++ [levelName name ending x.2]) (.file (array x.1))
      have folders : ∀ q, s.tree.get? q = some .folder → t.get? q = some .folder := by
        intro q folder
        rw [Tree.get?_put_of_ne ne, folder]
        rintro rfl
        exact here folder
      have clear : ∀ y ∈ xs, t.get? (P ++ [levelName name ending y.2]) ≠ some .folder := by
        intro y mem
        rw [Tree.get?_put_of_ne ne (apart y mem).symm]
        exact others y mem
      obtain ⟨u, run, stored, kept⟩ :=
        ih distinct (s := { s with tree := t }) (Tree.locate_mono folders way) (folders P home) clear
      refine ⟨u, ?_, List.forall_mem_cons.mpr ⟨?_, stored⟩, ?_⟩
      · exact (Filling.fill_bind_of_ok (fill_exportArray normal parts clean way home here) _).trans run
      · rw [kept _ apart]
        exact Tree.get?_put_self ne
      · intro q other
        obtain ⟨first, later⟩ := List.forall_mem_cons.mp other
        rw [kept q later]
        exact Tree.get?_put_of_ne ne first

end Export

section Loaded

theorem readLevels_mode {width height count level : Nat} {data : Bytes} {levels : List Image}
    (read : readLevels .height width height count level data = .ok levels) : ∀ i ∈ levels, i.mode = .real := by
  induction count generalizing level data levels with
  | zero =>
      cases read
      exact List.forall_mem_nil _
  | succ count ih =>
      rcases readLevels_succ_eq_ok read with rfl | ⟨i, more, made, others, rfl⟩
      · exact List.forall_mem_nil _
      · exact List.forall_mem_cons.mpr ⟨Image.mode_of_ofBytes made, ih others⟩

/-- The images of a height map that was loaded are whole. -/
theorem packed_of_load {data : Bytes} {m : DatedMap} (loaded : load .height data = .ok m) :
    ∀ i ∈ m.levels, i.mode = .real ∧ i.Packed := by
  intro i mem
  obtain ⟨h, _, read, _⟩ := load_eq_ok loaded
  have real := readLevels_mode read i mem
  have length := (readLevels_height read).2.1 i mem
  refine ⟨real, ?_, ?_⟩
  · rw [real, Image.pixelSize_of_real real]
    rfl
  · rw [length, Image.pixelSize_of_real real, Nat.mul_assoc 4, Nat.mul_comm]

end Loaded

/-- Every image of a height map is stored as an array, next to the target, that has the number in row `a` and column `b`
which the image has in place `a * height + b` of all; and nothing else changes. The array depicts the image exactly if the
image is a square. -/
theorem exportArrays_depicts_iff {m : DatedMap} (whole : ∀ i ∈ m.levels, i.mode = .real ∧ i.Packed) {path : String}
    {front : List String} {name ending : String} (parts : (parse path).parts = front ++ [name])
    (clean : '/' ∉ ending.toList) {s : Session} {P : Place} (way : s.tree.locate (parse path).parent.text = .ok P)
    (home : s.tree.get? P = some .folder)
    (free : ∀ n < m.levels.length, s.tree.get? (P ++ [levelName name ending n]) ≠ some .folder) :
    ∃ u, (m.exportArrays {} ending (parse path)).fill s = (.ok (), { s with tree := u }) ∧
      (∀ n i, m.levels[n]? = some i → ∃ c, u.get? (P ++ [levelName name ending n]) = some (.file c) ∧
        c.shape? = some (i.width, i.height) ∧
        (∀ a b, a < i.width → b < i.height →
          c.cell? a b = some (i.number ((a * i.height + b) % i.width) ((a * i.height + b) / i.width))) ∧
        (c.Depicts i ↔ i.width = i.height)) ∧
      ∀ q, (∀ n < m.levels.length, q ≠ P ++ [levelName name ending n]) → u.get? q = s.tree.get? q := by
  have number {x : Image × Nat} (mem : x ∈ m.levels.zip (List.range m.levels.length)) : x.2 < m.levels.length :=
    List.mem_range.mp (List.of_mem_zip mem).2
  have distinct : ((m.levels.zip (List.range m.levels.length)).map Prod.snd).Nodup := by
    rw [List.map_snd_zip (by simp)]
    exact List.nodup_range
  obtain ⟨u, run, stored, kept⟩ := fill_exportArrays (normal_parse path) parts clean distinct way home
    fun x mem => free x.2 (number mem)
  refine ⟨u, ?_, ?_, ?_⟩
  · rw [exportArrays_eq]
    exact run
  · intro n i level
    obtain ⟨real, packed⟩ := whole i (List.mem_of_getElem? level)
    refine ⟨array i, stored (i, n) ?_, rfl, ?_, depicts_array_iff real packed⟩
    · have inside := (List.getElem?_eq_some_iff.mp level).1
      exact List.mem_of_getElem? (List.getElem?_zip_eq_some.mpr ⟨level, List.getElem?_range inside⟩)
    · intro a b inColumn inRow
      exact cell?_array real packed inRow inColumn
  · intro q other
    exact kept q fun x mem => other x.2 (number mem)

theorem parts_out : (parse "out.thm").parts = [] ++ ["out.thm"] := by decide

theorem locate_out : (⟨{}, ""⟩ : Session).tree.locate (parse "out.thm").parent.text = .ok [] := by cbv

theorem exportArrays_depicts_iff_heightSample : ∃ m, load .height heightSample = .ok m ∧ m.levels.length = 2 ∧
    ∃ u, (m.exportArrays {} ".npy" (parse "out.thm")).fill ⟨{}, ""⟩ = (.ok (), ⟨u, ""⟩) ∧
      ∀ n i, m.levels[n]? = some i →
        ∃ c, u.get? [levelName "out.thm" ".npy" n] = some (.file c) ∧ c.Depicts i := by
  have loaded : load .height heightSample =
      .ok ⟨.height, 5, ⟨2003, 2, 13, 10, 30, 0, 0⟩, [7, 8, 9],
        [{ mode := .real, width := 2, height := 2, data := (List.range 16).map UInt8.ofNat },
          { mode := .real, width := 1, height := 1, data := [16, 17, 18, 19] }]⟩ := by
    decide +kernel
  have clean : '/' ∉ ".npy".toList := by decide
  obtain ⟨u, run, stored, _⟩ :=
    exportArrays_depicts_iff (packed_of_load loaded) parts_out clean locate_out rfl (by simp [Tree.get?])
  refine ⟨_, loaded, rfl, u, run, ?_⟩
  intro n i level
  obtain ⟨c, found, _, _, depicts⟩ := stored n i level
  refine ⟨c, found, depicts.mpr ?_⟩
  rcases List.mem_pair.mp (List.mem_of_getElem? level) with rfl | rfl
  · rfl
  · rfl

def wideSample : Bytes := Bytes.ofWords [5, 2003, 2, 13, 10, 30, 0, 0, 7, 8, 9, 2, 1] ++ (List.range 8).map UInt8.ofNat

/-- It becomes an array of two rows and one column. -/
theorem not_depicts_wideSample : ∃ m i u c, load .height wideSample = .ok m ∧ m.levels = [i] ∧
    (i.height, i.width) = (1, 2) ∧
    (m.exportArrays {} ".npy" (parse "out.thm")).fill ⟨{}, ""⟩ = (.ok (), ⟨u, ""⟩) ∧
    u.get? ["out.thm.lod0.npy"] = some (.file c) ∧ c.shape? = some (2, 1) ∧ ¬ c.Depicts i := by
  have loaded : ∃ m i, load .height wideSample = .ok m ∧ m.levels = [i] ∧ i.height = 1 ∧ i.width = 2 :=
    ⟨⟨.height, 5, ⟨2003, 2, 13, 10, 30, 0, 0⟩, [7, 8, 9], _⟩,
      { mode := .real, width := 2, height := 1, data := (List.range 8).map UInt8.ofNat }, by decide +kernel, rfl, rfl, rfl⟩
  obtain ⟨m, i, loaded, levels, height, width⟩ := loaded
  have distinct : ([(i, 0)].map Prod.snd).Nodup := List.nodup_singleton 0
  have clean : '/' ∉ ".npy".toList := by decide
  obtain ⟨u, run, stored, _⟩ :=
    fill_exportArrays (normal_parse "out.thm") parts_out clean distinct locate_out rfl (by simp [Tree.get?])
  have name : levelName "out.thm" ".npy" 0 = "out.thm.lod0.npy" := by decide +kernel
  refine ⟨m, i, u, array i, loaded, levels, by rw [height, width], ?_, ?_, ?_, ?_⟩
  · rw [exportArrays_eq, levels]
    exact run
  · rw [← name]
    exact stored (i, 0) List.mem_cons_self
  · rw [array, Content.shape?, height, width]
  · rintro ⟨shape, _⟩
    rw [array, Content.shape?, height, width] at shape
    cases shape

end Terrain.DatedMap

end GameData
