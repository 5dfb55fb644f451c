import Mathlib
import GameData.Proofs.Image.Pixels
import GameData.Proofs.Terrain.MapFile

/-!
Light maps read back from what was written.

The images come back with width and height exchanged, which is the same map when the first of them is square.
-/
namespace GameData

/-- The image with the same bytes and its sides exchanged. -/
def Image.turned (i : Image) : Image := { i with width := i.height, height := i.width }

theorem Image.turned_eq_self_iff {i : Image} : i.turned = i ↔ i.width = i.height := by
  constructor
  · intro same
    exact congrArg Image.height same
  · intro square
    obtain ⟨mode, width, height, data, palette⟩ := i
    cases square
    rfl

namespace Terrain.DatedMap

theorem complain_eq_nil_iff {c : Prop} [Decidable c] {x : Issue} {rest : List Issue} :
    (if c then [x] else rest) = [] ↔ ¬c ∧ rest = [] := by
  split <;> simp [*]

theorem levelIssues_eq_nil_iff {i : Image} {n : Nat} : levelIssues i n = [] ↔ i.mode = .colourAlpha ∧ i.Binary := by
  simp only [levelIssues, complain_eq_nil_iff, Image.Binary]
  constructor
  · rintro ⟨mode, _, width, _, height, _⟩
    exact ⟨not_not.mp mode, by simpa using width, by simpa using height⟩
  · rintro ⟨mode, width, height⟩
    have wide := pos_of_isPowerOfTwo width
    have high := pos_of_isPowerOfTwo height
    simp [mode, width, height, wide.ne', high.ne']

theorem eachIssues_eq_nil_iff {levels : List Image} :
    eachIssues levels = [] ↔ ∀ i ∈ levels, i.mode = .colourAlpha ∧ i.Binary := by
  simp only [eachIssues, List.flatMap_eq_nil_iff, levelIssues_eq_nil_iff]
  conv_rhs => rw [← List.zipIdx_map_fst 0 levels]
  exact (List.forall_mem_map (P := fun i : Image => i.mode = .colourAlpha ∧ i.Binary)).symm

theorem halvingIssues_cons_eq_nil_iff {i j : Image} {rest : List Image} :
    halvingIssues (i :: j :: rest) = [] ↔
      j.width = i.width / 2 ∧ j.height = i.height / 2 ∧ halvingIssues (j :: rest) = [] := by
  simp only [halvingIssues, complain_eq_nil_iff, not_not]

/-- The images of a light map pass when there are at most ten, all of them in colours and with powers of two as sides,
and each half as wide and high as the one before. -/
theorem issues_light_eq_nil_iff {levels : List Image} :
    issues .light levels = [] ↔
      levels.length ≤ 10 ∧ (∀ i ∈ levels, i.mode = .colourAlpha ∧ i.Binary) ∧ halvingIssues levels = [] := by
  have count : countIssues levels = [] ↔ levels.length ≤ 10 := by
    rw [countIssues, complain_eq_nil_iff, Nat.not_lt, and_iff_left rfl]
  rw [← count, ← eachIssues_eq_nil_iff]
  unfold issues
  cases countIssues levels with
  | cons issue more => simp
  | nil =>
      cases eachIssues levels with
      | cons issue more => simp
      | nil => simp

theorem div_pow_succ (n level : Nat) : n / Nat.pow 2 (level + 1) = n / Nat.pow 2 level / 2 :=
  (Nat.div_div_eq_div_mul n (Nat.pow 2 level) 2).symm

namespace Halved

variable {width height level : Nat} {levels : List Image}

/-- Images of which each has half the sides of the one before are halved from the first one on. -/
theorem of_halvingIssues {i : Image} (none : halvingIssues (i :: levels) = [])
    (wide : i.width = width / Nat.pow 2 level) (high : i.height = height / Nat.pow 2 level) :
    Halved width height level (i :: levels) := by
  induction levels generalizing i level with
  | nil => exact .cons wide high (.nil _)
  | cons j levels ih =>
      obtain ⟨halfWide, halfHigh, rest⟩ := halvingIssues_cons_eq_nil_iff.mp none
      refine .cons wide high (ih rest ?_ ?_)
      · rw [halfWide, wide, div_pow_succ]
      · rw [halfHigh, high, div_pow_succ]

variable (halved : Halved width height level levels)
include halved

theorem halvingIssues_eq_nil : halvingIssues levels = [] := by
  induction halved with
  | nil => rfl
  | cons wide high others ih =>
      cases others with
      | nil => rfl
      | cons nextWide nextHigh _ =>
          refine halvingIssues_cons_eq_nil_iff.mpr ⟨?_, ?_, ih⟩
          · rw [nextWide, wide, div_pow_succ]
          · rw [nextHigh, high, div_pow_succ]

theorem turned : Halved height width level (levels.map Image.turned) := by
  induction halved with
  | nil level => exact .nil level
  | cons wide high _ ih => exact .cons high wide ih

theorem map_turned (square : width = height) : levels.map Image.turned = levels := by
  induction halved with
  | nil => rfl
  | cons wide high _ ih =>
      subst square
      have same := wide.trans high.symm
      rw [List.map_cons, ih, Image.turned_eq_self_iff.mpr same]

end Halved

/-- A light map that can be held: its images pass, the date is one, and the other words have 32 bits. -/
structure Light (m : DatedMap) : Prop where
  kind : m.kind = .light
  first : m.unknown0 < Nat.pow 256 4
  date : m.createdAt.check = .ok m.createdAt
  unknowns : m.unknowns.length = 1 ∧ ∀ n ∈ m.unknowns, n < Nat.pow 256 4
  sound : ∀ i ∈ m.levels, i.WellFormed
  levels : issues .light m.levels = []

theorem image_light {i : Image} (coloured : i.Coloured) :
    MapKind.light.image i.width i.height (Image.swapRedBlue i.data) = .ok i.turned := by
  have mode := coloured.mode
  have palette := coloured.palette (by rw [mode]; decide)
  simp only [MapKind.image, Image.length_swapRedBlue, coloured.length_data, if_true, Image.swapRedBlue_swapRedBlue,
    Image.turned, mode, palette]

/-- The stored images of a light map are read back with their sides exchanged. -/
theorem readLevels_light {width height count level : Nat} {levels : List Image}
    (halved : Halved width height level levels) (few : levels.length ≤ count)
    (small : width * height * 4 ≤ Bytes.readLimit) (sound : ∀ i ∈ levels, i.Coloured ∧ i.Binary) :
    readLevels .light width height count level (levels.map fun i => Image.swapRedBlue i.data).flatten =
      .ok (levels.map Image.turned) := by
  have readable (level : Nat) : width / Nat.pow 2 level * (height / Nat.pow 2 level) * 4 ≤ Bytes.readLimit := by
    refine (Nat.mul_le_mul_right 4 ?_).trans small
    exact Nat.mul_le_mul (Nat.div_le_self _ _) (Nat.div_le_self _ _)
  induction halved generalizing count with
  | nil level =>
      cases count with
      | zero => rfl
      | succ count => exact readLevels_nil (readable level)
  | @cons level i levels wide high _ ih =>
      obtain ⟨⟨coloured, binary⟩, others⟩ := List.forall_mem_cons.mp sound
      obtain ⟨count, rfl⟩ := Nat.exists_eq_add_of_le' (Nat.le_of_add_left_le few)
      have length := coloured.length_data
      have positive : 0 < i.data.length := by
        rw [length]
        exact Nat.mul_pos (Nat.mul_pos binary.wide binary.high) (by decide)
      refine readLevels_append wide high ?_ ?_ ?_ (image_light coloured) (ih (Nat.le_of_succ_le_succ few) others)
      · rw [Image.length_swapRedBlue, length]
        rfl
      · rw [wide, high]
        exact readable level
      · rw [← List.length_pos_iff, Image.length_swapRedBlue]
        exact positive

namespace Light

variable {m : DatedMap} (light : m.Light)
include light

theorem coloured : ∀ i ∈ m.levels, i.Coloured ∧ i.Binary := by
  intro i mem
  obtain ⟨mode, binary⟩ := (issues_light_eq_nil_iff.mp light.levels).2.1 i mem
  exact ⟨⟨light.sound i mem, mode⟩, binary⟩

/-- The header tells the sides that the images are halved from. -/
theorem halved : ∃ width height, m.sides = [width, height] ∧ Halved width height 0 m.levels ∧
    width * height * 4 ≤ Bytes.readLimit ∧ ∀ n ∈ m.sides, n < Nat.pow 256 4 := by
  have coloured := light.coloured
  have halving := (issues_light_eq_nil_iff.mp light.levels).2.2
  unfold sides
  cases found : m.levels with
  | nil => exact ⟨0, 0, rfl, .nil 0, by decide, by decide⟩
  | cons i levels =>
      rw [found] at coloured halving
      obtain ⟨⟨sound, _⟩, binary⟩ := coloured i List.mem_cons_self
      have wide := sound.width
      have high := sound.height
      refine ⟨i.width, i.height, rfl, ?_, binary.area_le sound, ?_⟩
      · exact .of_halvingIssues halving (Nat.div_one i.width).symm (Nat.div_one i.height).symm
      · simp only [List.mem_cons, List.not_mem_nil, or_false, forall_eq_or_imp, forall_eq]
        exact ⟨wide.trans (by decide), high.trans (by decide)⟩

theorem issues_turned : issues .light (m.levels.map Image.turned) = [] := by
  obtain ⟨few, each, _⟩ := issues_light_eq_nil_iff.mp light.levels
  obtain ⟨_, _, _, halved, _⟩ := light.halved
  refine issues_light_eq_nil_iff.mpr ⟨by rwa [List.length_map], ?_, halved.turned.halvingIssues_eq_nil⟩
  refine List.forall_mem_map.mpr fun i mem => ?_
  obtain ⟨mode, width, height⟩ := each i mem
  exact ⟨mode, height, width⟩

theorem head_lt : ∀ n ∈ m.head m.unknown0, n < Nat.pow 256 4 := by
  obtain ⟨_, _, _, _, _, sides⟩ := light.halved
  have date := (Timestamp.check_eq_ok light.date).2
  refine List.forall_mem_cons.mpr ⟨light.first, ?_⟩
  refine List.forall_mem_append.mpr ⟨List.forall_mem_append.mpr ⟨?_, light.unknowns.2⟩, sides⟩
  exact fun n mem => (date n mem).trans (by decide)

theorem length_head : (m.head m.unknown0).length = MapKind.light.headerLength := by
  obtain ⟨width, height, sides, _⟩ := light.halved
  simp only [head, sides, List.length_cons, List.length_append, light.unknowns.1]
  rfl

theorem decode_head {width height : Nat} (sides : m.sides = [width, height]) (rest : Bytes) :
    MapHeader.decode .light (Bytes.ofWords (m.head m.unknown0) ++ rest) =
      .ok ⟨m.unknown0, m.createdAt.year, m.createdAt.month, m.createdAt.day, m.createdAt.hour, m.createdAt.minute,
        m.createdAt.second, m.createdAt.microsecond, m.unknowns, width, height⟩ := by
  obtain ⟨u, unknown⟩ := List.length_eq_one_iff.mp light.unknowns.1
  rw [MapHeader.decode_ofWords light.length_head light.head_lt, head, sides, unknown]
  rfl

/-- A light map is read back from what was written with the sides of its images exchanged. -/
theorem load_save : ∃ b, m.save = .ok b ∧ load .light b = .ok { m with levels := m.levels.map Image.turned } := by
  obtain ⟨width, height, sides, halved, small, _⟩ := light.halved
  have few := (issues_light_eq_nil_iff.mp light.levels).1
  have saved : m.save = .ok (Bytes.ofWords (m.head m.unknown0) ++
      (m.levels.map fun i => Image.swapRedBlue i.data).flatten) := by
    rw [save, light.kind]
    exact encode_eq_ok light.head_lt _
  have size : (Bytes.ofWords (m.head m.unknown0)).length = 4 * MapKind.light.headerLength := by
    rw [Bytes.length_ofWords, light.length_head]
  refine ⟨_, saved, ?_⟩
  rw [load, light.decode_head sides, ok_bind, List.drop_left' size, readLevels_light halved few small light.coloured,
    ok_bind]
  simp only [light.date, ok_bind, light.issues_turned, light.kind]

theorem map_turned_eq_iff :
    m.levels.map Image.turned = m.levels ↔ m.levels = [] ∨ ∃ i, m.levels.head? = some i ∧ i.width = i.height := by
  obtain ⟨width, height, sides, halved, _⟩ := light.halved
  unfold DatedMap.sides at sides
  cases found : m.levels with
  | nil => exact ⟨fun _ => .inl rfl, fun _ => rfl⟩
  | cons i levels =>
      rw [found] at sides halved
      cases sides
      constructor
      · intro same
        exact .inr ⟨i, rfl, Image.turned_eq_self_iff.mp (List.cons.inj same).1⟩
      · rintro (none | ⟨j, first, square⟩)
        · cases none
        · cases first
          exact halved.map_turned square

end Light

/-- A light map can be written and read back, and is the same map then if and only if it has no image or the first one
is square. -/
theorem light_map_kept_iff_square {m : DatedMap} (light : m.Light) :
    ∃ b m', m.save = .ok b ∧ load .light b = .ok m' ∧
      (m' = m ↔ m.levels = [] ∨ ∃ i, m.levels.head? = some i ∧ i.width = i.height) := by
  obtain ⟨b, saved, loaded⟩ := light.load_save
  refine ⟨b, _, saved, loaded, ?_⟩
  rw [← light.map_turned_eq_iff]
  constructor
  · exact congrArg DatedMap.levels
  · intro same
    rw [same]

def lightSample (width height : Nat) : DatedMap where
  kind := .light
  unknown0 := 0xffffffff
  createdAt := ⟨2003, 2, 13, 10, 30, 0, 0⟩
  unknowns := [7]
  levels :=
    [(width, height), (width / 2, height / 2)].map fun (w, h) =>
      { mode := .colourAlpha, width := w, height := h, data := (List.range (w * h * 4)).map UInt8.ofNat }

theorem light_map_kept_iff_square_lightSample :
    (∃ b, (lightSample 4 4).save = .ok b ∧ load .light b = .ok (lightSample 4 4)) ∧
      ∃ b m', (lightSample 4 2).save = .ok b ∧ load .light b = .ok m' ∧ m' ≠ lightSample 4 2 := by
  constructor
  · have light : (lightSample 4 4).Light :=
      ⟨by decide, by decide, by decide, by decide, by decide +kernel, by decide +kernel⟩
    obtain ⟨b, m', saved, loaded, same⟩ := light_map_kept_iff_square light
    exact ⟨b, saved, same.mpr (.inr ⟨_, rfl, rfl⟩) ▸ loaded⟩
  · have light : (lightSample 4 2).Light :=
      ⟨by decide, by decide, by decide, by decide, by decide +kernel, by decide +kernel⟩
    obtain ⟨b, m', saved, loaded, same⟩ := light_map_kept_iff_square light
    refine ⟨b, m', saved, loaded, fun equal => ?_⟩
    rcases same.mp equal with none | ⟨i, first, square⟩
    · cases none
    · cases first
      cases square

end Terrain.DatedMap

end GameData
