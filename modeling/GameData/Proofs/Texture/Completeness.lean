import Mathlib
import GameData.Batch.Textures
import GameData.Proofs.Loading

/-!
Bitmaps that a file holds whole.

No reader of textures looks at the length of a bitmap. A sheet is complete all the same, since the grid behind its bitmaps
would be missing otherwise. A flat texture and a texture of levels are taken as they come: the first may lack any part of
its bitmap, the second may end inside a level.
-/
namespace GameData.Texture

open Batch.Textures

theorem record_eq_ok {size : Nat} {data head rest : Bytes} (read : record size data = .ok (head, rest)) :
    size ≤ data.length ∧ head = data.take size ∧ rest = data.drop size := by
  obtain ⟨taken, whole, made⟩ := bind_eq_ok.mp read
  obtain ⟨length, rfl⟩ := exactly_eq_ok.mp whole
  cases made
  rw [List.length_take] at length
  exact ⟨by omega, rfl, rfl⟩

theorem depth_eq_ok {mode d : Nat} (known : depth mode = .ok d) : depth? mode = some d := by
  unfold depth at known
  split at known
  · cases known
    assumption
  · cases known

section Sheets

variable {width height mode : Nat}

theorem sheetBitmaps_suffix {count : Nat} {data rest : Bytes} {bitmaps : List Bytes}
    (read : sheetBitmaps width height mode count data = .ok (bitmaps, rest)) : rest <:+ data := by
  induction count generalizing data bitmaps with
  | zero =>
      cases read
      exact List.suffix_refl _
  | succ count ih =>
      obtain ⟨d, _, read⟩ := bind_eq_ok.mp read
      obtain ⟨bitmap, _, read⟩ := bind_eq_ok.mp read
      obtain ⟨⟨more, left⟩, later, made⟩ := bind_eq_ok.mp read
      cases made
      exact (ih later).trans (List.drop_suffix _ data)

/-- If anything is left behind the bitmaps of a sheet, none of them has been cut. -/
theorem sheetBitmaps_length {count : Nat} {data rest : Bytes} {bitmaps : List Bytes}
    (read : sheetBitmaps width height mode count data = .ok (bitmaps, rest)) (more : rest ≠ []) :
    ∀ b ∈ bitmaps, ∃ d, depth mode = .ok d ∧ b.length = width * height * d := by
  induction count generalizing data bitmaps with
  | zero =>
      cases read
      intro b mem
      cases mem
  | succ count ih =>
      obtain ⟨d, known, read⟩ := bind_eq_ok.mp read
      obtain ⟨bitmap, taken, read⟩ := bind_eq_ok.mp read
      obtain ⟨⟨others, left⟩, later, made⟩ := bind_eq_ok.mp read
      cases made
      have behind : data.drop (width * height * d) ≠ [] := by
        intro none
        apply more
        have inside := sheetBitmaps_suffix later
        rw [none] at inside
        exact List.suffix_nil.mp inside
      have length : bitmap.length = width * height * d := by
        have long := List.length_pos_iff.mpr behind
        rw [List.length_drop] at long
        rw [Bytes.eq_take_of_read taken, List.length_take]
        omega
      intro b mem
      rcases List.mem_cons.mp mem with rfl | mem
      · exact ⟨d, known, length⟩
      · exact ih later b mem

end Sheets

section Levels

variable (width height d : Nat)

def levelSize (level : Nat) : Nat := (width >>> level) * (height >>> level) * d

def levelStart (level : Nat) : Nat := ((List.range level).map (levelSize width height d)).sum

theorem levelStart_succ (level : Nat) :
    levelStart width height d (level + 1) = levelStart width height d level + levelSize width height d level := by
  simp only [levelStart, List.range_succ, List.map_append, List.sum_append, List.map_cons, List.map_nil, List.sum_cons,
    List.sum_nil, Nat.add_zero]

theorem levelStart_mono {low high : Nat} (le : low ≤ high) :
    levelStart width height d low ≤ levelStart width height d high := by
  induction le with
  | refl => exact Nat.le_refl _
  | step _ ih =>
      rw [levelStart_succ]
      exact Nat.le_add_right_of_le ih

/-- Behind an empty level all levels are empty. -/
theorem levelSize_eq_zero {low high : Nat} (le : low ≤ high) (empty : levelSize width height d low = 0) :
    levelSize width height d high = 0 := by
  have shrink (n : Nat) : n >>> high ≤ n >>> low := by
    rw [Nat.shiftRight_eq_div_pow, Nat.shiftRight_eq_div_pow]
    exact Nat.div_le_div_left (Nat.pow_le_pow_right Nat.two_pos le) (Nat.two_pow_pos low)
  apply Nat.eq_zero_of_le_zero
  calc levelSize width height d high ≤ levelSize width height d low :=
        Nat.mul_le_mul_right d (Nat.mul_le_mul (shrink width) (shrink height))
    _ = 0 := empty

variable {width height d} {mode count : Nat} {data rest : Bytes} {bitmaps : List Bytes}

/-- The bitmap of a level stands behind those of the levels before it, and the first level of which nothing is there ends
them. -/
theorem levelBitmaps_eq_ok (known : depth mode = .ok d) (level : Nat)
    (read : levelBitmaps width height mode count level (data.drop (levelStart width height d level)) =
      .ok (bitmaps, rest)) :
    bitmaps.length ≤ count ∧
    (∀ i b, bitmaps[i]? = some b → b ≠ [] ∧
      b = data.slice (levelStart width height d (level + i)) (levelSize width height d (level + i))) ∧
    (bitmaps.length < count →
      data.slice (levelStart width height d (level + bitmaps.length))
        (levelSize width height d (level + bitmaps.length)) = []) := by
  induction count generalizing level bitmaps with
  | zero =>
      cases read
      refine ⟨Nat.le_refl 0, ?_, ?_⟩
      · intro i b place
        cases place
      · intro less
        exact absurd less (Nat.lt_irrefl 0)
  | succ count ih =>
      rw [levelBitmaps, known, ok_bind] at read
      have size : width / Nat.pow 2 level * (height / Nat.pow 2 level) * d = levelSize width height d level := by
        simp only [levelSize, Nat.shiftRight_eq_div_pow, Nat.pow_eq]
      rw [size] at read
      obtain ⟨bitmap, taken, read⟩ := bind_eq_ok.mp read
      have first : bitmap = data.slice (levelStart width height d level) (levelSize width height d level) :=
        Bytes.eq_take_of_read taken
      split at read
      case isTrue empty =>
        cases read
        refine ⟨Nat.zero_le _, ?_, ?_⟩
        · intro i b place
          cases place
        · intro _
          rw [← List.isEmpty_iff.mp empty, first]
          rfl
      case isFalse some =>
        rw [List.drop_drop, ← levelStart_succ] at read
        obtain ⟨⟨more, left⟩, later, made⟩ := bind_eq_ok.mp read
        cases made
        obtain ⟨bound, each, ends⟩ := ih (level + 1) later
        refine ⟨Nat.succ_le_succ bound, ?_, ?_⟩
        · intro i b place
          cases i with
          | zero =>
              cases place
              exact ⟨fun none => some (List.isEmpty_iff.mpr none), first⟩
          | succ i =>
              rw [← Nat.succ_add_eq_add_succ]
              exact each i b place
        · intro less
          rw [List.length_cons, ← Nat.succ_add_eq_add_succ]
          exact ends (Nat.lt_of_succ_lt_succ less)

/-- All levels are whole unless the bytes end inside one. -/
theorem levelBitmaps_whole_iff (known : depth mode = .ok d)
    (read : levelBitmaps width height mode count 0 data = .ok (bitmaps, rest)) :
    (∀ i b, bitmaps[i]? = some b → b.length = levelSize width height d i) ↔
      ∀ i < count, data.length ≤ levelStart width height d i ∨ levelStart width height d (i + 1) ≤ data.length := by
  obtain ⟨bound, each, ends⟩ := levelBitmaps_eq_ok known 0 read
  simp only [Nat.zero_add] at each ends
  constructor
  · intro whole i inside
    by_cases there : i < bitmaps.length
    · have place := List.getElem?_eq_getElem there
      have length := whole i _ place
      rw [(each i _ place).2, Bytes.length_slice] at length
      rw [levelStart_succ]
      omega
    · -- The level at which reading stopped is not behind this one: nothing of it is there, or it is empty.
      have none := congrArg List.length (ends (Nat.lt_of_le_of_lt (Nat.le_of_not_lt there) inside))
      rw [Bytes.length_slice, List.length_nil] at none
      have before := levelStart_mono width height d (Nat.le_of_not_lt there)
      rcases Nat.eq_zero_or_pos (levelSize width height d bitmaps.length) with empty | some
      · rw [levelStart_succ, levelSize_eq_zero width height d (Nat.le_of_not_lt there) empty]
        omega
      · omega
  · intro clear i b place
    obtain ⟨some, rfl⟩ := each i b place
    have long := List.length_pos_iff.mpr some
    rw [Bytes.length_slice] at long ⊢
    have inside : i < count := Nat.lt_of_lt_of_le (List.getElem?_eq_some_iff.mp place).1 bound
    have next := clear i inside
    rw [levelStart_succ] at next
    omega

end Levels

section Readers

variable {data rest : Bytes}

theorem readFlat_eq_ok {t : Flat} (read : readFlat data = .ok (t, rest)) :
    24 ≤ data.length ∧ t.version = data.u32 4 ∧
      ∃ d, depth t.mode = .ok d ∧ t.bitmaps = [data.slice 24 (t.width * t.height * d)] := by
  obtain ⟨⟨head, behind⟩, front, read⟩ := bind_eq_ok.mp read
  obtain ⟨long, rfl, rfl⟩ := record_eq_ok front
  obtain ⟨d, known, read⟩ := bind_eq_ok.mp read
  obtain ⟨bitmap, taken, made⟩ := bind_eq_ok.mp read
  cases made
  refine ⟨long, ?_, d, known, ?_⟩
  · exact congrArg Bytes.ofLE (Bytes.slice_take (by omega))
  · rw [Bytes.eq_take_of_read taken]
    rfl

theorem readGrid_ne_nil {grid : Grid} (read : readGrid data = .ok (grid, rest)) : data ≠ [] := by
  obtain ⟨⟨head, behind⟩, front, _⟩ := bind_eq_ok.mp read
  obtain ⟨long, _⟩ := record_eq_ok front
  rintro rfl
  exact absurd long (by decide)

theorem readSheet_eq_ok {layer : Type} {size : Nat} {make : Bytes → layer} {t : Sheet layer}
    (read : readSheet size make data = .ok (t, rest)) :
    t.version = data.u32 4 ∧ ∀ b ∈ t.bitmaps, ∃ d, depth t.mode = .ok d ∧ b.length = t.width * t.height * d := by
  obtain ⟨⟨head, behind⟩, front, read⟩ := bind_eq_ok.mp read
  obtain ⟨_, rfl, rfl⟩ := record_eq_ok front
  obtain ⟨⟨layers, behind⟩, _, read⟩ := bind_eq_ok.mp read
  obtain ⟨⟨bitmaps, behind⟩, pixels, read⟩ := bind_eq_ok.mp read
  obtain ⟨⟨grid, behind⟩, last, made⟩ := bind_eq_ok.mp read
  cases made
  refine ⟨?_, sheetBitmaps_length pixels (readGrid_ne_nil last)⟩
  exact congrArg Bytes.ofLE (Bytes.slice_take (by omega))

theorem readLevels_eq_ok {t : Levels} (read : readLevels data = .ok (t, rest)) :
    32 ≤ data.length ∧ t.version = data.u32 4 ∧
      levelBitmaps t.width t.height t.mode 10 0 (data.drop 32) = .ok (t.bitmaps, rest) := by
  obtain ⟨⟨head, behind⟩, front, read⟩ := bind_eq_ok.mp read
  obtain ⟨long, rfl, rfl⟩ := record_eq_ok front
  obtain ⟨⟨bitmaps, behind⟩, pixels, made⟩ := bind_eq_ok.mp read
  cases made
  refine ⟨long, ?_, pixels⟩
  exact congrArg Bytes.ofLE (Bytes.slice_take (by omega))

end Readers

namespace Loop

variable {data rest : Bytes} {t : Loop}

/-- The number of the version decides which reader takes a file. -/
theorem decode_eq_ok (read : decode data = .ok (t, rest)) :
    (∃ f, t = .flat f ∧ data.u32 4 = 2 ∧ readFlat data = .ok (f, rest)) ∨
    (∃ s, t = .sheet7 s ∧ data.u32 4 = 7 ∧ readSheet 40 layer7 data = .ok (s, rest)) ∨
    (∃ s, t = .sheet9 s ∧ data.u32 4 = 9 ∧ readSheet 32 layer9 data = .ok (s, rest)) ∨
    ∃ l, t = .levels l ∧ data.u32 4 = 11 ∧ readLevels data = .ok (l, rest) := by
  obtain ⟨⟨head, behind⟩, front, read⟩ := bind_eq_ok.mp read
  obtain ⟨_, rfl, rfl⟩ := record_eq_ok front
  have version : Bytes.u32 (data.take 8) 4 = data.u32 4 := congrArg Bytes.ofLE (Bytes.slice_take (by omega))
  simp only [version] at read
  split at read
  · cases read
  · split at read
    · obtain ⟨⟨f, left⟩, accepted, made⟩ := map_eq_ok.mp read
      cases made
      exact .inl ⟨f, rfl, by assumption, accepted⟩
    · obtain ⟨⟨s, left⟩, accepted, made⟩ := map_eq_ok.mp read
      cases made
      exact .inr (.inl ⟨s, rfl, by assumption, accepted⟩)
    · obtain ⟨⟨s, left⟩, accepted, made⟩ := map_eq_ok.mp read
      cases made
      exact .inr (.inr (.inl ⟨s, rfl, by assumption, accepted⟩))
    · obtain ⟨⟨l, left⟩, accepted, made⟩ := map_eq_ok.mp read
      cases made
      exact .inr (.inr (.inr ⟨l, rfl, by assumption, accepted⟩))
    · cases read

/-- The bytes of a pixel; a colour mode that is not known has none. -/
def pixelBytes (t : Loop) : Nat := (depth? (facts t).mode).getD 0

theorem pixelBytes_eq {d : Nat} (known : depth (facts t).mode = .ok d) : t.pixelBytes = d := by
  rw [pixelBytes, depth_eq_ok known, Option.getD_some]

/-- The bytes that the sides of a bitmap call for. -/
def calledFor (t : Loop) (i : Nat) : Nat :=
  match t with
  | .levels _ => levelSize (facts t).width (facts t).height t.pixelBytes i
  | _ => (facts t).width * (facts t).height * t.pixelBytes

/-- Every bitmap is as long as its sides call for. -/
def Complete (t : Loop) : Prop := ∀ i b, t.bitmaps[i]? = some b → b.length = t.calledFor i

/-- A file of that size ends inside a bitmap of the texture. -/
def CutShort (t : Loop) (size : Nat) : Prop :=
  match t with
  | .flat _ => size < 24 + (facts t).width * (facts t).height * t.pixelBytes
  | .sheet7 _ | .sheet9 _ => False
  | .levels _ => ∃ i < 10, 32 + levelStart (facts t).width (facts t).height t.pixelBytes i < size ∧
      size < 32 + levelStart (facts t).width (facts t).height t.pixelBytes (i + 1)

theorem complete_flat_iff {f : Flat} (read : readFlat data = .ok (f, rest)) :
    (flat f).Complete ↔ ¬ (flat f).CutShort data.length := by
  obtain ⟨long, _, d, known, only⟩ := readFlat_eq_ok read
  have depth : (flat f).pixelBytes = d := pixelBytes_eq known
  have area : (flat f).calledFor 0 = f.width * f.height * d := by
    rw [← depth]
    rfl
  have cut : (flat f).CutShort data.length ↔ data.length < 24 + f.width * f.height * d := by
    rw [← depth]
    exact Iff.rfl
  have length : (data.slice 24 (f.width * f.height * d)).length = min (f.width * f.height * d) (data.length - 24) :=
    Bytes.length_slice data 24 _
  rw [cut]
  constructor
  · intro complete
    have whole := complete 0 (data.slice 24 (f.width * f.height * d)) (by rw [bitmaps, only]; rfl)
    rw [length, area] at whole
    omega
  · intro clear i b place
    rw [bitmaps, only] at place
    obtain ⟨rfl, rfl⟩ : i = 0 ∧ data.slice 24 (f.width * f.height * d) = b := by
      cases i with
      | zero => exact ⟨rfl, Option.some.inj place⟩
      | succ i => cases place
    rw [length, area]
    omega

theorem complete_sheet {layer : Type} {size : Nat} {make : Bytes → layer} {s : Sheet layer}
    (read : readSheet size make data = .ok (s, rest)) (same : t.bitmaps = s.bitmaps)
    (sides : facts t = ⟨s.version, s.mode, s.width, s.height⟩)
    (called : ∀ i, t.calledFor i = (facts t).width * (facts t).height * t.pixelBytes) : t.Complete := by
  intro i b place
  rw [same] at place
  obtain ⟨d, known, length⟩ := (readSheet_eq_ok read).2 b (List.mem_of_getElem? place)
  have depth : t.pixelBytes = d := pixelBytes_eq (by rw [sides]; exact known)
  rw [called, depth, sides, length]

theorem complete_levels_iff {l : Levels} (read : readLevels data = .ok (l, rest)) :
    (levels l).Complete ↔ ¬ (levels l).CutShort data.length := by
  obtain ⟨long, _, pixels⟩ := readLevels_eq_ok read
  obtain ⟨d, known, _⟩ := bind_eq_ok.mp pixels
  have depth : (levels l).pixelBytes = d := pixelBytes_eq known
  have called (i : Nat) : (levels l).calledFor i = levelSize l.width l.height d i := by
    rw [← depth]
    rfl
  have cut : (levels l).CutShort data.length ↔ ∃ i < 10, 32 + levelStart l.width l.height d i < data.length ∧
      data.length < 32 + levelStart l.width l.height d (i + 1) := by
    rw [← depth]
    exact Iff.rfl
  rw [Complete, cut]
  simp only [called]
  refine (levelBitmaps_whole_iff known pixels).trans ?_
  rw [List.length_drop]
  constructor
  · rintro clear ⟨i, inside, after, before⟩
    have outside := clear i inside
    omega
  · intro clear i inside
    by_contra within
    apply clear
    refine ⟨i, inside, ?_, ?_⟩
    · omega
    · omega

def image (t : Loop) (i : Nat) (bitmap : Bytes) : Except Fault Targa :=
  let plan := bitmapPlan (facts t) t.bitmaps.length i
  targa (facts t) plan.2.1 plan.2.2 bitmap

end Loop

/-- An image has the bytes that its sides and its depth call for. -/
def Targa.Filled (t : Targa) : Prop := (t.lines.length : Int) = t.width * t.height * (t.pixelDepth / 8)

/-- A colour mode with a depth has alpha bits. -/
theorem alpha_eq_ok {mode d : Nat} (known : depth mode = .ok d) :
    ∃ a, alpha mode = .ok a ∧ d * 8 < 256 ∧ (a = 1 ∨ a = 8) := by
  have listed := depth_eq_ok known
  unfold depth? at listed
  split at listed
  all_goals cases listed
  · exact ⟨1, rfl, by decide, .inl rfl⟩
  · exact ⟨8, rfl, by decide, .inr rfl⟩
  · exact ⟨8, rfl, by decide, .inr rfl⟩

/-- The image of a bitmap takes its bytes as they are, with the sides that it is told. -/
theorem targa_filled_iff {f : Facts} {d : Nat} (known : depth f.mode = .ok d) (width height : Nat) (bitmap : Bytes) :
    ∃ image, targa f width height bitmap = .ok image ∧ (image.Filled ↔ bitmap.length = width * height * d) := by
  obtain ⟨a, found, _⟩ := alpha_eq_ok known
  refine ⟨_, bind_eq_ok.mpr ⟨d, known, bind_eq_ok.mpr ⟨a, found, rfl⟩⟩, ?_⟩
  change (bitmap.length : Int) = width * height * (d * 8 / 8) ↔ _
  rw [Int.mul_ediv_cancel (d : Int) (by decide)]
  norm_cast

namespace Loop

variable {data rest : Bytes} {t : Loop}

/-- A texture with a bitmap has a known colour mode, and its version is that of its reader. -/
theorem known_of_decode (read : decode data = .ok (t, rest)) {i : Nat} {b : Bytes} (place : t.bitmaps[i]? = some b) :
    (∃ d, depth (facts t).mode = .ok d) ∧ ((facts t).version = 11 ↔ ∃ l, t = .levels l) := by
  have member := List.mem_of_getElem? place
  have other {n : Nat} (version : (facts t).version = n) (not : n ≠ 11) (none : ¬ ∃ l, t = .levels l) :
      (facts t).version = 11 ↔ ∃ l, t = .levels l := by
    rw [version]
    exact iff_of_false not none
  rcases decode_eq_ok read with ⟨f, rfl, version, accepted⟩ | ⟨s, rfl, version, accepted⟩ | ⟨s, rfl, version, accepted⟩ |
    ⟨l, rfl, version, accepted⟩
  · obtain ⟨_, same, d, known, _⟩ := readFlat_eq_ok accepted
    exact ⟨⟨d, known⟩, other (same.trans version) (by decide) (by simp)⟩
  · obtain ⟨same, each⟩ := readSheet_eq_ok accepted
    obtain ⟨d, known, _⟩ := each b member
    exact ⟨⟨d, known⟩, other (same.trans version) (by decide) (by simp)⟩
  · obtain ⟨same, each⟩ := readSheet_eq_ok accepted
    obtain ⟨d, known, _⟩ := each b member
    exact ⟨⟨d, known⟩, other (same.trans version) (by decide) (by simp)⟩
  · obtain ⟨_, same, pixels⟩ := readLevels_eq_ok accepted
    obtain ⟨d, known, _⟩ := bind_eq_ok.mp pixels
    exact ⟨⟨d, known⟩, iff_of_true (same.trans version) ⟨l, rfl⟩⟩

/-- The sides that a bitmap is converted with are those that its length is called for by. -/
theorem calledFor_eq_plan (version : (facts t).version = 11 ↔ ∃ l, t = .levels l) (count i : Nat) :
    t.calledFor i =
      (bitmapPlan (facts t) count i).2.1 * (bitmapPlan (facts t) count i).2.2 * t.pixelBytes := by
  by_cases levelled : ∃ l, t = .levels l
  · have eleven := version.mpr levelled
    obtain ⟨l, rfl⟩ := levelled
    have sheet : ¬ (((facts (levels l)).version = 7 ∨ (facts (levels l)).version = 9) ∧ 1 < count) := by
      rw [eleven]
      omega
    rw [bitmapPlan, if_neg sheet]
    by_cases first : i = 0
    · subst first
      rw [if_neg (by omega)]
      rfl
    · rw [if_pos ⟨eleven, Nat.pos_of_ne_zero first⟩]
      simp only [calledFor, levelSize, Nat.shiftRight_eq_div_pow, Nat.pow_eq]
  · have other : ¬ ((facts t).version = 11 ∧ 0 < i) := fun both => levelled (version.mp both.1)
    have sides : (bitmapPlan (facts t) count i).2 = ((facts t).width, (facts t).height) := by
      rw [bitmapPlan, if_neg other]
      split
      · rfl
      · rfl
    rw [sides]
    cases t with
    | levels l => exact absurd ⟨l, rfl⟩ levelled
    | _ => rfl

/-- A texture that is read has all its bitmaps whole exactly when the file does not end inside one of them, which no sheet
does. A bitmap is always converted, and the image has as many bytes as its sides and its depth call for exactly when the
bitmap is whole. -/
theorem bitmaps_complete_iff (read : decode data = .ok (t, rest)) :
    (t.Complete ↔ ¬ t.CutShort data.length) ∧
    ∀ i b, t.bitmaps[i]? = some b →
      ∃ image, t.image i b = .ok image ∧ (image.Filled ↔ b.length = t.calledFor i) := by
  constructor
  · rcases decode_eq_ok read with ⟨f, rfl, _, accepted⟩ | ⟨s, rfl, _, accepted⟩ | ⟨s, rfl, _, accepted⟩ |
      ⟨l, rfl, _, accepted⟩
    · exact complete_flat_iff accepted
    · exact iff_of_true (complete_sheet accepted rfl rfl fun _ => rfl) id
    · exact iff_of_true (complete_sheet accepted rfl rfl fun _ => rfl) id
    · exact complete_levels_iff accepted
  · intro i b place
    obtain ⟨⟨d, known⟩, version⟩ := known_of_decode read place
    rw [calledFor_eq_plan version t.bitmaps.length, pixelBytes_eq known]
    exact targa_filled_iff known _ _ b

/-- A texture of levels, the first of two pixels with two bytes each, that ends before the last byte of it. -/
def levelsSample : Bytes :=
  Bytes.ofText "LOOP" ++ [11, 0, 0, 0, 2, 0, 0, 0] ++ Bytes.zeros 14 ++ [2, 0, 1, 0, 0, 0] ++ [1, 2, 3]

def levelsRead : Loop := .levels ⟨Bytes.ofText "LOOP", 11, 2, 0, 0, 0, 0, 0, 2, 1, 0, [[1, 2, 3]]⟩

theorem decode_levelsSample : decode levelsSample = .ok (levelsRead, []) := by decide +kernel

theorem bitmaps_complete_iff_levelsSample :
    decode levelsSample = .ok (levelsRead, []) ∧ ¬ levelsRead.Complete ∧
      ∃ image, levelsRead.image 0 [1, 2, 3] = .ok image ∧ ¬ image.Filled := by
  obtain ⟨complete, images⟩ := bitmaps_complete_iff decode_levelsSample
  refine ⟨decode_levelsSample, ?_, ?_⟩
  · rw [complete, not_not]
    exact ⟨0, by decide, by decide +kernel, by decide +kernel⟩
  · obtain ⟨image, made, filled⟩ := images 0 [1, 2, 3] rfl
    exact ⟨image, made, fun whole => absurd (filled.mp whole) (by decide)⟩

/-- A flat texture of one pixel with four bytes, none of which is there. -/
def flatSample : Bytes := Bytes.ofText "LOOP" ++ [2, 0, 0, 0] ++ Bytes.zeros 10 ++ [1, 0, 1, 0, 3, 0]

/-- Textures are read although a bitmap is not whole, flat ones and such of levels. -/
theorem bitmaps_cut_short :
    (∃ t, decode flatSample = .ok (t, []) ∧ ¬ t.Complete) ∧ ∃ t, decode levelsSample = .ok (t, []) ∧ ¬ t.Complete := by
  constructor
  · refine ⟨.flat ⟨Bytes.ofText "LOOP", 2, 0, 0, 0, 1, 1, 3, [[]]⟩, by decide +kernel, ?_⟩
    intro complete
    exact absurd (complete 0 [] rfl) (by decide)
  · refine ⟨levelsRead, decode_levelsSample, ?_⟩
    intro complete
    exact absurd (complete 0 [1, 2, 3] rfl) (by decide)

end Loop

end GameData.Texture
