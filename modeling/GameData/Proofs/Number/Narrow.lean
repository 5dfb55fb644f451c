import GameData.Number.Binary

/-!
Numbers that survive a wider format.

A finite number of a format is a significand moved up by some places. Rounding such a number gives its own bits
again, and every number of the narrow format is one of the wide format, so that widening and narrowing gives
back every number that is not a NaN.
-/
namespace GameData

namespace Format

theorem pow_two_pos (n : Nat) : 0 < Nat.pow 2 n := Nat.two_pow_pos n

/-- The magnitude of a finite number: a significand below the precision and the places it is moved up by, with
none to spare unless the number is among the smallest. -/
structure Magnitude (f : Format) where
  significand : Nat
  shift : Nat
  fits : significand < Nat.pow 2 f.precision
  normal : shift = 0 ∨ Nat.pow 2 (f.precision - 1) ≤ significand

namespace Magnitude

variable {f : Format}

def units (m : f.Magnitude) : Nat := m.significand * Nat.pow 2 m.shift

def body (m : f.Magnitude) : Nat := m.shift * Nat.pow 2 (f.precision - 1) + m.significand

theorem two_pow_precision (pos : 0 < f.precision) :
    Nat.pow 2 f.precision = 2 * Nat.pow 2 (f.precision - 1) := by
  rw [Nat.pow_eq, Nat.pow_eq, ← Nat.pow_add_one', Nat.sub_add_cancel pos]

theorem units_of_shift_zero (m : f.Magnitude) (h : m.shift = 0) : m.units = m.significand := by
  rw [units, h]
  exact Nat.mul_one _

theorem body_of_shift_zero (m : f.Magnitude) (h : m.shift = 0) : m.body = m.significand := by
  rw [body, h, Nat.zero_mul, Nat.zero_add]

theorem units_eq_body (m : f.Magnitude) (pos : 0 < f.precision) (small : m.units < Nat.pow 2 f.precision) :
    m.units = m.body := by
  have unmoved : m.shift = 0 := by
    rcases m.normal with none | full
    · exact none
    · cases hs : m.shift with
      | zero => rfl
      | succ n =>
          have two := two_pow_precision pos
          have more : m.significand * 2 ≤ m.units := by
            rw [units, hs]
            exact Nat.mul_le_mul_left _ (Nat.le_self_pow (Nat.succ_ne_zero n) 2)
          omega
  rw [m.units_of_shift_zero unmoved, m.body_of_shift_zero unmoved]

theorem log2_units (m : f.Magnitude) (pos : 0 < f.precision) (full : Nat.pow 2 (f.precision - 1) ≤ m.significand) :
    m.units.log2 + 1 = f.precision + m.shift := by
  have two := two_pow_precision pos
  have low : 2 ^ (f.precision - 1) * 2 ^ m.shift ≤ m.units := Nat.mul_le_mul_right _ full
  have high : m.units < 2 ^ f.precision * 2 ^ m.shift := Nat.mul_lt_mul_of_pos_right m.fits (Nat.two_pow_pos _)
  have nonzero : m.units ≠ 0 :=
    Nat.ne_of_gt (Nat.lt_of_lt_of_le (Nat.mul_pos (Nat.two_pow_pos _) (Nat.two_pow_pos _)) low)
  rw [← Nat.pow_add] at low high
  have log : m.units.log2 = f.precision - 1 + m.shift := by
    refine (Nat.log2_eq_iff nonzero).mpr ⟨low, ?_⟩
    rwa [show f.precision - 1 + m.shift + 1 = f.precision + m.shift by omega]
  omega

end Magnitude

theorem nearest_mul (q den : Nat) (pos : 0 < den) : nearest (q * den) den = q := by
  simp only [nearest, Nat.mul_div_cancel _ pos, Nat.mul_mod_left]
  rw [if_pos (by omega)]

/-- Rounding a fraction that is a number of the format gives the bits of that number. -/
theorem roundBody_units {f : Format} (pos : 0 < f.precision) (m : f.Magnitude) {num den : Nat} (denPos : 0 < den)
    (same : num * Nat.pow 2 f.scale = m.units * den) : f.roundBody num den = m.body := by
  simp only [roundBody, same, Nat.mul_div_cancel _ denPos]
  split
  case isTrue small => rw [nearest_mul _ _ denPos, m.units_eq_body pos small]
  case isFalse large =>
      have full : Nat.pow 2 (f.precision - 1) ≤ m.significand := by
        rcases m.normal with none | full
        · exact absurd (m.units_of_shift_zero none ▸ m.fits) large
        · exact full
      have shift : m.units.log2 + 1 - f.precision = m.shift := by
        have := m.log2_units pos full
        omega
      have moved : m.units * den = m.significand * (den * Nat.pow 2 m.shift) := by
        rw [Magnitude.units, Nat.mul_assoc, Nat.mul_comm (Nat.pow 2 _)]
      have movedPos : 0 < den * Nat.pow 2 m.shift := Nat.mul_pos denPos (pow_two_pos _)
      rw [shift, moved, nearest_mul _ _ movedPos, Magnitude.body]

def signOf (f : Format) (negative : Bool) : Nat := if negative then f.signBit else 0

theorem infinity_lt_signBit (f : Format) (pos : 0 < f.precision) : f.infinity < f.signBit := by
  have below : Nat.pow 2 f.exponentBits - 1 < Nat.pow 2 f.exponentBits := Nat.sub_one_lt_of_lt (Nat.two_pow_pos _)
  have split : f.signBit = Nat.pow 2 f.exponentBits * Nat.pow 2 (f.precision - 1) := by
    rw [signBit, Nat.add_sub_assoc pos, Nat.pow_eq, Nat.pow_add]
    rfl
  rw [split]
  exact Nat.mul_lt_mul_of_pos_right below (Nat.two_pow_pos _)

/-- Bits below the sign bit are told apart from the sign. -/
theorem read_parts (f : Format) {body : Nat} (small : body < f.signBit) (negative : Bool) :
    decide (f.signBit ≤ body + f.signOf negative) = negative ∧ (body + f.signOf negative) % f.signBit = body := by
  cases negative with
  | false => exact ⟨decide_eq_false (Nat.not_le_of_lt small), Nat.mod_eq_of_lt small⟩
  | true =>
      refine ⟨decide_eq_true (Nat.le_add_left _ _), ?_⟩
      exact (Nat.add_mod_right _ _).trans (Nat.mod_eq_of_lt small)

theorem eq_body_add_signOf (f : Format) {bits : Nat} (small : bits < 2 * f.signBit) :
    bits = bits % f.signBit + f.signOf (decide (f.signBit ≤ bits)) := by
  by_cases above : f.signBit ≤ bits
  · rw [decide_eq_true above, Nat.mod_eq_sub_mod above, Nat.mod_eq_of_lt (by omega), signOf, if_pos rfl]
    omega
  · rw [decide_eq_false above, Nat.mod_eq_of_lt (Nat.lt_of_not_le above)]
    rfl

theorem add_signOf_lt {f : Format} {body : Nat} (small : body < f.signBit) (negative : Bool) :
    body + f.signOf negative < 2 * f.signBit := by
  cases negative <;> simp only [signOf, Bool.false_eq_true, if_true, if_false] <;> omega

theorem read_infinite (f : Format) (pos : 0 < f.precision) (negative : Bool) :
    f.read (f.infinity + f.signOf negative) = .infinite negative := by
  obtain ⟨sign, rest⟩ := f.read_parts (f.infinity_lt_signBit pos) negative
  simp only [read, sign, rest]
  rw [if_neg (Nat.lt_irrefl _), if_pos trivial]

theorem read_nan (f : Format) {body : Nat} (above : f.infinity < body) (small : body < f.signBit)
    (negative : Bool) : f.read (body + f.signOf negative) = .nan := by
  obtain ⟨_, rest⟩ := f.read_parts small negative
  simp only [read, rest]
  rw [if_pos above]

theorem bits_of_read_infinite {f : Format} {bits : Nat} {negative : Bool} (small : bits < 2 * f.signBit)
    (h : f.read bits = .infinite negative) : bits = f.infinity + f.signOf negative := by
  have signed := f.eq_body_add_signOf small
  simp only [read] at h
  split at h
  · cases h
  · split at h
    case isTrue infinite =>
        cases h
        rwa [infinite] at signed
    case isFalse => split at h <;> cases h

/-- The exponent and the fraction in the bits of a magnitude. -/
theorem Magnitude.fields {f : Format} (pos : 0 < f.precision) (m : f.Magnitude) :
    (m.body / Nat.pow 2 (f.precision - 1) = 0 ∧ m.body % Nat.pow 2 (f.precision - 1) = m.units) ∨
    (m.body / Nat.pow 2 (f.precision - 1) = m.shift + 1 ∧
      Nat.pow 2 (f.precision - 1) + m.body % Nat.pow 2 (f.precision - 1) = m.significand) := by
  have two := two_pow_precision pos
  have fits := m.fits
  have unitPos := pow_two_pos (f.precision - 1)
  by_cases full : Nat.pow 2 (f.precision - 1) ≤ m.significand
  · have parts : m.body = m.significand - Nat.pow 2 (f.precision - 1) +
        Nat.pow 2 (f.precision - 1) * (m.shift + 1) := by
      rw [body, Nat.mul_succ, Nat.mul_comm m.shift]
      omega
    have below : m.significand - Nat.pow 2 (f.precision - 1) < Nat.pow 2 (f.precision - 1) := by omega
    refine .inr ⟨?_, ?_⟩
    · rw [parts, Nat.add_mul_div_left _ _ unitPos, Nat.div_eq_of_lt below, Nat.zero_add]
    · rw [parts, Nat.add_mul_mod_self_left, Nat.mod_eq_of_lt below]
      omega
  · have unmoved : m.shift = 0 := m.normal.resolve_right full
    rw [m.body_of_shift_zero unmoved, m.units_of_shift_zero unmoved]
    have below := Nat.lt_of_not_le full
    exact .inl ⟨Nat.div_eq_of_lt below, Nat.mod_eq_of_lt below⟩

theorem read_finite {f : Format} (pos : 0 < f.precision) (m : f.Magnitude) (finite : m.body < f.infinity)
    (negative : Bool) : f.read (m.body + f.signOf negative) = .finite negative m.units := by
  obtain ⟨sign, rest⟩ := f.read_parts (Nat.lt_trans finite (f.infinity_lt_signBit pos)) negative
  simp only [read, sign, rest]
  rw [if_neg (Nat.not_lt_of_lt finite), if_neg (Nat.ne_of_lt finite)]
  rcases m.fields pos with ⟨exponent, fraction⟩ | ⟨exponent, fraction⟩
  · rw [if_pos exponent, fraction]
  · rw [exponent, if_neg (Nat.succ_ne_zero _), fraction]
    rfl

/-- Every finite number is read from the bits of a magnitude and a sign. -/
theorem exists_magnitude {f : Format} (pos : 0 < f.precision) {bits units : Nat} {negative : Bool}
    (small : bits < 2 * f.signBit) (h : f.read bits = .finite negative units) :
    ∃ m : f.Magnitude, m.units = units ∧ m.body < f.infinity ∧ bits = m.body + f.signOf negative := by
  have unitPos := pow_two_pos (f.precision - 1)
  have two := Magnitude.two_pow_precision pos
  have remainder := Nat.mod_lt (bits % f.signBit) unitPos
  have whole := Nat.div_add_mod (bits % f.signBit) (Nat.pow 2 (f.precision - 1))
  have signed := f.eq_body_add_signOf small
  simp only [read] at h
  split at h
  · cases h
  · split at h
    · cases h
    case isFalse.isFalse notNaN notInfinite =>
        have finite : bits % f.signBit < f.infinity := by omega
        split at h
        case isTrue exponent =>
            cases h
            rw [exponent, Nat.mul_zero, Nat.zero_add] at whole
            refine ⟨⟨_, 0, by omega, .inl rfl⟩, Nat.mul_one _, ?_, ?_⟩
            · simpa only [Magnitude.body, whole, Nat.zero_mul, Nat.zero_add] using finite
            · simpa only [Magnitude.body, whole, Nat.zero_mul, Nat.zero_add] using signed
        case isFalse exponent =>
            cases h
            obtain ⟨shift, above⟩ := Nat.exists_eq_succ_of_ne_zero exponent
            rw [above] at whole ⊢
            have body : shift * Nat.pow 2 (f.precision - 1) +
                (Nat.pow 2 (f.precision - 1) + bits % f.signBit % Nat.pow 2 (f.precision - 1)) =
                bits % f.signBit := by
              rw [Nat.mul_succ, Nat.mul_comm] at whole
              omega
            refine ⟨⟨_, shift, by omega, .inr (Nat.le_add_right _ _)⟩, rfl, ?_, ?_⟩
            · simpa only [Magnitude.body, body] using finite
            · simpa only [Magnitude.body, body] using signed

end Format

theorem Single.precision_pos : 0 < Format.single.precision := by decide

theorem Double.precision_pos : 0 < Format.double.precision := by decide

/-- Every finite number of the narrow format is one of the wide format. -/
theorem Format.Magnitude.exists_wide (m : Format.single.Magnitude) (finite : m.body < Format.single.infinity) :
    ∃ w : Format.double.Magnitude,
      w.units = m.units * Nat.pow 2 (Format.double.scale - Format.single.scale) ∧ w.body < Format.double.infinity := by
  have shiftSmall : m.shift < 255 := by
    have : Format.single.infinity = 255 * Nat.pow 2 23 := rfl
    have : m.shift * Nat.pow 2 23 ≤ m.body := Nat.le_add_right _ _
    exact Nat.lt_of_mul_lt_mul_right (Nat.lt_of_le_of_lt this finite)
  obtain ⟨gap, gap_eq, gapLow, gapHigh⟩ :
      ∃ gap, Format.double.scale - Format.single.scale = gap ∧ 52 ≤ gap ∧ gap ≤ 925 := ⟨_, rfl, by decide, by decide⟩
  rw [gap_eq]
  by_cases zero : m.significand = 0
  · refine ⟨⟨0, 0, by decide, .inl rfl⟩, ?_, by decide⟩
    simp only [Format.Magnitude.units, zero, Nat.zero_mul]
  · have low := Nat.log2_self_le zero
    have high := Nat.lt_log2_self (n := m.significand)
    have places : m.significand.log2 < 24 := (Nat.log2_lt zero).mpr m.fits
    -- the significand moves up until its highest bit is the highest one of the wide format
    obtain ⟨up, total⟩ : ∃ up, m.significand.log2 + up = 52 := ⟨52 - m.significand.log2, by omega⟩
    have fits : m.significand * 2 ^ up < 2 ^ 53 := by
      have := Nat.mul_lt_mul_of_pos_right high (Nat.two_pow_pos up)
      rwa [← Nat.pow_add, show m.significand.log2 + 1 + up = 53 by omega] at this
    have full : 2 ^ 52 ≤ m.significand * 2 ^ up := by
      have := Nat.mul_le_mul_right (2 ^ up) low
      rwa [← Nat.pow_add, total] at this
    refine ⟨⟨m.significand * 2 ^ up, m.shift + gap - up, fits, .inr full⟩, ?_, ?_⟩
    · have shifts : up + (m.shift + gap - up) = m.shift + gap := by omega
      simp only [units, Nat.pow_eq]
      rw [Nat.mul_assoc, ← Nat.pow_add, shifts, Nat.pow_add, Nat.mul_assoc]
    · change (m.shift + gap - up) * 2 ^ 52 + m.significand * 2 ^ up < 2047 * 2 ^ 52
      have : (m.shift + gap - up) * 2 ^ 52 ≤ 1180 * 2 ^ 52 := Nat.mul_le_mul_right _ (by omega)
      omega

/-- The bits of a number in the wide format. -/
theorem Double.reading_ofNat {n : Nat} (small : n < 2 * Format.double.signBit) :
    (Double.mk (UInt64.ofNat n)).reading = Format.double.read n := by
  rw [Double.reading, UInt64.toNat_ofNat_of_lt' small]

namespace Single

theorem bits_small (x : Single) : x.bits.toNat < 2 * Format.single.signBit := x.bits.toNat_lt

theorem scale_add_gap (n : Nat) : n * Nat.pow 2 (Format.double.scale - Format.single.scale) *
    Nat.pow 2 Format.single.scale = n * Nat.pow 2 Format.double.scale := by
  rw [Nat.mul_assoc, Nat.pow_eq, Nat.pow_eq, Nat.pow_eq, ← Nat.pow_add]
  exact congrArg _ (congrArg _ (by decide))

theorem widen_of_finite {x : Single} {negative : Bool} {units : Nat} (h : x.reading = .finite negative units) :
    x.widen.reading = .finite negative (units * Nat.pow 2 (Format.double.scale - Format.single.scale)) := by
  obtain ⟨m, rfl, finite, _⟩ := Format.exists_magnitude precision_pos x.bits_small h
  obtain ⟨w, units, wideFinite⟩ := m.exists_wide finite
  have rounded : Format.double.roundBody m.units (Nat.pow 2 Format.single.scale) = w.body := by
    refine Format.roundBody_units Double.precision_pos w (Format.pow_two_pos _) ?_
    rw [units, scale_add_gap]
  have bits : Format.double.round negative m.units (Nat.pow 2 Format.single.scale) =
      w.body + Format.double.signOf negative := by
    rw [Format.round, rounded, Nat.min_eq_left (Nat.le_of_lt wideFinite)]
    rfl
  have small := Nat.lt_trans wideFinite (Format.double.infinity_lt_signBit Double.precision_pos)
  rw [widen, h]
  simp only [bits]
  rw [Double.reading_ofNat (Format.add_signOf_lt small negative),
    Format.read_finite Double.precision_pos w wideFinite, units]

theorem widen_of_infinite {x : Single} {negative : Bool} (h : x.reading = .infinite negative) :
    x.widen.reading = .infinite negative := by
  have small := Format.add_signOf_lt (Format.double.infinity_lt_signBit Double.precision_pos) negative
  rw [widen, h]
  exact (Double.reading_ofNat small).trans (Format.double.read_infinite Double.precision_pos negative)

theorem widen_of_nan {x : Single} (h : x.reading = .nan) : x.widen.reading = .nan := by
  obtain ⟨negative, sign⟩ : ∃ negative, x.bits.toNat / 0x80000000 * 0x8000000000000000 =
      Format.double.signOf negative := by
    have := x.bits.toNat_lt
    rcases (by omega : x.bits.toNat / 0x80000000 = 0 ∨ x.bits.toNat / 0x80000000 = 1) with zero | one
    · exact ⟨false, by rw [zero]; rfl⟩
    · exact ⟨true, by rw [one]; rfl⟩
  have above : Format.double.infinity < 0x7ff8000000000000 + x.bits.toNat % 0x400000 * 0x20000000 :=
    Nat.lt_of_lt_of_le (by decide) (Nat.le_add_right _ _)
  have small : 0x7ff8000000000000 + x.bits.toNat % 0x400000 * 0x20000000 < Format.double.signBit := by
    change _ < 2 ^ 63
    omega
  rw [widen, h]
  simp only [sign]
  rw [Nat.add_assoc, Nat.add_comm, Double.reading_ofNat (Format.add_signOf_lt small negative)]
  exact Format.double.read_nan above small negative

theorem isNaN_widen (x : Single) : x.widen.isNaN = true ↔ x.reading = .nan := by
  rw [Double.isNaN, beq_iff_eq]
  cases h : x.reading with
  | nan => simp only [widen_of_nan h]
  | finite negative units => simp only [widen_of_finite h, reduceCtorEq]
  | infinite negative => simp only [widen_of_infinite h, reduceCtorEq]

/-- A number that is no NaN is the same after widening and narrowing. -/
theorem narrow_widen {x : Single} (h : x.reading ≠ .nan) : x.widen.narrow? = some x := by
  cases hr : x.reading with
  | nan => exact absurd hr h
  | finite negative units =>
      obtain ⟨m, rfl, finite, bits⟩ := Format.exists_magnitude precision_pos x.bits_small hr
      have rounded : Format.single.roundBody (m.units * Nat.pow 2 (Format.double.scale - Format.single.scale))
          (Nat.pow 2 Format.double.scale) = m.body :=
        Format.roundBody_units precision_pos m (Format.pow_two_pos _) (scale_add_gap _)
      rw [Double.narrow?, widen_of_finite hr]
      simp only [Format.round?, rounded, if_pos finite, Option.map_some]
      rw [← Format.signOf, ← bits, UInt32.ofNat_toNat]
  | infinite negative =>
      have bits := Format.bits_of_read_infinite x.bits_small hr
      rw [Double.narrow?, widen_of_infinite hr]
      simp only
      rw [← Format.signOf, ← bits, UInt32.ofNat_toNat]

/-- Narrowing a widened number always gives a number. -/
theorem isSome_narrow_widen (x : Single) : ∃ y, x.widen.narrow? = some y := by
  by_cases h : x.reading = .nan
  · rw [Double.narrow?, widen_of_nan h]
    exact ⟨_, rfl⟩
  · exact ⟨x, narrow_widen h⟩

end Single

end GameData
