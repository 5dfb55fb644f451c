import GameData.Proofs.Number.Narrow

/-!
Rounding does not pass numbers of the format.

What a fraction is rounded to is at least every number of the format that is at most the fraction. In particular an
integer of at most 53 bits plus something positive is not rounded below the integer.
-/
namespace GameData

namespace Format

theorem div_le_nearest (num den : Nat) : num / den ≤ nearest num den := by
  simp only [nearest]
  split
  · exact Nat.le_refl _
  · split
    · exact Nat.le_succ _
    · split
      · exact Nat.le_refl _
      · exact Nat.le_succ _

theorem nearest_le_succ (num den : Nat) : nearest num den ≤ num / den + 1 := by
  simp only [nearest]
  split
  · exact Nat.le_succ _
  · split
    · exact Nat.le_refl _
    · split
      · exact Nat.le_succ _
      · exact Nat.le_refl _

/-- A significand that has grown by a carry is still that of a magnitude. -/
theorem exists_magnitude_of_le {f : Format} (pos : 0 < f.precision) {q shift : Nat} (fits : q ≤ Nat.pow 2 f.precision)
    (normal : shift = 0 ∨ Nat.pow 2 (f.precision - 1) ≤ q) :
    ∃ m : f.Magnitude, m.body = shift * Nat.pow 2 (f.precision - 1) + q ∧ m.units = q * Nat.pow 2 shift := by
  have two := Magnitude.two_pow_precision pos
  rcases Nat.lt_or_eq_of_le fits with below | carried
  · exact ⟨⟨q, shift, below, normal⟩, rfl, rfl⟩
  · refine ⟨⟨Nat.pow 2 (f.precision - 1), shift + 1, ?_, .inr (Nat.le_refl _)⟩, ?_, ?_⟩
    · have := pow_two_pos (f.precision - 1)
      omega
    · simp only [Magnitude.body]
      rw [Nat.succ_mul, carried, two]
      omega
    · have doubled : Nat.pow 2 (shift + 1) = 2 * Nat.pow 2 shift := Nat.pow_succ'
      simp only [Magnitude.units]
      rw [carried, two, doubled, Nat.mul_comm 2 (Nat.pow 2 (f.precision - 1)), Nat.mul_assoc]

/-- The places by which a number of units has to be moved down to fit the precision. -/
def excess (f : Format) (units : Nat) : Nat := units.log2 + 1 - f.precision

theorem excess_eq_zero {f : Format} {units : Nat} (pos : 0 < f.precision) (small : units < Nat.pow 2 f.precision) :
    f.excess units = 0 := by
  unfold excess
  by_cases zero : units = 0
  · rw [zero, Nat.log2_zero]
    omega
  · have := (Nat.log2_lt zero).mpr small
    omega

theorem div_excess_lt (f : Format) (units : Nat) : units / Nat.pow 2 (f.excess units) < Nat.pow 2 f.precision := by
  rw [Nat.div_lt_iff_lt_mul (pow_two_pos _), Nat.pow_eq, Nat.pow_eq, ← Nat.pow_add]
  refine Nat.lt_of_lt_of_le Nat.lt_log2_self (Nat.pow_le_pow_right (by decide) ?_)
  unfold excess
  omega

theorem le_div_excess {f : Format} {units : Nat} (pos : 0 < f.precision) (moved : 0 < f.excess units) :
    Nat.pow 2 (f.precision - 1) ≤ units / Nat.pow 2 (f.excess units) := by
  have nonzero : units ≠ 0 := by
    rintro rfl
    unfold excess at moved
    rw [Nat.log2_zero] at moved
    omega
  rw [Nat.le_div_iff_mul_le (pow_two_pos _), Nat.pow_eq, Nat.pow_eq, ← Nat.pow_add]
  refine Nat.le_trans (Nat.pow_le_pow_right (by decide) ?_) (Nat.log2_self_le nonzero)
  unfold excess at moved ⊢
  omega

theorem roundBody_eq {f : Format} (pos : 0 < f.precision) (num den : Nat) :
    f.roundBody num den = f.excess (num * Nat.pow 2 f.scale / den) * Nat.pow 2 (f.precision - 1) +
      nearest (num * Nat.pow 2 f.scale) (den * Nat.pow 2 (f.excess (num * Nat.pow 2 f.scale / den))) := by
  simp only [roundBody]
  split
  case isTrue small =>
      have one : den * Nat.pow 2 0 = den := Nat.mul_one den
      rw [excess_eq_zero pos small, Nat.zero_mul, Nat.zero_add, one]
  case isFalse => rfl

/-- A number of the format that is not above a number of units is not above what is left of it within the precision. -/
theorem le_div_excess_mul {f : Format} (pos : 0 < f.precision) {units s c : Nat} (fits : s < Nat.pow 2 f.precision)
    (le : s * Nat.pow 2 c ≤ units) :
    s * Nat.pow 2 c ≤ units / Nat.pow 2 (f.excess units) * Nat.pow 2 (f.excess units) := by
  by_cases fine : f.excess units ≤ c
  · -- the number is a multiple of the unit in the last place
    obtain ⟨d, rfl⟩ := Nat.exists_eq_add_of_le fine
    have multiple : s * Nat.pow 2 (f.excess units + d) = s * Nat.pow 2 d * Nat.pow 2 (f.excess units) := by
      rw [Nat.mul_assoc, Nat.mul_comm (Nat.pow 2 d)]
      exact congrArg _ (Nat.pow_add 2 _ _)
    rw [multiple] at le ⊢
    exact Nat.mul_le_mul_right _ ((Nat.le_div_iff_mul_le (pow_two_pos _)).mpr le)
  · -- the number has fewer places than what it is compared with
    have two := Magnitude.two_pow_precision pos
    have coarse := le_div_excess pos (Nat.lt_of_le_of_lt (Nat.zero_le c) (Nat.lt_of_not_le fine))
    have double : Nat.pow 2 c * 2 ≤ Nat.pow 2 (f.excess units) := by
      have := Nat.pow_le_pow_right (n := 2) (by decide) (Nat.lt_of_not_le fine)
      exact this
    calc s * Nat.pow 2 c ≤ 2 * Nat.pow 2 (f.precision - 1) * Nat.pow 2 c :=
          Nat.mul_le_mul_right _ (two ▸ Nat.le_of_lt fits)
      _ = Nat.pow 2 (f.precision - 1) * (Nat.pow 2 c * 2) := by
          rw [Nat.mul_comm 2, Nat.mul_assoc, Nat.mul_comm 2]
      _ ≤ units / Nat.pow 2 (f.excess units) * Nat.pow 2 (f.excess units) := Nat.mul_le_mul coarse double

/-- Rounding gives a magnitude that is not below any number of the format at or below the fraction. -/
theorem exists_magnitude_roundBody {f : Format} (pos : 0 < f.precision) (num : Nat) {den : Nat} (denPos : 0 < den) :
    ∃ m : f.Magnitude, m.body = f.roundBody num den ∧
      ∀ s c, s < Nat.pow 2 f.precision → s * Nat.pow 2 c * den ≤ num * Nat.pow 2 f.scale →
        s * Nat.pow 2 c ≤ m.units := by
  rw [roundBody_eq pos]
  generalize scaled_eq : num * Nat.pow 2 f.scale = scaled
  generalize units_eq : scaled / den = units
  have whole : scaled / (den * Nat.pow 2 (f.excess units)) = units / Nat.pow 2 (f.excess units) := by
    rw [← units_eq, Nat.div_div_eq_div_mul]
  have low := div_le_nearest scaled (den * Nat.pow 2 (f.excess units))
  have high := nearest_le_succ scaled (den * Nat.pow 2 (f.excess units))
  rw [whole] at low high
  have fits := Nat.le_trans high (div_excess_lt f units)
  have normal : f.excess units = 0 ∨
      Nat.pow 2 (f.precision - 1) ≤ nearest scaled (den * Nat.pow 2 (f.excess units)) := by
    rcases Nat.eq_zero_or_pos (f.excess units) with none | moved
    · exact .inl none
    · exact .inr (Nat.le_trans (le_div_excess pos moved) low)
  obtain ⟨m, body, units'⟩ := exists_magnitude_of_le pos fits normal
  refine ⟨m, body, ?_⟩
  intro s c fits le
  have below : s * Nat.pow 2 c ≤ units := by
    rw [← units_eq]
    exact (Nat.le_div_iff_mul_le denPos).mpr le
  rw [units']
  exact Nat.le_trans (le_div_excess_mul pos fits below) (Nat.mul_le_mul_right _ low)

end Format

namespace Double

theorem toInt?_of_infinite {x : Double} {negative : Bool} (h : x.reading = .infinite negative) : x.toInt? = none := by
  simp only [toInt?, units?, h]

theorem toInt?_of_finite {x : Double} {units : Nat} {n : Int} (h : x.reading = .finite false units)
    (whole : x.toInt? = some n) : n = (units / Nat.pow 2 Format.double.scale : Nat) := by
  simp only [toInt?, units?, h, Bool.false_eq_true, if_false] at whole
  split at whole
  · exact (Option.some.inj whole).symm
  · cases whole

theorem addInt_of_infinite {x : Double} {negative : Bool} (h : x.reading = .infinite negative) (i : Int) :
    x.addInt i = x := by
  simp only [addInt, units?, h]

theorem addInt_of_finite {x : Double} {units : Nat} (h : x.reading = .finite false units) (i : Nat) :
    x.addInt i = ⟨UInt64.ofNat (Format.double.round false (i * Nat.pow 2 Format.double.scale + units)
      (Nat.pow 2 Format.double.scale))⟩ := by
  generalize unit_eq : Nat.pow 2 Format.double.scale = unit
  have sum : (i : Int) * (unit : Nat) + (units : Nat) = (i * unit + units : Nat) := by
    rw [Int.natCast_add, Int.natCast_mul]
  have positive : ¬ ((i * unit + units : Nat) : Int) < 0 := by omega
  simp only [addInt, units?, h, unit_eq, Bool.false_eq_true, if_false, sum, Int.natAbs_natCast,
    decide_eq_false positive]

theorem finite_of_isPositive {x : Double} (positive : x.isPositive = true) :
    (∃ negative, x.reading = .infinite negative) ∨ ∃ units, x.reading = .finite false units := by
  unfold isPositive at positive
  split at positive
  case h_1 negative units finite =>
    cases negative with
    | false => exact .inr ⟨units, finite⟩
    | true => cases positive
  case h_2 negative infinite => exact .inl ⟨negative, infinite⟩
  case h_3 => cases positive

/-- A positive number added to an integer of at most 53 bits is not rounded below the integer. -/
theorem le_toInt?_addInt {i : Nat} (small : i < Nat.pow 2 53) {x : Double} (positive : x.isPositive = true) {n : Int}
    (whole : (x.addInt i).toInt? = some n) : (i : Int) ≤ n := by
  rcases finite_of_isPositive positive with ⟨negative, infinite⟩ | ⟨units, finite⟩
  · rw [addInt_of_infinite infinite, toInt?_of_infinite infinite] at whole
    cases whole
  · rw [addInt_of_finite finite] at whole
    have unitPos := Format.pow_two_pos Format.double.scale
    obtain ⟨m, body, above⟩ := Format.exists_magnitude_roundBody precision_pos
      (i * Nat.pow 2 Format.double.scale + units) unitPos
    have le : i * Nat.pow 2 Format.double.scale ≤ m.units :=
      above i Format.double.scale small (Nat.mul_le_mul_right _ (Nat.le_add_right _ _))
    have below := Format.double.infinity_lt_signBit precision_pos
    rw [Format.round, ← body] at whole
    by_cases fits : m.body < Format.double.infinity
    · have reading := Format.read_finite precision_pos m fits false
      rw [← reading_ofNat (Format.add_signOf_lt (Nat.lt_trans fits below) false)] at reading
      rw [Nat.min_eq_left (Nat.le_of_lt fits)] at whole
      rw [toInt?_of_finite reading whole]
      exact Int.ofNat_le.mpr ((Nat.le_div_iff_mul_le unitPos).mpr le)
    · have reading := Format.double.read_infinite precision_pos false
      rw [← reading_ofNat (Format.add_signOf_lt below false)] at reading
      rw [Nat.min_eq_right (Nat.le_of_not_lt fits)] at whole
      cases (toInt?_of_infinite reading).symm.trans whole

end Double

end GameData
