import GameData.Proofs.Loading
import GameData.Proofs.Number.Narrow

/-!
Fields written and read back.

A number within the range of a field is read back from its bytes, and the bytes of a field are written again from
the number they hold; for a floating-point field this needs a number that is no NaN.
-/
namespace GameData

namespace Bytes

theorem length_ofInt (w : Nat) (i : Int) : (ofInt w i).length = w := length_toLE _ _

theorem ofLE_ofInt (w : Nat) (i : Int) : (ofLE (ofInt w i) : Int) = i % (Nat.pow 256 w : Nat) := by
  have pos : (0 : Int) < (Nat.pow 256 w : Nat) := Int.natCast_pos.mpr (Nat.pow_pos (by decide))
  have low := Int.emod_nonneg i (Int.ne_of_gt pos)
  have high := Int.emod_lt_of_pos i pos
  rw [ofInt, ofLE_toLE, Nat.mod_eq_of_lt (by omega)]
  omega

theorem ofInt_natCast (w n : Nat) : ofInt w n = toLE w (n % Nat.pow 256 w) := by
  rw [ofInt, ← Int.natCast_emod, Int.toNat_natCast]

theorem pow_succ_even (w : Nat) : Nat.pow 256 (w + 1) = 2 * (Nat.pow 256 (w + 1) / 2) := by
  have : Nat.pow 256 (w + 1) = Nat.pow 256 w * 256 := rfl
  omega

/-- A number in two's complement is read back from its bytes. -/
theorem signed_ofLE_ofInt {w : Nat} {i : Int} (low : -(Nat.pow 256 w / 2 : Nat) ≤ i)
    (high : i < (Nat.pow 256 w / 2 : Nat)) : signed w (ofLE (ofInt w i)) = i := by
  have read := ofLE_ofInt w i
  generalize ofLE (ofInt w i) = n at read
  unfold signed
  by_cases neg : i < 0
  · have wrapped : i % (Nat.pow 256 w : Nat) = i + (Nat.pow 256 w : Nat) := by
      rw [← Int.add_emod_right]
      exact Int.emod_eq_of_lt (by omega) (by omega)
    rw [if_neg (by omega)]
    omega
  · rw [Int.emod_eq_of_lt (by omega) (by omega)] at read
    rw [if_pos (by omega)]
    exact read

theorem signed_range {w n : Nat} (small : n < Nat.pow 256 (w + 1)) :
    -(Nat.pow 256 (w + 1) / 2 : Nat) ≤ signed (w + 1) n ∧ signed (w + 1) n < (Nat.pow 256 (w + 1) / 2 : Nat) := by
  have even := pow_succ_even w
  unfold signed
  split <;> omega

theorem ofInt_signed {w n : Nat} (small : n < Nat.pow 256 w) : ofInt w (signed w n) = toLE w n := by
  have wrapped : signed w n % (Nat.pow 256 w : Nat) = n := by
    unfold signed
    split
    · exact Int.emod_eq_of_lt (by omega) (by omega)
    · rw [Int.sub_emod_right]
      exact Int.emod_eq_of_lt (by omega) (by omega)
  rw [ofInt, wrapped, Int.toNat_natCast]

end Bytes

namespace Field

theorem width_pos (f : Field) : 0 < f.width := by
  cases f <;> decide

theorem packInt_eq_ok {f : Field} {i : Int} (low : f.least ≤ i) (high : i < f.limit) :
    f.packInt i = .ok (Bytes.ofInt f.width i) := by
  rw [packInt, if_pos ⟨low, high⟩]

theorem unpackInt_ofInt {f : Field} {i : Int} (low : f.least ≤ i) (high : i < f.limit) :
    f.unpackInt (Bytes.ofInt f.width i) = i := by
  unfold unpackInt
  cases signed : f.isSigned with
  | true =>
      simp only [least, limit, signed, if_true] at low high
      exact Bytes.signed_ofLE_ofInt low high
  | false =>
      simp only [least, limit, signed, Bool.false_eq_true, if_false] at low high
      simp only [Bool.false_eq_true, if_false, Bytes.ofLE_ofInt]
      exact Int.emod_eq_of_lt low high

theorem unpackInt_range {f : Field} {b : Bytes} (length : b.length = f.width) :
    f.least ≤ f.unpackInt b ∧ f.unpackInt b < f.limit := by
  have small := Bytes.ofLE_lt b
  rw [length] at small
  obtain ⟨w, width⟩ := Nat.exists_eq_succ_of_ne_zero (Nat.ne_of_gt f.width_pos)
  unfold unpackInt least limit
  rw [width] at small ⊢
  split
  · exact Bytes.signed_range small
  · omega

theorem ofInt_unpackInt {f : Field} {b : Bytes} (length : b.length = f.width) :
    Bytes.ofInt f.width (f.unpackInt b) = b := by
  have small := Bytes.ofLE_lt b
  rw [unpackInt, ← length]
  split
  · rw [Bytes.ofInt_signed small, Bytes.toLE_ofLE]
  · rw [Bytes.ofInt_natCast, Nat.mod_eq_of_lt small, Bytes.toLE_ofLE]

theorem packInt_unpackInt {f : Field} {b : Bytes} (length : b.length = f.width) :
    f.packInt (f.unpackInt b) = .ok b := by
  obtain ⟨low, high⟩ := unpackInt_range length
  rw [packInt_eq_ok low high, ofInt_unpackInt length]

end Field

theorem Single.toBytes_ofBytes {b : Bytes} (length : b.length = 4) : (Single.ofBytes b).toBytes = b := by
  have small := Bytes.ofLE_lt b
  rw [length] at small
  rw [Single.toBytes, Single.ofBytes, UInt32.toNat_ofNat_of_lt' small, ← length, Bytes.toLE_ofLE]

theorem Single.ofBytes_toBytes (x : Single) : Single.ofBytes x.toBytes = x := by
  have small : x.bits.toNat < Nat.pow 256 4 := x.bits.toNat_lt
  rw [Single.ofBytes, Single.toBytes, Bytes.ofLE_toLE, Nat.mod_eq_of_lt small, UInt32.ofNat_toNat]

/-- The value is no NaN. -/
def Value.IsNumber : Value → Prop
  | .real x => x.isNaN = false
  | _ => True

instance (v : Value) : Decidable v.IsNumber :=
  match v with
  | .real x => inferInstanceAs (Decidable (x.isNaN = false))
  | .null | .bool _ | .int _ | .text _ | .blob _ | .list _ => isTrue trivial

theorem Field.pack_real (x : Double) : Field.f32.pack (.real x) = packReal x := rfl

theorem Field.pack_int {f : Field} (integer : f ≠ .f32) (n : Int) : f.pack (.int n) = f.packInt n := by
  cases f with
  | f32 => exact absurd rfl integer
  | _ => rfl

theorem Field.packReal_widen {x : Single} (finite : x.reading ≠ .nan) : packReal x.widen = .ok x.toBytes := by
  rw [packReal, Single.narrow_widen finite]

theorem Field.unpack_int {f : Field} (integer : f ≠ .f32) (b : Bytes) : f.unpack b = .int (f.unpackInt b) := by
  cases f with
  | f32 => exact absurd rfl integer
  | _ => rfl

theorem Field.pack_unpack {f : Field} {b : Bytes} (length : b.length = f.width) (number : (f.unpack b).IsNumber) :
    f.pack (f.unpack b) = .ok b := by
  by_cases integer : f = .f32
  · subst integer
    have finite : (Single.ofBytes b).reading ≠ .nan := by
      intro nan
      have absent : (Single.ofBytes b).widen.isNaN = false := number
      rw [(Single.isNaN_widen _).mpr nan] at absent
      cases absent
    rw [show Field.f32.unpack b = .real (Single.ofBytes b).widen from rfl, pack_real, packReal_widen finite,
      Single.toBytes_ofBytes length]
  · rw [unpack_int integer, pack_int integer, packInt_unpackInt length]

end GameData
