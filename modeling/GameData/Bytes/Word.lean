/-!
Byte strings and little-endian words.

`toLE w n` is the `w`-byte word of `n` and `ofLE` reads a word back; `ofLE_toLE` and `toLE_ofLE` say that the
two agree on words of one width. Every multi-byte field of every file format below is such a word.
-/
namespace GameData

/-- The contents of a file, or of a part of one. -/
abbrev Bytes := List UInt8

namespace Bytes

/-- The `w` little-endian bytes of `n`; what exceeds them is dropped. -/
def toLE : Nat → Nat → Bytes
  | 0, _ => []
  | w + 1, n => UInt8.ofNat (n % 256) :: toLE w (n / 256)

/-- The number with the given little-endian bytes. -/
def ofLE : Bytes → Nat
  | [] => 0
  | b :: bs => b.toNat + 256 * ofLE bs

@[simp] theorem length_toLE (w n : Nat) : (toLE w n).length = w := by
  induction w generalizing n with
  | zero => rfl
  | succ w ih => simp [toLE, ih]

theorem ofLE_lt (b : Bytes) : ofLE b < Nat.pow 256 b.length := by
  induction b with
  | nil => exact Nat.one_pos
  | cons x xs ih =>
    have hx := x.toNat_lt
    change x.toNat + 256 * ofLE xs < Nat.pow 256 xs.length * 256
    omega

theorem ofLE_toLE (w n : Nat) : ofLE (toLE w n) = n % Nat.pow 256 w := by
  induction w generalizing n with
  | zero => exact (Nat.mod_one n).symm
  | succ w ih =>
    have h : (UInt8.ofNat (n % 256)).toNat = n % 256 := Nat.mod_mod n 256
    change (UInt8.ofNat (n % 256)).toNat + 256 * ofLE (toLE w (n / 256)) = n % (Nat.pow 256 w * 256)
    rw [h, ih, Nat.mul_comm (Nat.pow 256 w), Nat.mod_mul]

theorem toLE_ofLE (b : Bytes) : toLE b.length (ofLE b) = b := by
  induction b with
  | nil => rfl
  | cons x xs ih =>
    have hx : x.toNat < 256 := x.toNat_lt
    have hm : (x.toNat + 256 * ofLE xs) % 256 = x.toNat := by omega
    have hd : (x.toNat + 256 * ofLE xs) / 256 = ofLE xs := by omega
    simp only [List.length_cons, ofLE, toLE, hm, hd, ih, UInt8.ofNat_toNat]

/-- The `n` bytes from offset `off` on, fewer when the string ends before. -/
def slice (b : Bytes) (off n : Nat) : Bytes := (b.drop off).take n

theorem length_slice_le (b : Bytes) (off n : Nat) : (b.slice off n).length ≤ n := by
  simp only [slice, List.length_take]
  omega

/-- The 16-bit word at an offset. -/
def u16 (b : Bytes) (off : Nat) : Nat := ofLE (b.slice off 2)

/-- The 32-bit word at an offset. -/
def u32 (b : Bytes) (off : Nat) : Nat := ofLE (b.slice off 4)

/-- The number in two's complement with `w` bytes. -/
def signed (w n : Nat) : Int :=
  if n < Nat.pow 256 w / 2 then n else (n : Int) - (Nat.pow 256 w : Nat)

/-- The signed 32-bit word at an offset. -/
def i32 (b : Bytes) (off : Nat) : Int := signed 4 (b.u32 off)

/-- The `w`-byte word of an integer in two's complement. -/
def ofInt (w : Nat) (i : Int) : Bytes := toLE w (i % (Nat.pow 256 w : Nat)).toNat

/-- The four-letter mark or any other ASCII text as bytes. -/
def ofText (s : String) : Bytes := s.toUTF8.toList

/-- The words of `w` bytes that the string consists of; a shorter tail is left out. -/
def words (w : Nat) (b : Bytes) : List Nat :=
  if _h : 0 < w ∧ w ≤ b.length then
    ofLE (b.take w) :: words w (b.drop w)
  else []
termination_by b.length
decreasing_by simp only [List.length_drop]; omega

/-- The string cut into records of `w` bytes; the last one may be shorter. -/
def chunks (w : Nat) (b : Bytes) : List Bytes :=
  if _h : 0 < w ∧ b ≠ [] then
    b.take w :: chunks w (b.drop w)
  else []
termination_by b.length
decreasing_by
  have : 0 < b.length := List.length_pos_iff.mpr _h.2
  simp only [List.length_drop]; omega

/-- The `n` zero bytes. -/
def zeros (n : Nat) : Bytes := List.replicate n 0

/-- The pieces between the occurrences of a separator; always at least one. -/
def splitOn (sep : UInt8) : Bytes → List Bytes
  | [] => [[]]
  | x :: xs =>
    if x = sep then [] :: splitOn sep xs
    else match splitOn sep xs with
      | [] => [[x]]
      | p :: ps => (x :: p) :: ps

/-- The string without the zero bytes at its end. -/
def trimZeros (b : Bytes) : Bytes := (b.reverse.dropWhile (· == 0)).reverse

end Bytes

end GameData
