import GameData.Bytes.Word

/-!
Binary floating-point numbers as bit patterns.

A format has a precision and an exponent width. Each finite number of a format is a whole number of units, the
unit being the smallest positive number of the format, so that all arithmetic here is exact until `Format.round`
puts a fraction back into the format, to the nearest number and to the even one in a tie.
-/
namespace GameData

/-- A binary interchange format. -/
structure Format where
  precision : Nat
  exponentBits : Nat
  deriving DecidableEq

namespace Format

def single : Format := ⟨24, 8⟩
def double : Format := ⟨53, 11⟩

/-- The smallest positive number is `2 ^ (-scale)`. -/
def scale (f : Format) : Nat := Nat.pow 2 (f.exponentBits - 1) - 3 + f.precision

/-- The bits of positive infinity. -/
def infinity (f : Format) : Nat := (Nat.pow 2 f.exponentBits - 1) * Nat.pow 2 (f.precision - 1)

/-- The bits of negative zero. -/
def signBit (f : Format) : Nat := Nat.pow 2 (f.exponentBits + f.precision - 1)

/-- What a bit pattern stands for; a finite number is given in units. -/
inductive Reading where
  | finite (negative : Bool) (units : Nat)
  | infinite (negative : Bool)
  | nan
  deriving DecidableEq

def read (f : Format) (bits : Nat) : Reading :=
  let negative := decide (f.signBit ≤ bits)
  let body := bits % f.signBit
  if f.infinity < body then .nan
  else if body = f.infinity then .infinite negative
  else
    let exponent := body / Nat.pow 2 (f.precision - 1)
    let fraction := body % Nat.pow 2 (f.precision - 1)
    if exponent = 0 then .finite negative fraction
    else .finite negative ((Nat.pow 2 (f.precision - 1) + fraction) * Nat.pow 2 (exponent - 1))

/-- The whole number nearest to `num / den`, the even one in a tie. -/
def nearest (num den : Nat) : Nat :=
  let q := num / den
  let r := num % den
  if 2 * r < den then q
  else if den < 2 * r then q + 1
  else if q % 2 = 0 then q else q + 1

/-- The bits of the number of the format nearest to `num / den`; they are those of infinity or more when the
fraction exceeds the format. -/
def roundBody (f : Format) (num den : Nat) : Nat :=
  let scaled := num * Nat.pow 2 f.scale
  let units := scaled / den
  if units < Nat.pow 2 f.precision then nearest scaled den
  else
    let shift := units.log2 + 1 - f.precision
    shift * Nat.pow 2 (f.precision - 1) + nearest scaled (den * Nat.pow 2 shift)

/-- The bits of the signed fraction, infinity when it exceeds the format. -/
def round (f : Format) (negative : Bool) (num den : Nat) : Nat :=
  min (f.roundBody num den) f.infinity + (if negative then f.signBit else 0)

/-- The same, or nothing when the fraction exceeds the format. -/
def round? (f : Format) (negative : Bool) (num den : Nat) : Option Nat :=
  if f.roundBody num den < f.infinity then
    some (f.roundBody num den + (if negative then f.signBit else 0))
  else none

end Format

/-- A 32-bit floating-point number. -/
structure Single where
  bits : UInt32
  deriving DecidableEq, Inhabited

/-- A 64-bit floating-point number. -/
structure Double where
  bits : UInt64
  deriving DecidableEq, Inhabited

namespace Single

def reading (x : Single) : Format.Reading := Format.single.read x.bits.toNat

/-- The number with the given four little-endian bytes. -/
def ofBytes (b : Bytes) : Single := ⟨UInt32.ofNat (Bytes.ofLE b)⟩

def toBytes (x : Single) : Bytes := Bytes.toLE 4 x.bits.toNat

/-- The same number in the wider format. Of a NaN the sign and the leading payload bits are kept, and it is
made quiet. -/
def widen (x : Single) : Double :=
  match x.reading with
  | .finite negative units =>
    ⟨UInt64.ofNat (Format.double.round negative units (Nat.pow 2 Format.single.scale))⟩
  | .infinite negative =>
    ⟨UInt64.ofNat (Format.double.infinity + if negative then Format.double.signBit else 0)⟩
  | .nan =>
    let sign := x.bits.toNat / 0x80000000
    let payload := x.bits.toNat % 0x400000
    ⟨UInt64.ofNat (sign * 0x8000000000000000 + 0x7ff8000000000000 + payload * 0x20000000)⟩

end Single

namespace Double

def reading (x : Double) : Format.Reading := Format.double.read x.bits.toNat

def isNaN (x : Double) : Bool := x.reading == .nan

/-- The nearest number of the narrower format, nothing when that format has none so large. -/
def narrow? (x : Double) : Option Single :=
  match x.reading with
  | .finite negative units =>
    (Format.single.round? negative units (Nat.pow 2 Format.double.scale)).map fun b => ⟨UInt32.ofNat b⟩
  | .infinite negative =>
    some ⟨UInt32.ofNat (Format.single.infinity + if negative then Format.single.signBit else 0)⟩
  | .nan =>
    let sign := x.bits.toNat / 0x8000000000000000
    let payload := x.bits.toNat % 0x8000000000000 / 0x20000000
    some ⟨UInt32.ofNat (sign * 0x80000000 + 0x7fc00000 + payload)⟩

/-- The number nearest to an integer, nothing when it exceeds the format. -/
def ofInt? (i : Int) : Option Double :=
  (Format.double.round? (decide (i < 0)) i.natAbs 1).map fun b => ⟨UInt64.ofNat b⟩

/-- The number nearest to `± digits * 10 ^ exponent`. -/
def ofDecimal (negative : Bool) (digits : Nat) (exponent : Int) : Double :=
  let bits :=
    if 0 ≤ exponent then Format.double.round negative (digits * Nat.pow 10 exponent.toNat) 1
    else Format.double.round negative digits (Nat.pow 10 exponent.natAbs)
  ⟨UInt64.ofNat bits⟩

def nan : Double := ⟨0x7ff8000000000000⟩

def infinity (negative : Bool) : Double :=
  ⟨UInt64.ofNat (Format.double.infinity + if negative then Format.double.signBit else 0)⟩

/-- The exact value in units with its sign; nothing for infinities and NaN. -/
def units? (x : Double) : Option Int :=
  match x.reading with
  | .finite negative units => some (if negative then -(units : Int) else units)
  | _ => none

/-- The whole number the value is, if it is one. -/
def toInt? (x : Double) : Option Int :=
  match x.units? with
  | some u => if u % (Nat.pow 2 Format.double.scale : Nat) = 0 then some (u / (Nat.pow 2 Format.double.scale : Nat)) else none
  | none => none

/-- The integer the value is cut to, if it is finite. -/
def truncate? (x : Double) : Option Int :=
  x.units?.map fun u => u.tdiv (Nat.pow 2 Format.double.scale : Nat)

/-- The integer nearest to the value, the even one in a tie, if it is finite. -/
def nearestInt? (x : Double) : Option Int :=
  x.units?.map fun u =>
    let n : Int := Format.nearest u.natAbs (Nat.pow 2 Format.double.scale)
    if u < 0 then -n else n

/-- Below zero; false for NaN and for both zeros. -/
def isNegative (x : Double) : Bool :=
  match x.reading with
  | .finite negative units => negative && units != 0
  | .infinite negative => negative
  | .nan => false

/-- Above zero; false for NaN and for both zeros. -/
def isPositive (x : Double) : Bool :=
  match x.reading with
  | .finite negative units => !negative && units != 0
  | .infinite negative => !negative
  | .nan => false

/-- Zero of either sign. -/
def isZero (x : Double) : Bool :=
  match x.reading with
  | .finite _ units => units == 0
  | _ => false

/-- An integer plus a number, rounded once; infinities and NaN stay what they are. -/
def addInt (i : Int) (x : Double) : Double :=
  match x.units? with
  | some u =>
    let sum := i * (Nat.pow 2 Format.double.scale : Nat) + u
    ⟨UInt64.ofNat (Format.double.round (decide (sum < 0)) sum.natAbs (Nat.pow 2 Format.double.scale))⟩
  | none => x

end Double

end GameData
