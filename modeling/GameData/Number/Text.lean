import GameData.Number.Shortest

/-!
Numbers as text: the shortest digits, positionally where the number is neither very large nor very small, and
with an exponent of at least two digits elsewhere.
-/
namespace GameData

namespace Decimal

def digitText (ds : List Nat) : String := String.ofList (ds.map fun d => Char.ofNat (48 + d))

/-- `12.5`, `1200.0`, `0.0012`: at least one digit on both sides of the point. -/
def positional (d : Decimal) : String :=
  if 0 ≤ d.exponent then
    let whole := d.exponent.toNat + 1
    let padded := d.digits ++ List.replicate (whole - d.digits.length) 0
    let fraction := padded.drop whole
    digitText (padded.take whole) ++ "." ++ (if fraction.isEmpty then "0" else digitText fraction)
  else
    "0." ++ digitText (List.replicate (d.exponent.natAbs - 1) 0 ++ d.digits)

/-- `1.25e+17`, `1e-05`. -/
def scientific (d : Decimal) : String :=
  let mantissa :=
    match d.digits with
    | [] => "0"
    | [x] => digitText [x]
    | x :: xs => digitText [x] ++ "." ++ digitText xs
  let size := toString d.exponent.natAbs
  mantissa ++ "e" ++ (if d.exponent < 0 then "-" else "+") ++ (if size.length < 2 then "0" ++ size else size)

end Decimal

/-- The text of a number from the text of its magnitude. -/
def Format.Reading.text (r : Format.Reading) (magnitude : Nat → String) : String :=
  match r with
  | .nan => "nan"
  | .infinite negative => if negative then "-inf" else "inf"
  | .finite negative units => (if negative then "-" else "") ++ (if units = 0 then "0.0" else magnitude units)

/-- Positional when the first digit stands between the places `10 ^ (-4)` and `10 ^ 15`. -/
def Double.text (x : Double) : String :=
  x.reading.text fun units =>
    let d := Decimal.shortest .double units
    if -4 ≤ d.exponent ∧ d.exponent < 16 then d.positional else d.scientific

/-- Positional when the number itself is at least `10 ^ (-4)` and below `10 ^ 16`. -/
def Single.text (x : Single) : String :=
  x.reading.text fun units =>
    let d := Decimal.shortest .single units
    let one := Nat.pow 2 Format.single.scale
    if one ≤ units * 10000 ∧ units < 10000000000000000 * one then d.positional else d.scientific

end GameData
