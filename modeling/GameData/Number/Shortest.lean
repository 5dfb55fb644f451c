import GameData.Number.Binary

/-!
The shortest decimal that reads back as a given floating-point number.

The reals that round to a number form an interval around it. For one, two, three and more digits the two
neighbours of the number on the decimal grid are tried; the first grid with a neighbour inside the interval
wins, the nearer of two, the even one in a tie.
-/
namespace GameData

/-- The decimal `digits * 10 ^ (exponent - (number of digits - 1))`: `exponent` is the place of the first digit. -/
structure Decimal where
  digits : List Nat
  exponent : Int
  deriving DecidableEq

namespace Decimal

/-- The decimal digits of a number, none for zero. -/
def digitsOf (n : Nat) : List Nat :=
  if n = 0 then [] else (Nat.toDigits 10 n).map fun c => c.toNat - '0'.toNat

/-- The decimal `n * 10 ^ place`, without zeros at its end. -/
def ofNat (n : Nat) (place : Int) : Decimal :=
  let ds := digitsOf n
  let kept := (ds.reverse.dropWhile (· == 0)).reverse
  ⟨kept, place + ds.length - 1⟩

/-- The place of the first digit of `num / den`, for positive `num` and `den`. -/
def leadingPlace (num den : Nat) : Int :=
  if den ≤ num then ((digitsOf (num / den)).length : Int) - 1
  else
    let guess := (digitsOf (den / num)).length - 1
    if den ≤ num * Nat.pow 10 guess then -(guess : Int) else -((guess : Int) + 1)

/-- The interval of the reals that round to one number, and the number, on a common integer scale
`2 ^ (-scale)`. -/
structure Neighbourhood where
  low : Nat
  value : Nat
  high : Nat
  closed : Bool
  scale : Nat

/-- The neighbourhood of a positive finite number of `units`. -/
def Neighbourhood.ofUnits (f : Format) (units : Nat) : Neighbourhood :=
  let step := if units < Nat.pow 2 f.precision then 1 else Nat.pow 2 (units.log2 + 1 - f.precision)
  let atBinade := decide (1 < step) && units == Nat.pow 2 units.log2
  { low := 4 * units - (if atBinade then step else 2 * step)
    value := 4 * units
    high := 4 * units + 2 * step
    closed := units / step % 2 == 0
    scale := f.scale + 2 }

/-- The neighbour of the number on the grid of multiples of `10 ^ place` that lies in the interval, if any. -/
def Neighbourhood.onGrid (n : Neighbourhood) (place : Int) : Option Nat :=
  let unit := Nat.pow 2 n.scale * (if 0 ≤ place then Nat.pow 10 place.toNat else 1)
  let factor := if 0 ≤ place then 1 else Nat.pow 10 place.natAbs
  let below := n.value * factor / unit
  let inside (c : Nat) : Bool :=
    if n.closed then n.low * factor ≤ c * unit && c * unit ≤ n.high * factor
    else n.low * factor < c * unit && c * unit < n.high * factor
  let down := n.value * factor - below * unit
  let up := (below + 1) * unit - n.value * factor
  match inside below, inside (below + 1) with
  | true, true =>
    if down < up then some below
    else if up < down then some (below + 1)
    else if below % 2 = 0 then some below else some (below + 1)
  | true, false => some below
  | false, true => some (below + 1)
  | false, false => none

/-- Tries `count`, `count + 1`, … digits, `fuel` times. -/
def Neighbourhood.search (n : Neighbourhood) (first : Int) : Nat → Nat → Decimal
  | 0, count => ofNat (n.value / Nat.pow 2 n.scale) (first - count)
  | fuel + 1, count =>
    let place := first - count
    match n.onGrid place with
    | some c => ofNat c place
    | none => n.search first fuel (count + 1)

/-- The shortest decimal of a positive finite number of `units`. Seventeen digits tell all doubles apart. -/
def shortest (f : Format) (units : Nat) : Decimal :=
  (Neighbourhood.ofUnits f units).search (leadingPlace units (Nat.pow 2 f.scale)) 18 0

end Decimal

end GameData
