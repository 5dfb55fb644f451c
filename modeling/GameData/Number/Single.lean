import GameData.Number.Binary

/-!
Arithmetic of 32-bit floating-point numbers, each result rounded once to the nearest number.
-/
namespace GameData.Single

def zero (negative : Bool) : Single := ⟨if negative then 0x80000000 else 0⟩
def infinity (negative : Bool) : Single := ⟨if negative then 0xff800000 else 0x7f800000⟩
def nan : Single := ⟨0x7fc00000⟩

/-- The number nearest to a signed fraction. -/
def ofFraction (negative : Bool) (num den : Nat) : Single :=
  ⟨UInt32.ofNat (Format.single.round negative num den)⟩

def ofNat (n : Nat) : Single := ofFraction false n 1

def signed (negative : Bool) (units : Nat) : Int := if negative then -(units : Int) else units

def add (x y : Single) : Single :=
  match x.reading, y.reading with
  | .nan, _ | _, .nan => nan
  | .infinite a, .infinite b => if a = b then x else nan
  | .infinite _, _ => x
  | _, .infinite _ => y
  | .finite a m, .finite b n =>
    let sum := signed a m + signed b n
    if sum = 0 then zero (a && b) else ofFraction (decide (sum < 0)) sum.natAbs (Nat.pow 2 Format.single.scale)

def mul (x y : Single) : Single :=
  match x.reading, y.reading with
  | .nan, _ | _, .nan => nan
  | .infinite a, .infinite b => infinity (a != b)
  | .infinite a, .finite b n => if n = 0 then nan else infinity (a != b)
  | .finite a m, .infinite b => if m = 0 then nan else infinity (a != b)
  | .finite a m, .finite b n => ofFraction (a != b) (m * n) (Nat.pow 2 (2 * Format.single.scale))

def div (x y : Single) : Single :=
  match x.reading, y.reading with
  | .nan, _ | _, .nan => nan
  | .infinite _, .infinite _ => nan
  | .infinite a, .finite b _ => infinity (a != b)
  | .finite a _, .infinite b => zero (a != b)
  | .finite a m, .finite b n =>
    if n = 0 then (if m = 0 then nan else infinity (a != b)) else ofFraction (a != b) m n

def abs (x : Single) : Single := ⟨x.bits &&& 0x7fffffff⟩

/-- Where a number stands in the order; infinities stand outside all others. -/
def rank? (x : Single) : Option Int :=
  match x.reading with
  | .nan => none
  | .infinite negative => some (signed negative (Nat.pow 2 300))
  | .finite negative units => some (signed negative units)

/-- The first of two numbers unless the other is better; a NaN prevails. -/
def choose (better : Int → Int → Bool) (x y : Single) : Single :=
  match x.rank?, y.rank? with
  | none, _ => x
  | _, none => y
  | some a, some b => if better b a then y else x

def minimum : Single → List Single → Single := List.foldl (choose fun a b => decide (a < b))

def maximum : Single → List Single → Single := List.foldl (choose fun a b => decide (b < a))

/-- The whole part as a byte; what no signed word holds gives zero. -/
def toByte (x : Single) : UInt8 :=
  match x.reading with
  | .finite negative units =>
    let whole := units / Nat.pow 2 Format.single.scale
    if whole < 0x80000000 then UInt8.ofNat ((signed negative whole) % 256).toNat else 0
  | _ => 0

end GameData.Single
