import GameData.Bytes.Field

/-!
Terrain maps that consist of squares.

A height map and a mask have a table of 256 squares in front, three words each, and then the data of the
squares one after another; a light map has the side of each square right before its data. Reading stops at the
first fault; the squares read before it are kept.
-/
namespace GameData.Terrain

/-- A square of a map: two words of unknown meaning, its side, and its data. -/
structure Square where
  unknown0 : Int
  unknown1 : Int
  side : Int
  data : Bytes
  deriving DecidableEq, Inhabited

/-- The number of squares in a table. -/
def tableLength : Nat := 256

/-- The size of the table in front of a map. -/
def tableSize : Nat := 12 * tableLength

/-- The words of the table, which may be shorter than it should be. -/
def tableWords (data : Bytes) : Except Fault (List Nat) :=
  let head := data.take tableSize
  if head.length % 4 = 0 then .ok (Bytes.words 4 head) else .error (.value .raggedWords)

/-- Up to `count` squares from the words of their table and their data, `area side` bytes each, and what is left
of the data. -/
def readSquares (area : Nat → Nat) : Nat → List Nat → Bytes → List Square × Except Fault Bytes
  | 0, _, rest => ([], .ok rest)
  | count + 1, a :: b :: side :: words, rest =>
    match Bytes.read (area side) rest with
    | .error f => ([], .error f)
    | .ok data =>
      let (more, outcome) := readSquares area count words (rest.drop (area side))
      (⟨a, b, side, data⟩ :: more, outcome)
  | _ + 1, _, _ => ([], .error (.index .array))

/-- The bytes of the table and then of the data. -/
def writeSquares (squares : List Square) : Except Fault Bytes := do
  let heads ← squares.mapM fun s => do
    let a ← Field.u32.packInt s.unknown0
    let b ← Field.u32.packInt s.unknown1
    let c ← Field.u32.packInt s.side
    .ok (a ++ b ++ c)
  .ok (heads.flatten ++ (squares.map (·.data)).flatten)

namespace Heights

/-- A square of side `n` has a height at each of its `(n + 1) * (n + 1)` corners, a byte each. -/
def area (side : Nat) : Nat := (side + 1) * (side + 1)

/-- Adds the squares of a file to those there are; nothing may follow the last one. -/
def load (data : Bytes) (squares : List Square) : Except Fault Unit × List Square :=
  match tableWords data with
  | .error f => (.error f, squares)
  | .ok words =>
    let (added, outcome) := readSquares area tableLength words (data.drop tableSize)
    let outcome : Except Fault Unit :=
      match outcome with
      | .error f => .error f
      | .ok rest => if rest.isEmpty then .ok () else .error (.check .endOfFile)
    (outcome, squares ++ added)

def save (squares : List Square) : Except Fault Bytes := writeSquares squares

/-- Every height of a square with a side becomes zero. -/
def flatten (squares : List Square) : List Square :=
  squares.map fun s => if s.side = 0 then s else { s with data := Bytes.zeros s.data.length }

end Heights

namespace Masks

/-- The number with the bits of a byte in the opposite order. -/
def reverseBits (b : UInt8) : UInt8 :=
  (List.range 8).foldl (fun acc i => acc * 2 + (b >>> UInt8.ofNat i) % 2) 0

/-- A square of side `n` has a bit for each of its `n * n` points. -/
def area (side : Nat) : Nat := side * side / 8

/-- Replaces the squares by those of a file, the bits of each byte reversed. -/
def load (data : Bytes) (squares : Option (List Square)) : Except Fault Unit × Option (List Square) :=
  match tableWords data with
  | .error f => (.error f, squares)
  | .ok words =>
    let (read, outcome) := readSquares area tableLength words (data.drop tableSize)
    (outcome.map fun _ => (), some (read.map fun s => { s with data := s.data.map reverseBits }))

/-- A mask file is made, but none of the squares are written to it. -/
def save (_squares : Option (List Square)) : Except Fault Bytes := .ok []

/-- The binary digits of an integer, a minus sign's mark included. -/
def binaryDigits (n : Int) : List Char :=
  if n < 0 then 'b' :: Nat.toDigits 2 n.natAbs else Nat.toDigits 2 n.toNat

/-- Reverses the bits of a number, taken as at least eight, and gives them back as a byte. -/
def reverseBitsOf (n : Int) : Except Fault Nat :=
  let digits := binaryDigits n
  let padded := List.replicate (8 - digits.length) '0' ++ digits
  let reversed := padded.reverse
  if n < 0 then .error (.value (.binaryNumeral (String.ofList reversed)))
  else
    let m : Nat := reversed.foldl (fun acc c => acc * 2 + (c.toNat - '0'.toNat)) 0
    (Field.u8.packInt m).map fun _ => m

end Masks

/-- A square of a light map. -/
structure LightSquare where
  side : Int := 0
  data : Bytes := []
  deriving DecidableEq, Inhabited

namespace Lights

/-- The squares of a file. -/
def readAll (data : Bytes) : List LightSquare × Except Fault Unit :=
  match _h : data with
  | [] => ([], .ok ())
  | _ :: _ =>
    if 4 ≤ data.length then
      let side := Bytes.ofLE (data.take 4)
      match Bytes.read (side * side) (data.drop 4) with
      | .error f => ([], .error f)
      | .ok pixels =>
        let (more, outcome) := readAll (data.drop (4 + side * side))
        (⟨side, pixels⟩ :: more, outcome)
    else ([], .error (.record (.size 4)))
termination_by data.length
decreasing_by simp only [_h, List.length_drop, List.length_cons]; omega

/-- Adds the squares of a file to those there are. -/
def load (data : Bytes) (squares : List LightSquare) : Except Fault Unit × List LightSquare :=
  let (added, outcome) := readAll data
  (outcome, squares ++ added)

def save (squares : List LightSquare) : Except Fault Bytes := do
  let parts ← squares.mapM fun s => do
    let head ← Field.u32.packInt s.side
    .ok (head ++ s.data)
  .ok parts.flatten

/-- Every pixel of a square with a side becomes zero. -/
def flatten (squares : List LightSquare) : List LightSquare :=
  squares.map fun s => if s.side = 0 then s else { s with data := Bytes.zeros s.data.length }

end Lights

end GameData.Terrain
