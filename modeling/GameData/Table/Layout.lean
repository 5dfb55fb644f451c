import GameData.Bytes.Field

/-!
Tables of packed records.

A `Shape` tells how the bytes of a record are divided; `Shape.table` cuts a byte string into records of one
shape. `Shape.encode` puts a record back into bytes.
-/
namespace GameData.Table

/-- The layout of a record or a part of one. -/
inductive Shape where
  | field (f : Field)
  /-- A text of fixed size, filled up with zero bytes. -/
  | text (size : Nat)
  /-- A run of equal parts. -/
  | many (count : Nat) (s : Shape)
  | group (parts : List Shape)
  deriving Inhabited

/-- The contents of a record or a part of one. -/
inductive Datum where
  | int (n : Int)
  | real (x : Single)
  | text (b : Bytes)
  | list (items : List Datum)
  deriving Inhabited

namespace Datum

/-- The part of a record at a position. -/
def part (d : Datum) (n : Nat) : Datum :=
  match d with
  | .list items => items.getD n (.int 0)
  | d => d

def toInt : Datum → Int
  | .int n => n
  | _ => 0

def items : Datum → List Datum
  | .list items => items
  | _ => []

end Datum

namespace Shape

mutual

/-- The number of bytes. -/
def size : Shape → Nat
  | .field f => f.width
  | .text n => n
  | .many count s => count * s.size
  | .group parts => sizes parts

def sizes : List Shape → Nat
  | [] => 0
  | s :: ss => s.size + sizes ss

end

mutual

/-- The contents of the bytes at the front of a string. -/
def decode : Shape → Bytes → Datum
  | .field .f32, b => .real (Single.ofBytes (b.take 4))
  | .field f, b => .int (f.unpackInt (b.take f.width))
  | .text n, b => .text (Bytes.trimZeros (b.take n))
  | .many count s, b => .list ((List.range count).map fun i => s.decode (b.drop (i * s.size)))
  | .group parts, b => .list (decodeParts parts b)

def decodeParts : List Shape → Bytes → List Datum
  | [], _ => []
  | s :: ss, b => s.decode b :: decodeParts ss (b.drop s.size)

end

mutual

/-- The bytes of a record. -/
def encode : Shape → Datum → Bytes
  | .field .f32, .real x => x.toBytes
  | .field f, .int n => Bytes.ofInt f.width n
  | .text n, .text b => b ++ Bytes.zeros (n - b.length)
  | .many count s, .list items => ((List.range count).map fun i => s.encode (items.getD i (.int 0))).flatten
  | .group parts, .list items => encodeParts parts items
  | _, _ => []

def encodeParts : List Shape → List Datum → Bytes
  | s :: ss, d :: ds => s.encode d ++ encodeParts ss ds
  | _, _ => []

end

/-- The records of a string, which must consist of whole records. -/
def table (s : Shape) (b : Bytes) : Except Fault (List Datum) :=
  if b.length % s.size = 0 then .ok ((Bytes.chunks s.size b).map s.decode)
  else .error (.value .raggedTable)

end Shape

def u8 : Shape := .field .u8
def i8 : Shape := .field .i8
def u16 : Shape := .field .u16
def i16 : Shape := .field .i16
def u32 : Shape := .field .u32
def i32 : Shape := .field .i32
def f32 : Shape := .field .f32

/-- A record whose first parts are of one shape, and so on: `n` parts of each shape. -/
def runs (parts : List (Nat × Shape)) : Shape := .group (parts.flatMap fun (n, s) => List.replicate n s)

end GameData.Table
