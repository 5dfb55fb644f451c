import GameData.Fault
import GameData.Value

/-!
Fields of packed records.

`Field.pack` accepts what fits the field and names the reason when a value does not; `Field.unpack` reads the
bytes of one field.
-/
namespace GameData

inductive Field where
  | u8 | i8 | u16 | i16 | u32 | i32 | f32 | long
  deriving DecidableEq

namespace Field

def width : Field → Nat
  | .u8 | .i8 => 1
  | .u16 | .i16 => 2
  | .u32 | .i32 | .f32 | .long => 4

def isSigned : Field → Bool
  | .i8 | .i16 | .i32 => true
  | _ => false

def range : Field → FieldRange
  | .u8 => .byte
  | .i8 => .sbyte
  | .u16 => .short
  | .i16 => .sshort
  | .u32 | .f32 => .word
  | .i32 => .sword
  | .long => .long

/-- The smallest integer of the field. -/
def least (f : Field) : Int := if f.isSigned then -(Nat.pow 256 f.width / 2 : Nat) else 0

/-- One more than the largest integer of the field. -/
def limit (f : Field) : Int := if f.isSigned then (Nat.pow 256 f.width / 2 : Nat) else (Nat.pow 256 f.width : Nat)

/-- Integers that a machine word cannot hold fail differently from those that only the field cannot hold. The
unsigned words count from zero, the others from the least signed word. -/
def inMachineRange (f : Field) (i : Int) : Bool :=
  match f with
  | .u32 | .long => decide (0 ≤ i ∧ i < 0x10000000000000000)
  | _ => decide (-(0x8000000000000000) ≤ i ∧ i < 0x8000000000000000)

def packInt (f : Field) (i : Int) : Except Fault Bytes :=
  if f.least ≤ i ∧ i < f.limit then .ok (Bytes.ofInt f.width i)
  else if f.inMachineRange i then .error (.record (.range f.range))
  else .error (.record .magnitude)

def packReal (x : Double) : Except Fault Bytes :=
  match x.narrow? with
  | some y => .ok y.toBytes
  | none => .error .overflow

/-- A number field takes integers too; an integer field takes integers only. -/
def pack (f : Field) (v : Value) : Except Fault Bytes :=
  match f, v with
  | .f32, .real x => packReal x
  | .f32, .int n =>
    match Double.ofInt? n with
    | some x => packReal x
    | none => .error (.record .notNumber)
  | .f32, .bool b => packReal (if b then ⟨0x3ff0000000000000⟩ else ⟨0⟩)
  | .f32, _ => .error (.record .notNumber)
  | _, .int n => f.packInt n
  | _, .bool b => f.packInt (if b then 1 else 0)
  | _, _ => .error (.record .notInteger)

/-- Packs values into fields of one kind; there must be `count` of them. -/
def packMany (f : Field) (count : Nat) (vs : List Value) : Except Fault Bytes :=
  if vs.length = count then (vs.mapM f.pack).map List.flatten
  else .error (.record (.count count vs.length))

/-- The integer in the bytes of a field. -/
def unpackInt (f : Field) (b : Bytes) : Int :=
  if f.isSigned then Bytes.signed f.width (Bytes.ofLE b) else Bytes.ofLE b

/-- The value in the bytes of a field. -/
def unpack (f : Field) (b : Bytes) : Value :=
  match f with
  | .f32 => .real (Single.ofBytes b).widen
  | _ => .int (f.unpackInt b)

end Field

namespace Bytes

/-- The bytes, if there are exactly `n`. -/
def exactly (n : Nat) (b : Bytes) : Except Fault Bytes :=
  if b.length = n then .ok b else .error (.record (.size n))

/-- The most bytes that can be asked for at once. -/
def readLimit : Nat := 0x8000000000000000 - 1

/-- The first `n` bytes, fewer when the string ends before. -/
def read (n : Nat) (b : Bytes) : Except Fault Bytes :=
  if n ≤ readLimit then .ok (b.take n) else .error .overflow

/-- The 32-bit words of a string that must consist of `n` of them. -/
def words32 (n : Nat) (b : Bytes) : Except Fault (List Nat) := (exactly (4 * n) b).map (words 4)

/-- What saving gives where a format is never written: no fault, and no file. -/
def unwritten : Except Fault (Option Bytes) := .ok none

end Bytes

end GameData
