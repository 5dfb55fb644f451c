import GameData.Loading
import GameData.Schema.Rule
import GameData.Script.Program

/-!
Compiled scripts as listings: the strings and the instructions by address.

A listing is read from front to back. The segments have to follow each other, and the header has to say where
each of them starts.
-/
namespace GameData.Script

namespace Mnemonic

/-- The rule for the operand of an instruction, if it has one. -/
def rule? : Mnemonic → Option Schema.Rule
  | .bra | .bf | .bt => some (.integer (some (-2147483648)) (some 2147483647) none)
  | .call => some .integers
  | .push => some (.integer (some 0) none (some 4294967296))
  | .pushsi | .pushii => some (.integer none none (some 4294967296))
  | .pushb | .pushsib | .pushiib => some (.integer none none (some 256))
  | .pushw | .pushsiw | .pushiiw => some (.integer none none (some 65536))
  | .pushf => some .real
  | _ => none

/-- The operand of an instruction that is built from named values; others than the operand do not matter. -/
def build (m : Mnemonic) (given : List (String × Value)) : Except Fault (List (String × Value)) :=
  match m.rule? with
  | some r => Schema.Rule.checkAll given [("value", r)]
  | none => .ok []

end Mnemonic

structure Instruction where
  address : Nat
  mnemonic : Mnemonic
  operand : Value

structure Listing where
  signature : Bytes
  majorVersion : Nat
  minorVersion : Nat
  firstReserved : Nat
  secondReserved : Nat
  identifiers : List String
  strings : List String
  instructions : List Instruction

namespace Listing

/-- The table of words of `size` bytes, which has to start at `offset`. -/
def readOffsets (data : Bytes) (position offset size : Nat) : Except Fault (List Int) := do
  ensure (position == offset) .displacedTable
  decodeOffsets ((data.drop position).take size)

/-- The strings in a segment of `size` bytes, each ended by a zero byte. -/
def readStrings (data : Bytes) (position offset size : Nat) : Except Fault (List String × Nat) := do
  ensure (position == offset) .displacedTable
  let segment := (data.drop position).take size
  let strings ← (Bytes.splitOn 0 segment).dropLast.mapM fun b =>
    match Utf8.decode b with
    | .ok s => .ok s
    | .error m => .error (.notUtf8 m)
  .ok (strings, position + segment.length)

/-- The instructions of version five by their numbers. -/
def codes5 : List (UInt8 × Mnemonic) :=
  [(0x00, .brk), (0x01, .nop), (0x02, .push), (0x03, .pushb), (0x04, .pushw), (0x05, .pushf),
   (0x06, .pusha), (0x07, .pushs), (0x08, .pushsi), (0x09, .pushsib), (0x0a, .pushsiw), (0x0b, .pushi),
   (0x0c, .pushii), (0x0d, .pushiib), (0x0e, .pushiiw), (0x0f, .push0), (0x10, .push1), (0x11, .pushm),
   (0x12, .pop), (0x13, .ret), (0x14, .bra), (0x15, .bf), (0x16, .bt), (0x17, .jsr),
   (0x18, .call), (0x19, .add), (0x1a, .sub), (0x1b, .mul), (0x1c, .div), (0x1d, .shl),
   (0x1e, .shr), (0x1f, .and), (0x20, .or), (0x21, .xor), (0x22, .land), (0x23, .lor),
   (0x24, .eq), (0x25, .ne), (0x26, .lt), (0x27, .le), (0x28, .gt), (0x29, .ge),
   (0x2a, .assign), (0x2b, .plus), (0x2c, .minus), (0x2d, .inv), (0x2e, .not), (0x2f, .blk),
   (0x30, .illegal)]

/-- The instructions of version seven by their numbers. -/
def codes7 : List (UInt8 × Mnemonic) :=
  [(0x01, .nop), (0x00, .brk), (0x02, .ret), (0x03, .bra), (0x04, .bf), (0x05, .bt),
   (0x06, .jsr), (0x07, .call), (0x08, .push), (0x09, .pushb), (0x0a, .pushw), (0x0b, .pushf),
   (0x0c, .pusha), (0x0d, .pushs), (0x0e, .pushsi), (0x0f, .pushsib), (0x10, .pushsiw), (0x11, .pushi),
   (0x12, .pushii), (0x13, .pushiib), (0x14, .pushiiw), (0x15, .push0), (0x16, .push1), (0x17, .pushm),
   (0x18, .pop), (0x19, .add), (0x1a, .sub), (0x1b, .mul), (0x1c, .div), (0x1d, .shl),
   (0x1e, .shr), (0x1f, .and), (0x20, .or), (0x21, .xor), (0x22, .land), (0x23, .lor),
   (0x24, .eq), (0x25, .ne), (0x26, .lt), (0x27, .le), (0x28, .gt), (0x29, .ge),
   (0x2a, .assign), (0x2b, .plus), (0x2c, .minus), (0x2d, .inv), (0x2e, .not), (0x2f, .blk),
   (0x30, .illegal)]

def codes? : Nat → Option (List (UInt8 × Mnemonic))
  | 5 => some codes5
  | 7 => some codes7
  | _ => none

/-- Instructions that a listing refuses. -/
def refused : List Mnemonic := [.nop, .ret, .bt, .jsr, .pusha, .pushs, .pushi, .blk, .illegal]

/-- The value of one field at the front of the string, and how many bytes it takes. -/
def readField (f : Field) (rest : Bytes) : Except Fault (Option Value × Nat) := do
  let b ← Bytes.exactly f.width (rest.take f.width)
  .ok (some (f.unpack b), f.width)

/-- The operand at the front of the string, if the instruction has one, and how many bytes it takes. -/
def readOperand (m : Mnemonic) (rest : Bytes) : Except Fault (Option Value × Nat) :=
  match m with
  | .push => readField .u32 rest
  | .pushb => readField .u8 rest
  | .pushw => readField .u16 rest
  | .pushf => readField .f32 rest
  | .pushsi => readField .u32 rest
  | .pushsib => readField .u8 rest
  | .pushsiw => readField .u16 rest
  | .pushii => readField .u32 rest
  | .pushiib => readField .u8 rest
  | .pushiiw => readField .u16 rest
  | .bra => readField .i32 rest
  | .bf => readField .i32 rest
  | .bt => readField .i32 rest
  | .call => do
    let count := Bytes.ofLE (← Bytes.exactly 4 (rest.take 4))
    let targets ← Bytes.exactly (4 * count) ((rest.drop 4).take (4 * count))
    .ok (some (.list ((Bytes.words 4 targets).map fun n => .int (Bytes.signed 4 n))), 4 + 4 * count)
  | _ => .ok (none, 0)

/-- The instruction with its operand, which has to satisfy the rule for it. -/
def construct (address : Nat) (m : Mnemonic) (operand : Option Value) : Except Fault Instruction := do
  let fields ← m.build (operand.toList.map ("value", ·))
  .ok ⟨address, m, (fields.lookup "value").getD .null⟩

/-- The instructions of a segment of `size` bytes, the first one at `address`. -/
def readInstructions (codes : List (UInt8 × Mnemonic)) (size address : Nat) (rest : Bytes) :
    Except Fault (List Instruction) :=
  if address < size then
    match rest with
    | [] => .error (.key (Literal.ofBytes []))
    | b :: bs =>
      match codes.lookup b with
      | none => .error (.key (Literal.ofBytes [b]))
      | some m =>
        if refused.contains m then .error (.value .tableFormat)
        else do
          let (operand, n) ← readOperand m bs
          let instruction ← construct address m operand
          let more ← readInstructions codes size (address + (n + 1)) (bs.drop n)
          .ok (instruction :: more)
  else .ok []
termination_by rest.length
decreasing_by simp only [List.length_drop, List.length_cons]; omega

/-- The header: four letters and fourteen words, one behind the other. -/
def readHeader (data : Bytes) : Except Fault Header := do
  let b ← Bytes.exactly 60 (data.take 60)
  match Bytes.words 4 (b.drop 4) with
  | [majorVersion, minorVersion, identifierOffsetsAt, identifiersAt, identifierOffsetsSize, identifiersSize,
      stringOffsetsAt, stringsAt, stringOffsetsSize, stringsSize, codeAt, codeSize, firstReserved, secondReserved] =>
    .ok ⟨b.take 4, majorVersion, minorVersion, identifierOffsetsAt, identifiersAt, identifierOffsetsSize,
      identifiersSize, stringOffsetsAt, stringsAt, stringOffsetsSize, stringsSize, codeAt, codeSize, firstReserved,
      secondReserved⟩
  | _ => .error (.record (.size 60))

def load (data : Bytes) : Except Fault Listing := do
  let h ← readHeader data
  let position := if h.minorVersion = 7 then 64 else 60
  let (identifiers, position) ←
    readStrings data (position + h.identifierOffsetsSize) h.identifiersAt h.identifiersSize
  let (strings, position) ← readStrings data (position + h.stringOffsetsSize) h.stringsAt h.stringsSize
  ensure (position == h.codeAt) .displacedTable
  match codes? h.minorVersion with
  | none => .error (.key (toString h.minorVersion))
  | some codes =>
    let instructions ← readInstructions codes h.codeSize 0 (data.drop position)
    .ok ⟨h.signature, h.majorVersion, h.minorVersion, h.firstReserved, h.secondReserved, identifiers, strings,
      instructions⟩

/-- Nothing of a listing is written to its file. -/
def save (_l : Listing) : Except Fault Bytes := .ok []

end Listing

end GameData.Script
