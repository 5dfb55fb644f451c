import GameData.Bytes.Field

/-!
Instructions of compiled scripts and their encoding.

Two editions of the format number the instructions differently. `Opcode.decode` reads one instruction from the
front of a code segment and tells how many bytes it takes; `Opcode.encode` writes one.
-/
namespace GameData.Script

inductive Mnemonic where
  | brk | nop | ret | bra | bf | bt | jsr | call
  | push | pushb | pushw | pushf | pusha | pushs | pushsi | pushsib | pushsiw
  | pushi | pushii | pushiib | pushiiw | push0 | push1 | pushm | pop
  | add | sub | mul | div | shl | shr | and | or | xor | land | lor
  | eq | ne | lt | le | gt | ge | assign | plus | minus | inv | not | blk | illegal
  deriving DecidableEq, Inhabited

namespace Mnemonic

def all : List Mnemonic :=
  [.brk, .nop, .ret, .bra, .bf, .bt, .jsr, .call,
   .push, .pushb, .pushw, .pushf, .pusha, .pushs, .pushsi, .pushsib, .pushsiw,
   .pushi, .pushii, .pushiib, .pushiiw, .push0, .push1, .pushm, .pop,
   .add, .sub, .mul, .div, .shl, .shr, .and, .or, .xor, .land, .lor,
   .eq, .ne, .lt, .le, .gt, .ge, .assign, .plus, .minus, .inv, .not, .blk, .illegal]

def name : Mnemonic → String
  | .brk => "BRK" | .nop => "NOP" | .ret => "RET" | .bra => "BRA" | .bf => "BF" | .bt => "BT" | .jsr => "JSR"
  | .call => "CALL" | .push => "PUSH" | .pushb => "PUSHB" | .pushw => "PUSHW" | .pushf => "PUSHF"
  | .pusha => "PUSHA" | .pushs => "PUSHS" | .pushsi => "PUSHSI" | .pushsib => "PUSHSIB" | .pushsiw => "PUSHSIW"
  | .pushi => "PUSHI" | .pushii => "PUSHII" | .pushiib => "PUSHIIB" | .pushiiw => "PUSHIIW" | .push0 => "PUSH0"
  | .push1 => "PUSH1" | .pushm => "PUSHM" | .pop => "POP" | .add => "ADD" | .sub => "SUB" | .mul => "MUL"
  | .div => "DIV" | .shl => "SHL" | .shr => "SHR" | .and => "AND" | .or => "OR" | .xor => "XOR"
  | .land => "LAND" | .lor => "LOR" | .eq => "EQ" | .ne => "NE" | .lt => "LT" | .le => "LE" | .gt => "GT"
  | .ge => "GE" | .assign => "ASSIGN" | .plus => "PLUS" | .minus => "MINUS" | .inv => "INV" | .not => "NOT"
  | .blk => "BLK" | .illegal => "ILLEGAL"

def ofName? (s : String) : Option Mnemonic := all.find? fun m => m.name == s

/-- Instructions that a program may hold. -/
def isSupported : Mnemonic → Bool
  | .nop | .ret | .bt | .jsr | .pusha | .pushs | .pushi | .blk | .illegal => false
  | _ => true

/-- The field that follows the instruction's number; of a call it holds the number of arguments. -/
def field? : Mnemonic → Option Field
  | .push | .pushsi | .pushii | .call => some .u32
  | .pushb | .pushsib | .pushiib => some .u8
  | .pushw | .pushsiw | .pushiiw => some .u16
  | .pushf => some .f32
  | .bra | .bf | .bt => some .i32
  | _ => none

end Mnemonic

/-- The two numberings of the instructions. -/
inductive Edition where
  | five | seven
  deriving DecidableEq

namespace Edition

def number : Edition → Nat
  | .five => 5
  | .seven => 7

def ofNumber? (n : Nat) : Option Edition :=
  if n = 5 then some .five else if n = 7 then some .seven else none

/-- The instructions by their numbers. In edition five the jumps come after the pushes. -/
def table : Edition → List Mnemonic
  | .five =>
    [.brk, .nop, .push, .pushb, .pushw, .pushf, .pusha, .pushs,
     .pushsi, .pushsib, .pushsiw, .pushi, .pushii, .pushiib, .pushiiw, .push0,
     .push1, .pushm, .pop, .ret, .bra, .bf, .bt, .jsr,
     .call, .add, .sub, .mul, .div, .shl, .shr, .and,
     .or, .xor, .land, .lor, .eq, .ne, .lt, .le,
     .gt, .ge, .assign, .plus, .minus, .inv, .not, .blk,
     .illegal]
  | .seven =>
    [.brk, .nop, .ret, .bra, .bf, .bt, .jsr, .call,
     .push, .pushb, .pushw, .pushf, .pusha, .pushs, .pushsi, .pushsib,
     .pushsiw, .pushi, .pushii, .pushiib, .pushiiw, .push0, .push1, .pushm,
     .pop, .add, .sub, .mul, .div, .shl, .shr, .and,
     .or, .xor, .land, .lor, .eq, .ne, .lt, .le,
     .gt, .ge, .assign, .plus, .minus, .inv, .not, .blk,
     .illegal]

def mnemonic? (e : Edition) (code : UInt8) : Option Mnemonic := e.table[code.toNat]?

def code (e : Edition) (m : Mnemonic) : UInt8 := UInt8.ofNat (e.table.idxOf m)

end Edition

/-- An instruction with its place in the code segment. -/
structure Opcode where
  mnemonic : Mnemonic
  operand : Value
  size : Int
  addr : Int
  deriving Inhabited

namespace Opcode

/-- The operand and the number of bytes of an instruction whose operand starts the string. -/
def decodeOperand (m : Mnemonic) (rest : Bytes) : Except Fault (Value × Nat) :=
  match m.field? with
  | none => .ok (.null, 0)
  | some f => do
    let head ← Bytes.exactly f.width (rest.take f.width)
    match m with
    | .call =>
      let count := Bytes.ofLE head
      let targets ← Bytes.exactly (4 * count) ((rest.drop 4).take (4 * count))
      .ok (.list ((Bytes.words 4 targets).map fun n => .int (Bytes.signed 4 n)), 4 + 4 * count)
    | _ => .ok (f.unpack head, f.width)

/-- The instruction that starts the string: what it is, its operand, and the number of bytes after the first
one. -/
def decode (e : Edition) (b : UInt8) (rest : Bytes) : Except Fault (Mnemonic × Value × Nat) :=
  match e.mnemonic? b with
  | none => .error (.value .unhandledOpcode)
  | some m =>
    if m.isSupported then (decodeOperand m rest).map fun (v, n) => (m, v, n)
    else .error (.value .unsupportedOpcode)

/-- The instructions of a segment of `size` bytes at the front of the string, the first one at `addr`, and what
follows the last of them. An instruction that starts inside the segment may end after it. -/
def decodeAll (e : Edition) (size addr : Nat) (rest : Bytes) : Except Fault (List Opcode × Bytes) :=
  if addr < size then
    match rest with
    | [] => .error .endOfFile
    | b :: bs => do
      let (m, v, n) ← decode e b bs
      let (more, tail) ← decodeAll e size (addr + (n + 1)) (bs.drop n)
      .ok (⟨m, v, n + 1, addr⟩ :: more, tail)
  else .ok ([], rest)
termination_by rest.length
decreasing_by simp only [List.length_drop, List.length_cons]; omega

/-- The arguments of a call as packed words; a text counts as the list of its characters. -/
def encodeTargets : Value → Except Fault Bytes
  | .list items => do
    let head ← Field.u32.packInt items.length
    let body ← Field.i32.packMany items.length items
    .ok (head ++ body)
  | .text s => do
    let head ← Field.u32.packInt s.length
    let body ← Field.i32.packMany s.length (s.toList.map fun c => .text (String.singleton c))
    .ok (head ++ body)
  | _ => .error .mismatch

/-- The bytes of an instruction. -/
def encode (e : Edition) (op : Opcode) : Except Fault Bytes := do
  let operand ←
    match op.mnemonic with
    | .call => encodeTargets op.operand
    | m =>
      match m.field? with
      | some f => f.pack op.operand
      | none => .ok []
  .ok (e.code op.mnemonic :: operand)

def encodeAll (e : Edition) (ops : List Opcode) : Except Fault Bytes := (ops.mapM (encode e)).map List.flatten

end Opcode

end GameData.Script
