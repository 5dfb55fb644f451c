import GameData.Proofs.Script.Codec

/-!
Source programs and the code they stand for.

Operands come before their operator and arguments of a call after it, each in a block of its own that ends with
`BRK`; the code jumps over the blocks. A loop ends with a jump back to its test, a branch with a jump over its
`else` part, which may be empty. A program ends with `BRK`. The code of a program has no gaps, and while it stays
below 2³¹ bytes every instruction can be encoded in the size that the layout gives it.
-/
namespace GameData.Script

/-- How many bytes the operand of a push takes. -/
inductive Width where
  | byte | short | word
  deriving DecidableEq

def Width.bytes : Width → Nat
  | .byte => 1
  | .short => 2
  | .word => 4

def Width.field : Width → Field
  | .byte => .u8
  | .short => .u16
  | .word => .u32

/-- The numbers that have instructions of their own. -/
inductive Constant where
  | zero | one | ones
  deriving DecidableEq

/-- A literal over a table of strings and a table of identifiers; an index lies inside its table and fits its
operand. -/
inductive Literal (strings identifiers : List String) where
  | number (w : Width) (n : Nat) (fits : n < Nat.pow 256 w.bytes)
  | real (x : Single)
  | constant (c : Constant)
  | string (w : Width) (i : Fin strings.length) (fits : i.val < Nat.pow 256 w.bytes)
  | identifier (w : Width) (i : Fin identifiers.length) (fits : i.val < Nat.pow 256 w.bytes)

inductive Expr (strings identifiers : List String) where
  | literal (l : Literal strings identifiers)
  | unary (op : UnaryOp) (argument : Expr strings identifiers)
  | binary (op : BinaryOp) (left right : Expr strings identifiers)
  | call (callee : Expr strings identifiers) (arguments : List (Expr strings identifiers))

/-- A statement; a branch without statements in its second part has no `else`. -/
inductive Statement (strings identifiers : List String) where
  | expression (e : Expr strings identifiers)
  | loop (test : Expr strings identifiers) (body : List (Statement strings identifiers))
  | branch (test : Expr strings identifiers) (yes no : List (Statement strings identifiers))

variable {strings identifiers : List String}

def UnaryOp.mnemonic : UnaryOp → Mnemonic
  | .plus => .plus | .minus => .minus | .inv => .inv | .not => .not

def BinaryOp.mnemonic : BinaryOp → Mnemonic
  | .add => .add | .sub => .sub | .mul => .mul | .div => .div | .shl => .shl | .shr => .shr | .and => .and
  | .or => .or | .xor => .xor | .land => .land | .lor => .lor | .eq => .eq | .ne => .ne | .lt => .lt | .le => .le
  | .gt => .gt | .ge => .ge | .assign => .assign

namespace Opcode

def plain (m : Mnemonic) (start : Nat) : Opcode := ⟨m, .null, 1, start⟩

/-- A jump by a distance that counts from the end of the instruction. -/
def jump (m : Mnemonic) (distance : Int) (start : Nat) : Opcode := ⟨m, .int distance, 5, start⟩

def callTo (targets : List Nat) (start : Nat) : Opcode :=
  ⟨.call, .list (targets.map fun (n : Nat) => .int n), 5 + 4 * (targets.length : Int), start⟩

end Opcode

namespace Literal

def mnemonic : Literal strings identifiers → Mnemonic
  | .number .byte .. => .pushb
  | .number .short .. => .pushw
  | .number .word .. => .push
  | .real _ => .pushf
  | .constant .zero => .push0
  | .constant .one => .push1
  | .constant .ones => .pushm
  | .string .byte .. => .pushsib
  | .string .short .. => .pushsiw
  | .string .word .. => .pushsi
  | .identifier .byte .. => .pushiib
  | .identifier .short .. => .pushiiw
  | .identifier .word .. => .pushii

def operand : Literal strings identifiers → Value
  | .number _ n _ => .int n
  | .real x => .real x.widen
  | .constant _ => .null
  | .string _ i _ | .identifier _ i _ => .int i.val

def size : Literal strings identifiers → Nat
  | .number w .. | .string w .. | .identifier w .. => 1 + w.bytes
  | .real _ => 5
  | .constant _ => 1

def opcode (l : Literal strings identifiers) (start : Nat) : Opcode := ⟨l.mnemonic, l.operand, l.size, start⟩

end Literal

mutual

def Expr.size : Expr strings identifiers → Nat
  | .literal l => l.size
  | .unary _ argument => argument.size + 1
  | .binary _ left right => left.size + right.size + 1
  | .call callee arguments => callee.size + (5 + 4 * arguments.length) + 5 + Expr.blocksSize arguments

def Expr.blocksSize : List (Expr strings identifiers) → Nat
  | [] => 0
  | a :: rest => a.size + 1 + Expr.blocksSize rest

end

/-- Where the blocks of arguments start, the first of them at an address. -/
def Expr.blockStarts (start : Nat) : List (Expr strings identifiers) → List Nat
  | [] => []
  | a :: rest => start :: Expr.blockStarts (start + a.size + 1) rest

mutual

def Expr.code (start : Nat) : Expr strings identifiers → List Opcode
  | .literal l => [l.opcode start]
  | .unary op argument => argument.code start ++ [.plain op.mnemonic (start + argument.size)]
  | .binary op left right =>
    left.code start ++ right.code (start + left.size) ++ [.plain op.mnemonic (start + left.size + right.size)]
  | .call callee arguments =>
    let callAt := start + callee.size
    let skipAt := callAt + (5 + 4 * arguments.length)
    callee.code start
      ++ [.callTo (Expr.blockStarts (skipAt + 5) arguments) callAt, .jump .bra (Expr.blocksSize arguments) skipAt]
      ++ Expr.blocksCode (skipAt + 5) arguments

/-- The blocks of arguments, each ended by `BRK`. -/
def Expr.blocksCode (start : Nat) : List (Expr strings identifiers) → List Opcode
  | [] => []
  | a :: rest =>
    a.code start ++ [.plain .brk (start + a.size)] ++ Expr.blocksCode (start + a.size + 1) rest

end

mutual

def Statement.size : Statement strings identifiers → Nat
  | .expression e => e.size + 1
  | .loop test body => test.size + 5 + Statement.bodySize body + 5
  | .branch test yes no => test.size + 5 + Statement.bodySize yes + 5 + Statement.bodySize no

def Statement.bodySize : List (Statement strings identifiers) → Nat
  | [] => 0
  | s :: rest => s.size + Statement.bodySize rest

end

mutual

def Statement.code (start : Nat) : Statement strings identifiers → List Opcode
  | .expression e => e.code start ++ [.plain .pop (start + e.size)]
  | .loop test body =>
    let testEnd := start + test.size
    let bodyEnd := testEnd + 5 + Statement.bodySize body
    test.code start ++ [.jump .bf (Statement.bodySize body + 5) testEnd]
      ++ Statement.bodyCode (testEnd + 5) body ++ [.jump .bra (start - (bodyEnd + 5)) bodyEnd]
  | .branch test yes no =>
    let testEnd := start + test.size
    let yesEnd := testEnd + 5 + Statement.bodySize yes
    test.code start ++ [.jump .bf (Statement.bodySize yes + 5) testEnd]
      ++ Statement.bodyCode (testEnd + 5) yes ++ [.jump .bra (Statement.bodySize no) yesEnd]
      ++ Statement.bodyCode (yesEnd + 5) no

def Statement.bodyCode (start : Nat) : List (Statement strings identifiers) → List Opcode
  | [] => []
  | s :: rest => s.code start ++ Statement.bodyCode (start + s.size) rest

end

def programCode (p : List (Statement strings identifiers)) : List Opcode :=
  Statement.bodyCode 0 p ++ [.plain .brk (Statement.bodySize p)]

def programSize (p : List (Statement strings identifiers)) : Nat := Statement.bodySize p + 1

theorem Literal.size_pos (l : Literal strings identifiers) : 0 < l.size := by
  cases l <;> simp only [size] <;> omega

@[simp] theorem Expr.length_blockStarts (arguments : List (Expr strings identifiers)) (start : Nat) :
    (Expr.blockStarts start arguments).length = arguments.length := by
  induction arguments generalizing start with
  | nil => rfl
  | cons a rest ih => exact congrArg Nat.succ (ih _)

namespace Opcode

theorem plain_tiled (m : Mnemonic) (start : Nat) : Tiled start [plain m start] (start + 1 : Nat) :=
  ⟨rfl, Int.one_pos, rfl⟩

theorem jump_tiled (m : Mnemonic) (distance : Int) (start : Nat) :
    Tiled start [jump m distance start] (start + 5 : Nat) := ⟨rfl, by simp [jump], rfl⟩

theorem callTo_tiled (targets : List Nat) (start : Nat) :
    Tiled start [callTo targets start] (start + (5 + 4 * targets.length) : Nat) :=
  ⟨rfl, by simp only [callTo]; omega, by simp only [callTo, Tiled]; omega⟩

end Opcode

theorem Literal.tiled (l : Literal strings identifiers) (start : Nat) :
    Tiled start [l.opcode start] (start + l.size : Nat) := ⟨rfl, Int.natCast_pos.mpr l.size_pos, rfl⟩

mutual

theorem Expr.tiled (e : Expr strings identifiers) (start : Nat) :
    Tiled start (e.code start) (start + e.size : Nat) := by
  cases e with
  | literal l => exact l.tiled start
  | unary op argument => exact (argument.tiled start).append (Opcode.plain_tiled ..)
  | binary op left right =>
      refine ((left.tiled start).append (right.tiled _)).append ((Opcode.plain_tiled ..).trans_eq ?_)
      simp only [Expr.size]
      omega
  | call callee arguments =>
      have call := Opcode.callTo_tiled
        (Expr.blockStarts (start + callee.size + (5 + 4 * arguments.length) + 5) arguments) (start + callee.size)
      rw [Expr.length_blockStarts] at call
      refine ((callee.tiled start).append (call.append (Opcode.jump_tiled ..))).append
        ((Expr.blocks_tiled arguments _).trans_eq ?_)
      simp only [Expr.size]
      omega

theorem Expr.blocks_tiled (arguments : List (Expr strings identifiers)) (start : Nat) :
    Tiled start (Expr.blocksCode start arguments) (start + Expr.blocksSize arguments : Nat) := by
  cases arguments with
  | nil => rfl
  | cons a rest =>
      refine ((a.tiled start).append (Opcode.plain_tiled ..)).append ((Expr.blocks_tiled rest _).trans_eq ?_)
      simp only [Expr.blocksSize]
      omega

end

mutual

theorem Statement.tiled (s : Statement strings identifiers) (start : Nat) :
    Tiled start (s.code start) (start + s.size : Nat) := by
  cases s with
  | expression e => exact (e.tiled start).append (Opcode.plain_tiled ..)
  | loop test body =>
      refine (((test.tiled start).append (Opcode.jump_tiled ..)).append
        (Statement.body_tiled body _)).append ((Opcode.jump_tiled ..).trans_eq ?_)
      simp only [Statement.size]
      omega
  | branch test yes no =>
      refine ((((test.tiled start).append (Opcode.jump_tiled ..)).append
        (Statement.body_tiled yes _)).append (Opcode.jump_tiled ..)).append ((Statement.body_tiled no _).trans_eq ?_)
      simp only [Statement.size]
      omega

theorem Statement.body_tiled (body : List (Statement strings identifiers)) (start : Nat) :
    Tiled start (Statement.bodyCode start body) (start + Statement.bodySize body : Nat) := by
  cases body with
  | nil => rfl
  | cons s rest =>
      refine (s.tiled start).append ((Statement.body_tiled rest _).trans_eq ?_)
      simp only [Statement.bodySize]
      omega

end

theorem program_tiled (p : List (Statement strings identifiers)) : Tiled 0 (programCode p) (programSize p) := by
  refine ((Statement.body_tiled p 0).trans_eq ?_).append (Opcode.plain_tiled ..)
  rw [Nat.zero_add]

namespace Opcode

theorem plain_coded {m : Mnemonic} (supported : m.isSupported = true) (bare : m.field? = none) (start : Nat) :
    (plain m start).Coded := ⟨supported, 0, rfl, .none bare⟩

theorem jump_coded {m : Mnemonic} (supported : m.isSupported = true) (field : m.field? = some .i32) {distance : Int}
    (start : Nat) (low : -2147483648 ≤ distance) (high : distance < 2147483648) : (jump m distance start).Coded :=
  ⟨supported, 4, rfl, .integer .i32 distance field (by decide) (by rintro rfl; cases field) low high⟩

theorem push_coded {m : Mnemonic} (w : Width) (supported : m.isSupported = true) (field : m.field? = some w.field)
    (single : m ≠ .call) {n : Nat} (fits : n < Nat.pow 256 w.bytes) (start : Nat) :
    Coded ⟨m, .int n, (1 + w.bytes : Nat), start⟩ := by
  have size : ((1 + w.bytes : Nat) : Int) = w.bytes + 1 := by omega
  have carries : Carries m (.int n) w.bytes := by
    cases w <;>
      exact .integer _ n field (by decide) single (Int.natCast_nonneg n) (Int.ofNat_lt.mpr fits)
  exact ⟨supported, w.bytes, size, carries⟩

theorem callTo_coded {targets : List Nat} (start : Nat) (count : targets.length < 2147483648)
    (inside : ∀ t ∈ targets, t < 2147483648) : (callTo targets start).Coded := by
  have carries := Carries.call (targets.map fun (n : Nat) => (n : Int))
    (by rw [List.length_map]; exact Int.lt_trans (Int.ofNat_lt.mpr count) (by decide))
    (fun t mem => by
      obtain ⟨n, given, rfl⟩ := List.mem_map.mp mem
      exact ⟨Int.le_trans (by decide) (Int.natCast_nonneg n), Int.ofNat_lt.mpr (inside n given)⟩)
  rw [List.length_map, List.map_map] at carries
  refine ⟨rfl, _, ?_, carries⟩
  simp only [callTo]
  omega

end Opcode

theorem Literal.coded (l : Literal strings identifiers) (start : Nat) : (l.opcode start).Coded := by
  cases l with
  | number w n fits => cases w <;> exact Opcode.push_coded _ rfl rfl (by nofun) fits start
  | real x => exact ⟨rfl, 4, rfl, .real x⟩
  | constant c => cases c <;> exact ⟨rfl, 0, rfl, .none rfl⟩
  | string w i fits => cases w <;> exact Opcode.push_coded _ rfl rfl (by nofun) fits start
  | identifier w i fits => cases w <;> exact Opcode.push_coded _ rfl rfl (by nofun) fits start

theorem UnaryOp.coded (op : UnaryOp) (start : Nat) : (Opcode.plain op.mnemonic start).Coded := by
  cases op <;> exact Opcode.plain_coded rfl rfl start

theorem BinaryOp.coded (op : BinaryOp) (start : Nat) : (Opcode.plain op.mnemonic start).Coded := by
  cases op <;> exact Opcode.plain_coded rfl rfl start

theorem Expr.blockStarts_lt {arguments : List (Expr strings identifiers)} {start t : Nat}
    (mem : t ∈ Expr.blockStarts start arguments) : t < start + Expr.blocksSize arguments := by
  induction arguments generalizing start with
  | nil => cases mem
  | cons a rest ih =>
      simp only [Expr.blocksSize]
      rcases List.mem_cons.mp mem with rfl | later
      · omega
      · have := ih later
        omega

mutual

theorem Expr.coded (e : Expr strings identifiers) (start : Nat) (small : start + e.size < 2147483648) :
    ∀ op ∈ e.code start, op.Coded := by
  cases e with
  | literal l => exact List.forall_mem_singleton.mpr (l.coded start)
  | unary op argument =>
      simp only [Expr.size] at small
      simp only [Expr.code, List.forall_mem_append, List.forall_mem_singleton]
      exact ⟨argument.coded start (by omega), op.coded _⟩
  | binary op left right =>
      simp only [Expr.size] at small
      simp only [Expr.code, List.forall_mem_append, List.forall_mem_singleton]
      exact ⟨⟨left.coded start (by omega), right.coded _ (by omega)⟩, op.coded _⟩
  | call callee arguments =>
      simp only [Expr.size] at small
      simp only [Expr.code, List.forall_mem_append, List.forall_mem_cons, List.not_mem_nil, false_imp_iff, implies_true,
        and_true]
      refine ⟨⟨callee.coded start (by omega), ?_, ?_⟩, Expr.blocks_coded arguments _ (by omega)⟩
      · refine Opcode.callTo_coded _ (by rw [Expr.length_blockStarts]; omega) fun t mem => ?_
        have := Expr.blockStarts_lt mem
        omega
      · exact Opcode.jump_coded rfl rfl _ (by omega) (by omega)

theorem Expr.blocks_coded (arguments : List (Expr strings identifiers)) (start : Nat)
    (small : start + Expr.blocksSize arguments < 2147483648) : ∀ op ∈ Expr.blocksCode start arguments, op.Coded := by
  cases arguments with
  | nil => exact List.forall_mem_nil _
  | cons a rest =>
      simp only [Expr.blocksSize] at small
      simp only [Expr.blocksCode, List.forall_mem_append, List.forall_mem_singleton]
      exact ⟨⟨a.coded start (by omega), Opcode.plain_coded rfl rfl _⟩, Expr.blocks_coded rest _ (by omega)⟩

end

mutual

theorem Statement.coded (s : Statement strings identifiers) (start : Nat) (small : start + s.size < 2147483648) :
    ∀ op ∈ s.code start, op.Coded := by
  cases s with
  | expression e =>
      simp only [Statement.size] at small
      simp only [Statement.code, List.forall_mem_append, List.forall_mem_singleton]
      exact ⟨e.coded start (by omega), Opcode.plain_coded rfl rfl _⟩
  | loop test body =>
      simp only [Statement.size] at small
      simp only [Statement.code, List.forall_mem_append, List.forall_mem_singleton]
      exact ⟨⟨⟨test.coded start (by omega), Opcode.jump_coded rfl rfl _ (by omega) (by omega)⟩,
        Statement.body_coded body _ (by omega)⟩, Opcode.jump_coded rfl rfl _ (by omega) (by omega)⟩
  | branch test yes no =>
      simp only [Statement.size] at small
      simp only [Statement.code, List.forall_mem_append, List.forall_mem_singleton]
      exact ⟨⟨⟨⟨test.coded start (by omega), Opcode.jump_coded rfl rfl _ (by omega) (by omega)⟩,
        Statement.body_coded yes _ (by omega)⟩, Opcode.jump_coded rfl rfl _ (by omega) (by omega)⟩,
        Statement.body_coded no _ (by omega)⟩

theorem Statement.body_coded (body : List (Statement strings identifiers)) (start : Nat)
    (small : start + Statement.bodySize body < 2147483648) : ∀ op ∈ Statement.bodyCode start body, op.Coded := by
  cases body with
  | nil => exact List.forall_mem_nil _
  | cons s rest =>
      simp only [Statement.bodySize] at small
      simp only [Statement.bodyCode, List.forall_mem_append]
      exact ⟨s.coded start (by omega), Statement.body_coded rest _ (by omega)⟩

end

theorem program_coded (p : List (Statement strings identifiers)) (small : programSize p < 2147483648) :
    ∀ op ∈ programCode p, op.Coded := by
  simp only [programSize] at small
  simp only [programCode, List.forall_mem_append, List.forall_mem_singleton]
  exact ⟨Statement.body_coded p 0 (by omega), Opcode.plain_coded rfl rfl _⟩

end GameData.Script
