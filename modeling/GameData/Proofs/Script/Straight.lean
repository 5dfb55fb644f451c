import GameData.Proofs.Script.Walk

/-!
Straight-line code and the stack machine it is written for.

A straight-line program pushes literals and applies operators. Given a meaning of literals and operators, the machine
runs it on a stack of values; the walk runs it on a stack of trees. The two stay in step: whatever the meaning, the
trees evaluate to the values, and one of the two fails exactly when the other does.
-/
namespace GameData.Script

universe u

/-- What an instruction of straight-line code does. -/
inductive Straight where
  | number (value : Value)
  | constant (n : Nat)
  | string (index : Nat)
  | identifier (index : Nat)
  | unary (op : UnaryOp)
  | binary (op : BinaryOp)

def index? : Value → Option Nat
  | .int (.ofNat i) => some i
  | _ => none

def operator? (m : Mnemonic) : Option Straight :=
  let unary : List UnaryOp := [.plus, .minus, .inv, .not]
  let binary : List BinaryOp :=
    [.add, .sub, .mul, .div, .shl, .shr, .and, .or, .xor, .land, .lor, .eq, .ne, .lt, .le, .gt, .ge, .assign]
  ((unary.find? (·.mnemonic = m)).map .unary).or ((binary.find? (·.mnemonic = m)).map .binary)

def Opcode.straight? (op : Opcode) : Option Straight :=
  match op.mnemonic with
  | .push | .pushb | .pushw | .pushf => some (.number op.operand)
  | .push0 => some (.constant 0)
  | .push1 => some (.constant 1)
  | .pushm => some (.constant 0xffffffff)
  | .pushsi | .pushsib | .pushsiw => (index? op.operand).map .string
  | .pushii | .pushiib | .pushiiw => (index? op.operand).map .identifier
  | m => operator? m

/-- A meaning of literals and operators in some domain of values. -/
structure Meaning (α : Type u) where
  number : Value → α
  constant : Nat → α
  string : String → α
  identifier : String → α
  unary : UnaryOp → α → α
  binary : BinaryOp → α → α → α

/-- Why the machine cannot go on: too few operands, or an index outside its table. -/
inductive Trap where
  | underflow | outside

namespace Straight

variable {α : Type u} (M : Meaning α) (names : Names)

/-- A step of the machine; the top of the stack is the right operand. -/
def step : Straight → List α → Except Trap (List α)
  | .number v, stack => .ok (M.number v :: stack)
  | .constant n, stack => .ok (M.constant n :: stack)
  | .string i, stack => (names.strings[i]?).elim (.error .outside) fun s => .ok (M.string s :: stack)
  | .identifier i, stack => (names.identifiers[i]?).elim (.error .outside) fun s => .ok (M.identifier s :: stack)
  | .unary op, x :: stack => .ok (M.unary op x :: stack)
  | .binary op, right :: left :: stack => .ok (M.binary op left right :: stack)
  | .unary _, [] | .binary _, _ => .error .underflow

def execute : List Straight → List α → Except Trap (List α)
  | [], stack => .ok stack
  | i :: program, stack => i.step M names stack >>= execute program

/-- What the walk does at an instruction. -/
def grow : Straight → List Node → Except Fault (List Node)
  | .number v, stack => .ok (.number v :: stack)
  | .constant n, stack => .ok (.const n :: stack)
  | .string i, stack =>
    (names.strings[i]?).elim (.error (.index .list)) fun s => .ok (.string ("\"" ++ s ++ "\"") :: stack)
  | .identifier i, stack => (names.identifiers[i]?).elim (.error (.index .list)) fun s => .ok (.identifier s :: stack)
  | .unary op, argument :: stack => .ok (.unary op argument.underUnary :: stack)
  | .binary op, right :: left :: stack => .ok (.binary op (left.underBinary op) (right.underBinary op) :: stack)
  | .unary _, [] | .binary _, _ => .error (.index .emptyPop)

end Straight

def unquoted (text : String) : String := String.ofList text.toList.tail.dropLast

/-- The value of an expression without calls; parentheses do not count. -/
def Node.value? {α : Type u} (M : Meaning α) : Node → Option α
  | .number v => some (M.number v)
  | .const n => some (M.constant n)
  | .string text => some (M.string (unquoted text))
  | .identifier name => some (M.identifier name)
  | .unary op argument => (argument.value? M).map (M.unary op)
  | .binary op left right => (left.value? M).bind fun x => (right.value? M).map (M.binary op x)
  | .paren body => body.value? M
  | .call .. | .loop .. | .branch .. => none

theorem unquoted_quoted (s : String) : unquoted ("\"" ++ s ++ "\"") = s := by
  simp [unquoted]

theorem item_natCast (items : List String) (i : Nat) :
    item items (.int i) = (items[i]?).elim (.error (.index .list)) .ok := by
  have notBelow : ¬ (i : Int) < 0 := by omega
  simp only [item, item.pick, if_neg notBelow, Int.toNat_natCast]
  cases items[i]? <;> rfl

theorem eq_int_of_index? {v : Value} {i : Nat} (h : index? v = some i) : v = .int i := by
  unfold index? at h
  split at h
  · cases h
    rfl
  · cases h

section Walk

variable {names : Names} {code : List Opcode} {fuel : Nat} {v until_ : Value} {stack : List Node} {op : Opcode}

theorem walk_straight {i : Straight} (reads : fetch code v = .ok op) (clear : reached until_ op.addr = false)
    (straight : op.straight? = some i) : walk names code (fuel + 1) v until_ stack =
      i.grow names stack >>= walk names code fuel (.int (op.addr + op.size)) until_ := by
  rw [walk, reads, ok_bind]
  simp only [clear, Bool.false_eq_true, if_false]
  obtain ⟨m, operand, size, addr⟩ := op
  cases m
  case push | pushb | pushw | pushf | push0 | push1 | pushm =>
    cases straight
    rfl
  case pushsi | pushsib | pushsiw =>
    obtain ⟨k, index, rfl⟩ := Option.map_eq_some_iff.mp straight
    cases eq_int_of_index? index
    simp only [literal?, item_natCast, Straight.grow]
    cases names.strings[k]? <;> rfl
  case pushii | pushiib | pushiiw =>
    obtain ⟨k, index, rfl⟩ := Option.map_eq_some_iff.mp straight
    cases eq_int_of_index? index
    simp only [literal?, item_natCast, Straight.grow]
    cases names.identifiers[k]? <;> rfl
  case plus | minus | inv | not =>
    cases straight
    cases stack <;> rfl
  case add | sub | mul | div | shl | shr | and | or | xor | land | lor | eq | ne | lt | le | gt | ge | assign =>
    cases straight
    rcases stack with _ | ⟨right, _ | ⟨left, rest⟩⟩ <;> rfl
  all_goals cases straight

end Walk

section Simulation

variable {α : Type u} (M : Meaning α)

/-- The trees on one stack evaluate to the values on the other. -/
def Denotes (trees : List Node) (values : List α) : Prop := trees.map (Node.value? M) = values.map some

/-- The fault of the walk where the machine is trapped. -/
def Trap.fault : Trap → Fault
  | .underflow => .index .emptyPop
  | .outside => .index .list

/-- Both computations succeed with stacks of the same values, or both fail for the same reason. -/
inductive InStep : Except Fault (List Node) → Except Trap (List α) → Prop
  | ok {trees : List Node} {values : List α} (same : Denotes M trees values) : InStep (.ok trees) (.ok values)
  | error (t : Trap) : InStep (.error t.fault) (.error t)

variable {M}

theorem InStep.bind {r : Except Fault (List Node)} {q : Except Trap (List α)} (h : InStep M r q)
    {f : List Node → Except Fault (List Node)} {g : List α → Except Trap (List α)}
    (next : ∀ trees values, Denotes M trees values → InStep M (f trees) (g values)) : InStep M (r >>= f) (q >>= g) := by
  cases h with
  | ok same => exact next _ _ same
  | error t => exact .error t

theorem Node.value?_underUnary (n : Node) : n.underUnary.value? M = n.value? M := by
  cases n <;> rfl

theorem Node.value?_underBinary (op : BinaryOp) (n : Node) : (n.underBinary op).value? M = n.value? M := by
  cases n with
  | binary inner left right =>
      simp only [underBinary]
      split <;> rfl
  | _ => rfl

theorem Denotes.cons {n : Node} {x : α} {trees : List Node} {values : List α} (first : n.value? M = some x)
    (rest : Denotes M trees values) : Denotes M (n :: trees) (x :: values) := by
  simp only [Denotes, List.map_cons, first]
  exact congrArg _ rest

theorem Denotes.cases {trees : List Node} {values : List α} (h : Denotes M trees values) :
    (trees = [] ∧ values = []) ∨ ∃ n trees' x values', trees = n :: trees' ∧ values = x :: values' ∧
      n.value? M = some x ∧ Denotes M trees' values' := by
  cases trees with
  | nil => exact .inl ⟨rfl, List.map_eq_nil_iff.mp h.symm⟩
  | cons n trees =>
      cases values with
      | nil => cases h
      | cons x values => exact .inr ⟨n, trees, x, values, rfl, rfl, List.cons.inj h⟩

/-- One step of the walk and one step of the machine. -/
theorem Straight.grow_inStep (i : Straight) (names : Names) {trees : List Node} {values : List α}
    (same : Denotes M trees values) : InStep M (i.grow names trees) (i.step M names values) := by
  cases i with
  | number v => exact .ok (same.cons rfl)
  | constant n => exact .ok (same.cons rfl)
  | string k =>
      simp only [grow, step]
      cases names.strings[k]? with
      | none => exact .error .outside
      | some s => exact .ok (same.cons (congrArg (fun t => some (M.string t)) (unquoted_quoted s)))
  | identifier k =>
      simp only [grow, step]
      cases names.identifiers[k]? with
      | none => exact .error .outside
      | some s => exact .ok (same.cons rfl)
  | unary op =>
      rcases same.cases with ⟨rfl, rfl⟩ | ⟨argument, trees, x, values, rfl, rfl, first, rest⟩
      · exact .error .underflow
      · refine .ok (rest.cons ?_)
        simp only [Node.value?, Node.value?_underUnary, first, Option.map_some]
  | binary op =>
      rcases same.cases with ⟨rfl, rfl⟩ | ⟨right, trees, y, values, rfl, rfl, top, rest⟩
      · exact .error .underflow
      · rcases rest.cases with ⟨rfl, rfl⟩ | ⟨left, trees, x, values, rfl, rfl, second, rest⟩
        · exact .error .underflow
        · refine .ok (rest.cons ?_)
          simp only [Node.value?, Node.value?_underBinary, top, second, Option.bind_some, Option.map_some]

/-- A walk and a run from stacks of the same values. The induction is on the instructions still to come; what the walk
can fetch stays the whole code. -/
theorem walk_inStep {names : Names} {code : List Opcode} (readable : Readable code) {last : Opcode}
    (brk : last.mnemonic = .brk) {ops : List Opcode} {program : List Straight} {start stop : Int} {fuel : Nat}
    {trees : List Node} {values : List α} (tiled : Tiled start (ops ++ [last]) stop) (placed : ops ++ [last] ⊆ code)
    (straight : ops.map Opcode.straight? = program.map some) (enough : ops.length < fuel)
    (same : Denotes M trees values) :
    InStep M (walk names code fuel (.int start) .null trees) (Straight.execute M names program values) := by
  induction ops generalizing program start fuel trees values with
  | nil =>
      obtain ⟨rfl, -⟩ := tiled
      obtain ⟨fuel, rfl⟩ := Nat.exists_eq_add_one.mpr enough
      cases List.map_eq_nil_iff.mp straight.symm
      rw [walk_ends (readable last (placed List.mem_cons_self)) (.inl brk)]
      exact .ok same
  | cons op ops ih =>
      obtain ⟨rfl, -, tiled⟩ := tiled
      obtain ⟨fuel, rfl⟩ := Nat.exists_eq_add_one.mpr (Nat.zero_lt_of_lt enough)
      cases program with
      | nil => cases straight
      | cons i program =>
          obtain ⟨first, straight⟩ := List.cons.inj straight
          obtain ⟨here, placed⟩ := List.cons_subset.mp placed
          rw [walk_straight (readable op here) rfl first]
          apply (i.grow_inStep names same).bind
          intro trees values same
          exact ih tiled placed straight (Nat.lt_of_succ_lt_succ enough) same

end Simulation

/-- The walk over straight-line code, well formed or not, and the machine that runs it, whatever literals and operators
mean. The walk fails on an index exactly when the machine underflows or needs an entry outside its table; otherwise the
trees it returns have the values of the machine's stack, from the bottom to the top. -/
theorem straight_walk_iff_machine {α : Type u} (M : Meaning α) (names : Names) {ops : List Opcode} {last : Opcode}
    {program : List Straight} {start stop : Int} (tiled : Tiled start (ops ++ [last]) stop)
    (straight : ops.map Opcode.straight? = program.map some) (brk : last.mnemonic = .brk) {fuel : Nat}
    (enough : ops.length < fuel) :
    ((∃ what, walk names (ops ++ [last]) fuel (.int start) .null [] = .error (.index what)) ↔
        ∃ trap, Straight.execute M names program [] = .error trap) ∧
      ∀ stack, Straight.execute M names program [] = .ok stack →
        ∃ trees, walk names (ops ++ [last]) fuel (.int start) .null [] = .ok trees ∧
          trees.reverse.map (Node.value? M) = stack.reverse.map some := by
  have inStep : InStep M (walk names (ops ++ [last]) fuel (.int start) .null [])
      (Straight.execute M names program []) :=
    walk_inStep tiled.readable brk tiled (List.Subset.refl _) straight enough rfl
  generalize walk names (ops ++ [last]) fuel (.int start) .null [] = walked at inStep
  generalize Straight.execute M names program [] = ran at inStep
  cases inStep with
  | ok same =>
      refine ⟨⟨?_, ?_⟩, ?_⟩
      · rintro ⟨_, ⟨⟩⟩
      · rintro ⟨_, ⟨⟩⟩
      · rintro stack ⟨⟩
        refine ⟨_, rfl, ?_⟩
        rw [List.map_reverse, List.map_reverse, same]
  | error t =>
      refine ⟨⟨?_, ?_⟩, ?_⟩
      · intro _
        exact ⟨t, rfl⟩
      · intro _
        cases t with
        | underflow => exact ⟨_, rfl⟩
        | outside => exact ⟨_, rfl⟩
      · rintro stack ⟨⟩

/-- Numbers count as themselves, texts by their lengths. -/
def lengthMeaning : Meaning Int where
  number
    | .int n => n
    | _ => 0
  constant n := n
  string s := s.length
  identifier s := s.length
  unary
    | .minus, x => -x
    | _, x => x
  binary
    | .sub, x, y => x - y
    | _, x, y => x + y

/-- `"on"` and `-(7 - x)`, left on the stack in this order. -/
def negatedSample : List Opcode :=
  [⟨.pushsib, .int 0, 2, 0⟩, ⟨.pushb, .int 7, 2, 2⟩, ⟨.pushii, .int 0, 5, 4⟩, ⟨.sub, .null, 1, 9⟩,
   ⟨.minus, .null, 1, 10⟩]

/-- A subtraction with one operand. -/
def shortSample : List Opcode := [⟨.push1, .null, 1, 0⟩, ⟨.sub, .null, 1, 1⟩]

theorem straight_walk_iff_machine_samples :
    (∃ trees, walk ⟨["on"], ["x"]⟩ (negatedSample ++ [⟨.brk, .null, 1, 11⟩]) 6 (.int 0) .null [] = .ok trees ∧
      trees.reverse.map (Node.value? lengthMeaning) = [some 2, some (-6)]) ∧
    ∃ what, walk ⟨["on"], ["x"]⟩ (shortSample ++ [⟨.brk, .null, 1, 2⟩]) 3 (.int 0) .null [] = .error (.index what) := by
  have tiled : Tiled 0 (negatedSample ++ [⟨.brk, .null, 1, 11⟩]) 12 := by
    simp [Tiled, negatedSample]
  have short : Tiled 0 (shortSample ++ [⟨.brk, .null, 1, 2⟩]) 3 := by
    simp [Tiled, shortSample]
  have first := straight_walk_iff_machine lengthMeaning ⟨["on"], ["x"]⟩ tiled
    (show _ = [.string 0, .number (.int 7), .identifier 0, .binary .sub, .unary .minus].map some from rfl) rfl
    (show 5 < 6 by decide)
  have second := straight_walk_iff_machine lengthMeaning ⟨["on"], ["x"]⟩ short
    (show _ = [.constant 1, .binary .sub].map some from rfl) rfl (show 2 < 3 by decide)
  exact ⟨first.2 [-6, 2] rfl, second.1.mpr ⟨.underflow, rfl⟩⟩

end GameData.Script
