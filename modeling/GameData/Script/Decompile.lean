import GameData.Script.Node
import GameData.Script.Program

/-!
From code back to trees.

The walk runs through the code with a stack of trees. It stops at a `BRK` or a `BRA` or at the address where an
`else` part ends; the bodies of calls, loops and branches are walks of their own. Addresses are untyped, since
an operand of any kind may stand where a distance is expected.
-/
namespace GameData.Script

/-- What the code refers to by index. -/
structure Names where
  strings : List String
  identifiers : List String

/-- Line ends and double quotes are escaped, backslashes are not. -/
def escape (s : String) : String :=
  String.ofList (s.toList.flatMap fun c =>
    if c == '\n' then ['\\', 'n'] else if c == '"' then ['\\', '"'] else [c])

/-- The item under an index; a negative index counts from the end. -/
def item (items : List String) : Value → Except Fault String
  | .int n => pick n
  | .bool b => pick (if b then 1 else 0)
  | _ => .error .mismatch
where
  pick (n : Int) : Except Fault String :=
    let at_ : Int := if n < 0 then n + items.length else n
    if at_ < 0 then .error (.index .list)
    else match items[at_.toNat]? with
      | some s => .ok s
      | none => .error (.index .list)

/-- The instruction at an address; of two at one address the later one counts. -/
def fetch (code : List Opcode) (address : Value) : Except Fault Opcode :=
  match address with
  | .list _ => .error .mismatch
  | _ =>
    let target? : Option Int :=
      match address with
      | .int n => some n
      | .bool b => some (if b then 1 else 0)
      | .real x => x.toInt?
      | _ => none
    match target?.bind fun n => code.reverse.find? fun op => op.addr == n with
    | some op => .ok op
    | none => .error (.key address.literal)

/-- A distance added to an address. -/
def offset (base : Int) : Value → Except Fault Value
  | .int n => .ok (.int (base + n))
  | .bool b => .ok (.int (base + if b then 1 else 0))
  | .real x => .ok (.real (x.addInt base))
  | _ => .error .mismatch

/-- The sign of a distance: below zero, zero or above it. -/
def direction : Value → Except Fault Ordering
  | .int n => .ok (compare n 0)
  | .bool b => .ok (if b then .gt else .eq)
  | .real x => .ok (if x.isNegative then .lt else if x.isPositive then .gt else .eq)
  | _ => .error .mismatch

/-- Whether the walk has reached the address where it is to stop; zero, false and nothing never stop it. -/
def reached (until_ : Value) (addr : Int) : Bool :=
  match until_ with
  | .int n => n != 0 && addr == n
  | .bool b => b && addr == 1
  | .real x => !x.isZero && x.toInt? == some addr
  | _ => false

/-- The addresses of the arguments of a call. -/
def targets : Value → Except Fault (List Value)
  | .list items => .ok items
  | .text s => .ok (s.toList.map fun c => .text (String.singleton c))
  | _ => .error .mismatch

def pop : List Node → Except Fault (Node × List Node)
  | [] => .error (.index .emptyPop)
  | n :: rest => .ok (n, rest)

/-- A push of a literal, if the instruction is one. -/
def literal? (names : Names) (op : Opcode) : Option (Except Fault Node) :=
  match op.mnemonic with
  | .push | .pushb | .pushw | .pushf => some (.ok (.number op.operand))
  | .push0 | .push1 | .pushm => op.mnemonic.constant?.map fun n => .ok (.const n)
  | .pushsi | .pushsib | .pushsiw =>
    some ((item names.strings op.operand).map fun s => .string ("\"" ++ s ++ "\""))
  | .pushii | .pushiib | .pushiiw => some ((item names.identifiers op.operand).map .identifier)
  | _ => none

mutual

/-- The trees left on the stack, the top first, by the code from an address on. -/
def walk (names : Names) (code : List Opcode) : Nat → Value → Value → List Node → Except Fault (List Node)
  | 0, _, _, _ => .error .tooDeep
  | fuel + 1, address, until_, stack => do
    let op ← fetch code address
    let following := op.addr + op.size
    if reached until_ op.addr then .ok stack
    else match op.mnemonic with
      | .brk | .bra => .ok stack
      | .pop => walk names code fuel (.int following) until_ stack
      | .call => do
        let (callee, stack) ← pop stack
        let jumps ← targets op.operand
        let arguments ← walkAll names code fuel jumps
        let skip ← fetch code (.int following)
        let next ← offset (skip.addr + skip.size) skip.operand
        walk names code fuel next until_ (.call callee arguments :: stack)
      | .bf => do
        let after ← offset following op.operand
        let before ← offset (-5) after
        let skip ← fetch code before
        match ← direction skip.operand with
        | .lt => do
          let (test, stack) ← pop stack
          let body ← walk names code fuel (.int following) .null []
          walk names code fuel after until_ (.loop test body.reverse :: stack)
        | .eq => do
          let (test, stack) ← pop stack
          let yes ← walk names code fuel (.int following) .null []
          walk names code fuel after until_ (.branch test yes.reverse none :: stack)
        | .gt => do
          let (test, stack) ← pop stack
          let yes ← walk names code fuel (.int following) .null []
          let last ← offset (skip.addr + skip.size) skip.operand
          let no ← walk names code fuel after last []
          walk names code fuel last until_ (.branch test yes.reverse (some no.reverse) :: stack)
      | m =>
        match literal? names op, m.unary?, m.binary? with
        | some literal, _, _ => do
          let n ← literal
          walk names code fuel (.int following) until_ (n :: stack)
        | none, some u, _ => do
          let (argument, stack) ← pop stack
          walk names code fuel (.int following) until_ (.unary u argument.underUnary :: stack)
        | none, none, some b => do
          let (right, stack) ← pop stack
          let (left, stack) ← pop stack
          walk names code fuel (.int following) until_
            (.binary b (left.underBinary b) (right.underBinary b) :: stack)
        | none, none, none => .error (.value .unhandledOpcode)

/-- The trees of several walks, each in the order in which they were pushed. -/
def walkAll (names : Names) (code : List Opcode) : Nat → List Value → Except Fault (List (List Node))
  | 0, _ => .error .tooDeep
  | _ + 1, [] => .ok []
  | fuel + 1, jump :: jumps => do
    let argument ← walk names code fuel jump .null []
    let rest ← walkAll names code fuel jumps
    .ok (argument.reverse :: rest)

end

/-- A walk that ends visits no start address twice in a nest of walks that stop at one address, nor an address
twice in one walk, nor more arguments than there are. -/
def fuelFor (code : List Opcode) : Nat :=
  let arguments := code.map fun op => match op.operand with | .list items => items.length | _ => 0
  Nat.pow (code.length + arguments.foldl (· + ·) 2) 3

/-- The trees of a program. -/
def decompile (strings identifiers : List String) (code : List Opcode) : Except Fault (List Node) :=
  let names : Names := ⟨strings.map escape, identifiers.map escape⟩
  (walk names code (fuelFor code) (.int 0) .null []).map List.reverse

end GameData.Script
