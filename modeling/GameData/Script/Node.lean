import GameData.Script.Opcode

/-!
Trees of scripts: expressions with explicit parentheses, and the two statements with bodies.
-/
namespace GameData.Script

inductive UnaryOp where
  | plus | minus | inv | not
  deriving DecidableEq

inductive BinaryOp where
  | add | sub | mul | div | shl | shr | and | or | xor | land | lor | eq | ne | lt | le | gt | ge | assign
  deriving DecidableEq

namespace UnaryOp

def symbol : UnaryOp → String
  | .plus => "+" | .minus => "-" | .inv => "~" | .not => "!"

end UnaryOp

namespace BinaryOp

def symbol : BinaryOp → String
  | .add => "+" | .sub => "-" | .mul => "*" | .div => "/" | .shl => "<<" | .shr => ">>" | .and => "&" | .or => "|"
  | .xor => "^" | .land => "&&" | .lor => "||" | .eq => "==" | .ne => "!=" | .lt => "<" | .le => "<=" | .gt => ">"
  | .ge => ">=" | .assign => "="

/-- The rank that decides about parentheses: an operand of a higher rank is enclosed. Sums rank as low as the
unary signs they share their symbols with. -/
def rank : BinaryOp → Nat
  | .add | .sub => 2
  | .mul | .div => 3
  | .shl | .shr => 5
  | .lt | .le | .gt | .ge => 6
  | .eq | .ne => 7
  | .and => 8
  | .xor => 9
  | .or => 10
  | .land => 11
  | .lor => 12
  | .assign => 14

end BinaryOp

namespace Mnemonic

def unary? : Mnemonic → Option UnaryOp
  | .plus => some .plus | .minus => some .minus | .inv => some .inv | .not => some .not
  | _ => none

def binary? : Mnemonic → Option BinaryOp
  | .add => some .add | .sub => some .sub | .mul => some .mul | .div => some .div | .shl => some .shl
  | .shr => some .shr | .and => some .and | .or => some .or | .xor => some .xor | .land => some .land
  | .lor => some .lor | .eq => some .eq | .ne => some .ne | .lt => some .lt | .le => some .le | .gt => some .gt
  | .ge => some .ge | .assign => some .assign
  | _ => none

/-- The value of an instruction that pushes one fixed number. -/
def constant? : Mnemonic → Option Nat
  | .push0 => some 0 | .push1 => some 1 | .pushm => some 0xffffffff
  | _ => none

end Mnemonic

inductive Node where
  | number (value : Value)
  | const (value : Nat)
  /-- A string literal with its quotes. -/
  | string (text : String)
  | identifier (name : String)
  | unary (op : UnaryOp) (argument : Node)
  | binary (op : BinaryOp) (left right : Node)
  /-- A call; each argument is the list of what its code leaves on the stack. -/
  | call (callee : Node) (arguments : List (List Node))
  | paren (body : Node)
  | loop (test : Node) (body : List Node)
  | branch (test : Node) (yes : List Node) (no : Option (List Node))
  deriving Inhabited

namespace Node

/-- The name of a kind of node in reports. -/
def kind : Node → String
  | .number _ => "LiteralNumber"
  | .const _ => "LiteralConst"
  | .string _ => "LiteralString"
  | .identifier _ => "LiteralIdentifier"
  | .unary .. => "ExpressionUnary"
  | .binary .. => "ExpressionBinary"
  | .call .. => "ExpressionCall"
  | .paren _ => "StatementParenthese"
  | .loop .. => "StatementWhile"
  | .branch .. => "StatementIf"

/-- The operand of a unary operator: an operator inside is enclosed. -/
def underUnary : Node → Node
  | n@(.unary ..) => .paren n
  | n@(.binary ..) => .paren n
  | n => n

/-- The operand of a binary operator: an operator of a higher rank inside is enclosed. -/
def underBinary (op : BinaryOp) : Node → Node
  | n@(.binary inner _ _) => if op.rank < inner.rank then .paren n else n
  | n => n

end Node

end GameData.Script
