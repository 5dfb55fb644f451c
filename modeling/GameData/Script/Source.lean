import GameData.Script.Node
import GameData.Fault

/-!
Script trees as source text.

Calls among the arguments of a call start a line of their own, and a line that would exceed three hundred
characters is broken before the argument that exceeds it. Statements inside a loop are written without
indentation and end.
-/
namespace GameData.Script

def tabs (n : Nat) : String := String.ofList (List.replicate n '\t')

namespace Node

def isCall : Node → Bool
  | .call .. => true
  | _ => false

def isBranch : Node → Bool
  | .branch .. => true
  | _ => false

def isLoop : Node → Bool
  | .loop .. => true
  | _ => false

mutual

/-- The text of a tree at a depth. -/
def source (depth : Nat) : Node → Except Fault String
  | .number value => .ok value.display
  | .const value => .ok (toString value)
  | .string text => .ok text
  | .identifier name => .ok name
  | .unary op argument => do
    let a ← argument.source (depth + 1)
    .ok (op.symbol ++ a)
  | .binary op left right => do
    let l ← left.source (depth + 1)
    let r ← right.source (depth + 1)
    .ok (l ++ " " ++ op.symbol ++ " " ++ r)
  | .call callee arguments => do
    let c ← callee.source (depth + 1)
    let parts ← argumentSources depth c.length arguments
    .ok (c ++ "(" ++ ", ".intercalate parts ++ ")")
  | .paren body => do
    let b ← body.source (depth + 1)
    .ok ("(" ++ b ++ ")")
  | .loop test body => do
    let t ← test.source (depth + 1)
    let b ← loopBody depth body
    .ok (tabs depth ++ "while(" ++ t ++ ")\n" ++ tabs depth ++ "\x7b\n" ++ b ++ tabs depth ++ "\x7d\n")
  | .branch test yes no => do
    let t ← test.source (depth + 1)
    let y ← yesBody depth yes
    let n ← noPart depth no
    .ok (tabs depth ++ "if(" ++ t ++ ")\n" ++ tabs depth ++ "\x7b\n" ++ y ++ tabs depth ++ "\x7d\n" ++ n)

/-- The texts of arguments, the line holding `length` characters so far. -/
def argumentSources (depth length : Nat) : List (List Node) → Except Fault (List String)
  | [] => .ok []
  | [] :: _ => .error (.index .list)
  | (first :: _) :: rest => do
    let s ← first.source (depth + 1)
    let (s, length) :=
      if first.isCall then
        let s := "\n" ++ tabs (depth + 1) ++ s
        (s, s.length + 2)
      else if 300 < length + s.length then
        let s := "\n" ++ s
        (s, s.length + 2)
      else (s, length + (s.length + 2))
    let more ← argumentSources depth length rest
    .ok (s :: more)

def loopBody (depth : Nat) : List Node → Except Fault String
  | [] => .ok ""
  | s :: rest => do
    let t ← s.source (depth + 1)
    let more ← loopBody depth rest
    .ok (t ++ "\n" ++ more)

def yesBody (depth : Nat) : List Node → Except Fault String
  | [] => .ok ""
  | s :: rest => do
    let t ← s.source (depth + 1)
    let more ← yesBody depth rest
    .ok ((if s.isBranch then t else tabs (depth + 1) ++ t ++ ";\n") ++ more)

def noBody (depth : Nat) : List Node → Except Fault String
  | [] => .ok ""
  | s :: rest => do
    let t ← s.source (depth + 1)
    let more ← noBody depth rest
    .ok ((if s.isBranch then t ++ "\n" else tabs (depth + 1) ++ t ++ ";\n") ++ more)

def noPart (depth : Nat) : Option (List Node) → Except Fault String
  | none => .ok ""
  | some body => do
    let b ← noBody depth body
    .ok (tabs depth ++ "else\n" ++ tabs depth ++ "\x7b\n" ++ b ++ tabs depth ++ "\x7d\n")

end

end Node

/-- The text of a script. -/
def sourceText : List Node → Except Fault String
  | [] => .ok ""
  | s :: rest => do
    let t ← s.source 0
    let more ← sourceText rest
    .ok ((if s.isBranch || s.isLoop then t else t ++ ";\n") ++ more)

end GameData.Script
