import GameData.Script.Node
import GameData.Text.Markup

/-!
Scripts that only declare and create tasks, as markup.

A declaration becomes an element with a child for each field, a creation an element with a child for each
argument after the third; tasks nest.
-/
namespace GameData.Script

/-- What a tree becomes in markup: a text for an attribute, an element, or nothing. -/
inductive Rendering where
  | text (s : String)
  | element (e : Markup.Element)
  | nothing
  deriving Inhabited

namespace Rendering

/-- The rendering inside a larger text. -/
def inText : Rendering → String
  | .text s => s
  | .element e => "<Element " ++ e.name ++ ">"
  | .nothing => "None"

/-- The rendering as the value of an attribute. -/
def asAttribute : Rendering → Except Fault String
  | .text s => Markup.accept s
  | _ => .error .mismatch

/-- The rendering as a child. -/
def asChild : Rendering → Except Fault Markup.Element
  | .element e => .ok e
  | _ => .error .mismatch

end Rendering

/-- The rendering of an argument, and whether the argument is a literal or an operator. -/
structure Argument where
  isPlain : Bool
  rendering : Except Fault Rendering

/-- The arguments, each of which must have left something on the stack. -/
def collect (heads : List (Option Argument)) : Except Fault (List Argument) :=
  heads.mapM fun
    | some a => .ok a
    | none => .error (.index .list)

def argumentAt (args : List Argument) (n : Nat) : Except Fault Rendering :=
  match args[n]? with
  | some a => a.rendering
  | none => .error (.index .list)

/-- The fields of a declaration come in pairs of a description and a type. -/
def declaredFields : List Argument → Except Fault (List Markup.Element)
  | [] => .ok []
  | [a] => do
    let _ ← a.rendering
    .error (.index .list)
  | a :: b :: rest => do
    let desc ← a.rendering
    let type ← b.rendering
    let desc ← desc.asAttribute
    let type ← type.asAttribute
    let more ← declaredFields rest
    .ok (.mk "field" [("desc", desc), ("type", type)] "" [] :: more)

def declaration (args : List Argument) : Except Fault Markup.Element := do
  let name ← argumentAt args 0
  let name ← name.asAttribute
  let fields ← declaredFields (args.drop 1)
  .ok (.mk "Task_DeclareParameters" [("name", name)] "" fields)

def creation (args : List Argument) : Except Fault Markup.Element := do
  let id ← argumentAt args 0
  let type ← argumentAt args 1
  let desc ← argumentAt args 2
  let id ← id.asAttribute
  let type ← type.asAttribute
  let desc ← desc.asAttribute
  let children ← (args.drop 3).mapM fun a => do
    let r ← a.rendering
    if a.isPlain then
      let value ← r.asAttribute
      .ok (.mk "arg" [("value", value)] "" [])
    else r.asChild
  .ok (.mk "Task_New" [("id", id), ("type", type), ("desc", desc)] "" children)

namespace Node

/-- A literal or an operator. -/
def isPlain : Node → Bool
  | .number _ | .const _ | .string _ | .identifier _ | .unary .. | .binary .. => true
  | _ => false

/-- The value of a literal in the position of a callee. -/
def calleeText : Node → Except Fault String
  | .number value => .ok value.display
  | .const value => .ok (toString value)
  | .string text => .ok text
  | .identifier name => .ok name
  | n => .error (.unset n.kind "value")

/-- The name of a task function in the position of a callee. -/
def taskName? : Node → Option String
  | .identifier name => some name
  | .number (.text name) => some name
  | _ => none

mutual

def render : Node → Except Fault Rendering
  | .number value => .ok (.text value.display)
  | .const value => .ok (.text (toString value))
  | .string text => .ok (.text (String.ofList (text.toList.drop 1).dropLast))
  | .identifier name => .ok (.text name)
  | .unary op argument => do
    let a ← argument.render
    .ok (.text (op.symbol ++ a.inText))
  | .binary op left right => do
    let l ← left.render
    let r ← right.render
    .ok (.text (l.inText ++ " " ++ op.symbol ++ " " ++ r.inText))
  | .call callee arguments => do
    let _ ← callee.calleeText
    match callee.taskName? with
    | some "Task_DeclareParameters" => do
      let args ← collect (heads arguments)
      let e ← declaration args
      .ok (.element e)
    | some "Task_New" => do
      let args ← collect (heads arguments)
      let e ← creation args
      .ok (.element e)
    | _ => .ok .nothing
  | .paren _ | .loop .. | .branch .. => .ok .nothing

/-- The first tree of each argument. -/
def heads : List (List Node) → List (Option Argument)
  | [] => []
  | [] :: rest => none :: heads rest
  | (first :: _) :: rest => some ⟨first.isPlain, first.render⟩ :: heads rest

end

/-- A tree at the top of a script, which must be a declaration or a creation. -/
def renderTop : Node → Except Fault Markup.Element
  | n@(.call callee _) => do
    let name ← callee.calleeText
    match callee.taskName? with
    | some "Task_DeclareParameters" | some "Task_New" =>
      let r ← n.render
      r.asChild
    | _ => .error (.value (.unexpectedCallee name))
  | n => .error (.value (.unexpectedNode n.kind))

end Node

/-- The markup text of a script. -/
def taskMarkup (nodes : List Node) : Except Fault String := do
  let children ← nodes.mapM Node.renderTop
  .ok (Markup.pretty 0 (.mk "root" [] "" children))

end GameData.Script
