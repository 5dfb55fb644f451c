import GameData.Fault
import GameData.Text.Numeral
import GameData.Value

/-!
Rules for the fields of records.

A rule turns an untyped value into a checked one, or says what is wrong with it. `Rule.checkAll` checks a record
field by field and collects all complaints.
-/
namespace GameData.Schema

/-- A named member of an enumeration. -/
structure Member where
  name : String
  value : Int

inductive Rule where
  /-- Whole numbers from `least`, to `most`, and below `limit`. -/
  | integer (least most limit : Option Int)
  | real
  /-- A list of whole numbers. -/
  | integers
  /-- A member of an enumeration. -/
  | choice (enumeration : String) (members : List Member)
  | bytes
  /-- A byte string that no value satisfies. -/
  | unmatchable

def issue (place : List Step) (message code : String) : Issue := { place := place, message := message, code := code }

def missing (place : List Step) : Issue := issue place "field required" "value_error.missing"

def nullGiven (place : List Step) : Issue :=
  issue place "none is not an allowed value" "type_error.none.not_allowed"

/-- The whole number a value stands for; a fraction is cut off, an infinite one exceeds every whole number. -/
def integerOf (place : List Step) (v : Value) : Except Fault Int :=
  let wrong : Fault := .invalid [issue place "value is not a valid integer" "type_error.integer"]
  match v with
  | .int n => .ok n
  | .bool b => .ok (if b then 1 else 0)
  | .real x =>
    match x.truncate? with
    | some n => .ok n
    | none => .error (if x.isNaN then wrong else .overflow)
  | .text s =>
    match Numeral.int? s with
    | some n => .ok n
    | none => .error wrong
  | _ => .error wrong

/-- The floating-point number a value stands for. -/
def realOf (place : List Step) (v : Value) : Except Fault Double :=
  let wrong : Fault := .invalid [issue place "value is not a valid float" "type_error.float"]
  match v with
  | .real x => .ok x
  | .int n =>
    match Double.ofInt? n with
    | some x => .ok x
    | none => .error .overflow
  | .bool b => .ok (if b then ⟨0x3ff0000000000000⟩ else ⟨0⟩)
  | .text s =>
    match Numeral.real? s with
    | some x => .ok x
    | none => .error wrong
  | _ => .error wrong

def bytesOf (place : List Step) (v : Value) : Except Fault Bytes :=
  match v with
  | .blob b => .ok b
  | .text s => .ok (Bytes.ofText s)
  | .int _ | .bool _ | .real _ => .ok (Bytes.ofText v.display)
  | _ => .error (.invalid [issue place "byte type expected" "type_error.bytes"])

/-- A bound that a number does not keep. -/
def boundIssue (place : List Step) (relation code : String) (bound : Int) : Fault :=
  .invalid [{ place := place, message := s!"ensure this value is {relation} {bound}", code := code,
              context := "\x7b'limit_value': " ++ toString bound ++ "\x7d" }]

def checkBounds (place : List Step) (least most limit : Option Int) (n : Int) : Except Fault Int :=
  match least with
  | some a => if n < a then .error (boundIssue place "greater than or equal to" "value_error.number.not_ge" a) else upper
  | none => upper
where
  upper : Except Fault Int :=
    match limit with
    | some a => if a ≤ n then .error (boundIssue place "less than" "value_error.number.not_lt" a) else last
    | none => last
  last : Except Fault Int :=
    match most with
    | some a => if a < n then .error (boundIssue place "less than or equal to" "value_error.number.not_le" a) else .ok n
    | none => .ok n

/-- Checks of the items of a list; all complaints are kept, any other fault ends them. -/
def checkItems (place : List Step) : Nat → List Value → Except Fault (List Int)
  | _, [] => .ok []
  | i, v :: vs => do
    let place' := place ++ [.position i]
    let first : Except Fault Int :=
      match v with
      | .null => .error (.invalid [nullGiven place'])
      | v => integerOf place' v
    match first with
    | .ok n => (checkItems place (i + 1) vs).map (n :: ·)
    | .error (.invalid issues) =>
      match checkItems place (i + 1) vs with
      | .error (.invalid more) => .error (.invalid (issues ++ more))
      | .error f => .error f
      | .ok _ => .error (.invalid issues)
    | .error f => .error f

def choiceIssue (place : List Step) (enumeration : String) (members : List Member) : Issue :=
  { place := place,
    message := "value is not a valid enumeration member; permitted: "
      ++ ", ".intercalate (members.map fun m => toString m.value),
    code := "type_error.enum",
    context := "\x7b'enum_values': ["
      ++ ", ".intercalate (members.map fun m => "<" ++ enumeration ++ "." ++ m.name ++ ": " ++ toString m.value ++ ">")
      ++ "]\x7d" }

namespace Rule

/-- The checked value of a field. -/
def check (r : Rule) (place : List Step) (v : Value) : Except Fault Value :=
  match r, v with
  | _, .null => .error (.invalid [nullGiven place])
  | .integer least most limit, v => do
    let n ← integerOf place v
    (checkBounds place least most limit n).map .int
  | .real, v => (realOf place v).map .real
  | .integers, .list items => (checkItems place 0 items).map fun ns => .list (ns.map .int)
  | .integers, _ => .error (.invalid [issue place "value is not a valid list" "type_error.list"])
  | .choice enumeration members, v => do
    let n ← integerOf place v
    if members.any fun m => m.value == n then .ok (.int n)
    else .error (.invalid [choiceIssue place enumeration members])
  | .bytes, v => (bytesOf place v).map .blob
  | .unmatchable, v => do
    let b ← bytesOf place v
    .error (.invalid [{ place := place, message := "unexpected value; permitted: None", code := "value_error.const",
                        context := "\x7b'given': " ++ Literal.ofBytes b ++ ", 'permitted': [None]\x7d" }])

/-- Checks a record against its fields in their order; all complaints are kept. -/
def checkAll (given : List (String × Value)) : List (String × Rule) → Except Fault (List (String × Value))
  | [] => .ok []
  | (name, rule) :: rest =>
    let first : Except Fault Value :=
      match given.lookup name with
      | none => .error (.invalid [missing [.field name]])
      | some v => rule.check [.field name] v
    match first with
    | .ok v => (checkAll given rest).map ((name, v) :: ·)
    | .error (.invalid issues) =>
      match checkAll given rest with
      | .error (.invalid more) => .error (.invalid (issues ++ more))
      | .error f => .error f
      | .ok _ => .error (.invalid issues)
    | .error f => .error f

end Rule

end GameData.Schema
