import GameData.Number.Text
import GameData.Text.Literal

/-!
Untyped values: what a user may put into a field before anything has checked it.
-/
namespace GameData

inductive Value where
  | null
  | bool (b : Bool)
  | int (n : Int)
  | real (x : Double)
  | text (s : String)
  | blob (b : Bytes)
  | list (items : List Value)
  deriving Inhabited

namespace Value

mutual

/-- The value as it is written inside a report. -/
def literal : Value → String
  | .null => "None"
  | .bool true => "True"
  | .bool false => "False"
  | .int n => toString n
  | .real x => x.text
  | .text s => Literal.ofText s
  | .blob b => Literal.ofBytes b
  | .list items => "[" ++ ", ".intercalate (literals items) ++ "]"

def literals : List Value → List String
  | [] => []
  | v :: vs => v.literal :: literals vs

end

/-- The value as it is written on its own: a text stands without quotes. -/
def display : Value → String
  | .text s => s
  | v => v.literal

end Value

end GameData
