import GameData.Fault

/-!
Markup elements and their text.

A text may stand in an element when it holds no control character but tab, line feed and carriage return.
-/
namespace GameData.Markup

/-- An element with attributes in order; `text` stands before the children. -/
inductive Element where
  | mk (name : String) (attributes : List (String × String)) (text : String) (children : List Element)
  deriving Inhabited

namespace Element

def name : Element → String
  | .mk name .. => name

def attributes : Element → List (String × String)
  | .mk _ attributes .. => attributes

def children : Element → List Element
  | .mk _ _ _ children => children

/-- The element with one more child at its end. -/
def append : Element → Element → Element
  | .mk name attributes text children, child => .mk name attributes text (children ++ [child])

end Element

def isAllowed (c : Char) : Bool :=
  let n := c.toNat
  (0x20 ≤ n || n == 9 || n == 10 || n == 13) && n != 0xfffe && n != 0xffff

/-- The text, if it may stand in an element. -/
def accept (s : String) : Except Fault String :=
  if s.toList.all isAllowed then .ok s else .error (.value .markupText)

/-- How characters beyond ASCII are referred to. -/
inductive Reference where
  | decimal | hexadecimal
  deriving DecidableEq

/-- The digits of a number in base sixteen, in capitals. -/
def hexDigits (n : Nat) : String := String.ofList ((Nat.toDigits 16 n).map Char.toUpper)

def Reference.text (r : Reference) (c : Char) : String :=
  match r with
  | .decimal => "&#" ++ toString c.toNat ++ ";"
  | .hexadecimal => "&#x" ++ hexDigits c.toNat ++ ";"

def escapeAttribute (r : Reference) (s : String) : String :=
  String.join (s.toList.map fun c =>
    if c == '&' then "&amp;" else if c == '<' then "&lt;" else if c == '>' then "&gt;"
    else if c == '"' then "&quot;" else if c == '\t' then "&#9;" else if c == '\n' then "&#10;"
    else if c == '\r' then "&#13;" else if c.toNat < 0x80 then String.singleton c else r.text c)

def attributeText (r : Reference) (attributes : List (String × String)) : String :=
  String.join (attributes.map fun (k, v) => " " ++ k ++ "=\"" ++ escapeAttribute r v ++ "\"")

mutual

/-- An element with its children on lines of their own, two blanks deeper each. -/
def pretty (depth : Nat) : Element → String
  | .mk name attributes _ children =>
    let indent := String.ofList (List.replicate (2 * depth) ' ')
    let start := indent ++ "<" ++ name ++ attributeText .decimal attributes
    match children with
    | [] => start ++ "/>\n"
    | c :: cs => start ++ ">\n" ++ pretty (depth + 1) c ++ prettyAll (depth + 1) cs ++ indent ++ "</" ++ name ++ ">\n"

def prettyAll (depth : Nat) : List Element → String
  | [] => ""
  | c :: cs => pretty depth c ++ prettyAll depth cs

end

end GameData.Markup
