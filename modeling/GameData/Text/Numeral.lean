import GameData.Number.Binary
import GameData.Text.Blank

/-!
Numbers written as text: white space around, a sign, digits of any script, and single underscores between
digits.
-/
namespace GameData.Numeral

open Text

/-- The digits in front, underscores between them left out, and the rest. -/
def digits : List Char → List Nat × List Char
  | [] => ([], [])
  | c :: cs =>
    match digit? c with
    | none => ([], c :: cs)
    | some d =>
      match cs with
      | '_' :: e :: rest =>
        match digit? e with
        | some _ => let (ds, rest) := digits (e :: rest); (d :: ds, rest)
        | none => ([d], '_' :: e :: rest)
      | cs => let (ds, rest) := digits cs; (d :: ds, rest)

def value (ds : List Nat) : Nat := ds.foldl (fun n d => n * 10 + d) 0

/-- The sign in front. -/
def sign : List Char → Bool × List Char
  | '-' :: cs => (true, cs)
  | '+' :: cs => (false, cs)
  | cs => (false, cs)

/-- The most digits a whole number may have. -/
def mostDigits : Nat := 4300

def int? (s : String) : Option Int :=
  let (negative, cs) := sign (trim s.toList)
  match digits cs with
  | ([], _) => none
  | (ds, []) =>
    if mostDigits < ds.length then none else some (if negative then -(value ds : Int) else value ds)
  | _ => none

/-- The exponent after its mark, zero when there is none. -/
def exponent? : List Char → Option Int
  | [] => some 0
  | c :: cs =>
    if c == 'e' || c == 'E' then
      let (negative, cs) := sign cs
      match digits cs with
      | ([], _) => none
      | (ds, []) => some (if negative then -(value ds : Int) else value ds)
      | _ => none
    else none

/-- Digits, perhaps a point and more digits, and an exponent; at least one digit before or after the point. -/
def decimal? (negative : Bool) (cs : List Char) : Option Double :=
  let (whole, rest) := digits cs
  let (fraction, rest) :=
    match rest with
    | '.' :: rest => digits rest
    | rest => ([], rest)
  if whole.isEmpty && fraction.isEmpty then none
  else
    (exponent? rest).map fun e =>
      let exponent : Int := e - fraction.length
      let n := value (whole ++ fraction)
      -- beyond these bounds every such number is zero or infinite
      if n = 0 then Double.ofDecimal negative 0 0
      else if 100000 < exponent then Double.infinity negative
      else if exponent < -100000 - (whole ++ fraction).length then Double.ofDecimal negative 0 0
      else Double.ofDecimal negative n exponent

def real? (s : String) : Option Double :=
  let (negative, cs) := sign (trim s.toList)
  let word := String.ofList (cs.map Char.toLower)
  if word == "inf" || word == "infinity" then some (Double.infinity negative)
  else if word == "nan" then some Double.nan
  else decimal? negative cs

end GameData.Numeral
