import GameData.Fault

/-!
Dates with a time of day.
-/
namespace GameData

structure Timestamp where
  year : Nat
  month : Nat
  day : Nat
  hour : Nat
  minute : Nat
  second : Nat
  microsecond : Nat
  deriving DecidableEq

namespace Timestamp

def isLeap (year : Nat) : Bool := year % 4 == 0 && (year % 100 != 0 || year % 400 == 0)

def daysIn (year month : Nat) : Nat :=
  if month == 2 then (if isLeap year then 29 else 28)
  else if month == 4 || month == 6 || month == 9 || month == 11 then 30
  else 31

/-- The parts in their order, if they make up a date. Words that no signed 32-bit number holds fail first. -/
def check (t : Timestamp) : Except Fault Timestamp :=
  if [t.year, t.month, t.day, t.hour, t.minute, t.second, t.microsecond].any fun n => decide (0x80000000 ≤ n) then
    .error .overflow
  else if t.year < 1 ∨ 9999 < t.year then .error (.value (.date (.year t.year)))
  else if t.month < 1 ∨ 12 < t.month then .error (.value (.date .month))
  else if t.day < 1 ∨ daysIn t.year t.month < t.day then .error (.value (.date .day))
  else if 23 < t.hour then .error (.value (.date .hour))
  else if 59 < t.minute then .error (.value (.date .minute))
  else if 59 < t.second then .error (.value (.date .second))
  else if 999999 < t.microsecond then .error (.value (.date .microsecond))
  else .ok t

/-- The number with at least `w` digits. -/
def padded (w n : Nat) : String :=
  let digits := toString n
  String.ofList (List.replicate (w - digits.length) '0') ++ digits

/-- Date and time with a `T` between them; microseconds only when there are some. -/
def text (t : Timestamp) : String :=
  padded 4 t.year ++ "-" ++ padded 2 t.month ++ "-" ++ padded 2 t.day ++ "T" ++ padded 2 t.hour ++ ":"
    ++ padded 2 t.minute ++ ":" ++ padded 2 t.second
    ++ (if t.microsecond = 0 then "" else "." ++ padded 6 t.microsecond)

def words (t : Timestamp) : List Nat := [t.year, t.month, t.day, t.hour, t.minute, t.second, t.microsecond]

end Timestamp

end GameData
