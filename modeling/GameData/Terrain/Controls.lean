import GameData.Bytes.Field
import GameData.Loading

/-!
Tables of terrain control points: rows of eight signed 16-bit, eight signed 8-bit and eight unsigned 8-bit
numbers.
-/
namespace GameData.Terrain.Controls

def columns : List Field :=
  List.replicate 8 .i16 ++ List.replicate 8 .i8 ++ List.replicate 8 .u8

def rowSize : Nat := 32

abbrev Row := List Int

/-- The numbers of a row from its bytes. -/
def readRow : List Field → Bytes → Row
  | [], _ => []
  | f :: fs, b => f.unpackInt (b.take f.width) :: readRow fs (b.drop f.width)

def writeRow : List Field → Row → Bytes
  | f :: fs, n :: ns => Bytes.ofInt f.width n ++ writeRow fs ns
  | _, _ => []

/-- The rows of a file, which must consist of whole rows. -/
def decode (data : Bytes) : Except Fault (List Row) :=
  if data.length % rowSize = 0 then .ok ((Bytes.chunks rowSize data).map (readRow columns))
  else .error (.value .raggedTable)

def encode (rows : List Row) : Bytes := (rows.map (writeRow columns)).flatten

/-- Replaces the table by that of a file. -/
def load (data : Bytes) (rows : Option (List Row)) : Except Fault Unit × Option (List Row) :=
  match decode data with
  | .ok rows => (.ok (), some rows)
  | .error f => (.error f, rows)

def save (rows : Option (List Row)) : Except Fault Bytes := (demand "CTR" "items" rows).map encode

/-- A column by its name or its number. -/
inductive Column where
  | name (s : String)
  | number (n : Int)

/-- Columns are named by two digits after an underscore. -/
def columnName (n : Nat) : String := "_" ++ (if n < 10 then "0" else "") ++ toString n

def Column.index : Column → Except Fault Nat
  | .name s =>
    match (List.range columns.length).find? fun n => columnName n == s with
    | some n => .ok n
    | none => .error (.value (.noFieldNamed s))
  | .number n =>
    let m : Int := if n < 0 then n + columns.length else n
    if 0 ≤ m ∧ m < columns.length then .ok m.toNat else .error (.index (.record m))

/-- A row by its number; a negative one counts from the end. -/
def rowIndex (rows : List Row) (n : Int) : Except Fault Nat :=
  let m : Int := if n < 0 then n + rows.length else n
  if 0 ≤ m ∧ m < rows.length then .ok m.toNat else .error (.index (.axis n rows.length))

/-- The table with one number replaced by one that fits its column. -/
def set (rows : List Row) (row : Int) (column : Column) (n : Int) : Except Fault (List Row) := do
  let r ← rowIndex rows row
  let c ← column.index
  let f := columns.getD c .u8
  if f.least ≤ n ∧ n < f.limit then .ok (rows.modify r fun cells => cells.set c n)
  else .error .overflow

end GameData.Terrain.Controls
