import GameData.Mesh.Kind
import GameData.Table.Layout

/-!
The records of single mesh chunks, chosen by the kind of chunk, the size of its data and the model type.
-/
namespace GameData.Mesh.Chunk

open Table

def date : Shape := runs [(7, u32)]

def head : Shape :=
  runs [(1, f32), (1, date), (1, u32), (1, .many 12 u8), (1, .many 3 (runs [(4, f32)])), (6, u32), (1, f32), (7, u16),
    (1, .many 30 u8), (1, .many 8 u8)]

/-- The layout of the records of a chunk, if they have one and need no more than the size and the model type. -/
def shape? (k : Kind) (size : Nat) (modelType : Int) : Option Shape :=
  match k with
  | .hsem => some head
  | .atta => some (runs [(1, .text 16), (12, f32), (2, i32)])
  | .xtvm => some (runs [(3, f32), (1, u32)])
  | .trop => some (runs [(5, u32)])
  | .xvtp | .cftp => some (runs [(3, u32)])
  | .d3dr =>
    if size = 36 then some (runs [(9, u32)])
    else if size = 40 then some (runs [(10, u32)])
    else if size = 44 then some (runs [(11, u32)])
    else none
  | .ecaf => some (runs [(3, u16)])
  | .dner =>
    if modelType = 0 ∨ modelType = 1 then some (runs [(2, u16), (3, f32), (5, u16), (1, u32), (1, u16)])
    else if modelType = 3 then some (runs [(2, u16), (3, f32), (6, u16)])
    else none
  | .xtrv =>
    if modelType = 0 then some (runs [(8, f32)])
    else if modelType = 1 then some (runs [(10, f32)])
    else if modelType = 3 then some (runs [(7, f32)])
    else none
  | .manb => some (runs [(1, .text 16)])
  | .wolg => some (runs [(7, f32), (1, u32)])
  | .pmtl => some (runs [(2, u32)])
  | .hsmc => some (runs [(16, u32)])
  | .xtvc => some (runs [(5, f32)])
  | .ecfc => some (runs [(6, u16)])
  | .tamc => some (runs [(4, u32)])
  | .hpsc => some (runs [(4, f32), (4, u16)])
  | .txan => some (runs [(1, u32)])
  | .sems => some (runs [(7, u32)])
  | .xtvs => some (runs [(3, f32)])
  | .cafs => some (runs [(4, u32), (3, f32)])
  | .egde => some (runs [(2, u32)])
  | .reih | .hprm => none

/-- What a chunk holds: a table, two tables, or nothing known. -/
inductive Contents where
  | table (rows : List Datum)
  | pair (first second : List Datum)
  | unknown

/-- The hierarchy of bones cannot be read: the layout of its second half is missing. -/
def readHierarchy (b : Bytes) : Except Fault Contents := do
  let _ ← (runs [(3, f32)]).table (b.take (b.length / 13))
  .error (.undefined "DTYPE_REIH_P2")

def parse (k : Kind) (modelType : Int) (b : Bytes) : Except Fault Contents :=
  match k with
  | .reih => readHierarchy b
  | .hprm => do
    let first ← (runs [(2, u32), (1, .many 14 u32)]).table (b.take 64)
    let second ← (runs [(1, u32), (3, f32)]).table (b.drop 64)
    .ok (.pair first second)
  | k =>
    match shape? k b.length modelType with
    | some s => (s.table b).map .table
    | none => .ok .unknown

end GameData.Mesh.Chunk
