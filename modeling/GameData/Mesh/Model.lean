import GameData.Container.Walk
import GameData.Mesh.Kind
import GameData.Table.Layout

/-!
Mesh files as tables.

Each chunk of the container becomes a table; some layouts depend on the model type in the head chunk, which has
to come before them. A part of the render mesh is a record that tells the number of its indices, followed by
its faces. What the chunks before a fault have given is kept.
-/
namespace GameData.Mesh

open Filling Table

namespace Model

def head : Shape :=
  runs [(12, u32), (12, f32), (6, u32), (1, f32), (6, u16), (1, .many 20 u8)]

/-- The place of the model type in the head. -/
def modelTypeColumn : Nat := 8

def attachment : Shape := runs [(1, .text 16), (1, .many 3 f32), (9, f32), (1, i32)]

def magicVertex : Shape := runs [(1, .many 3 f32), (1, i32)]

def portal : Shape := runs [(5, u32)]

def portalVertex : Shape := .many 3 f32

def portalFace : Shape := .many 3 u32

def renderHead? : Nat → Option Shape
  | 0 => some (runs [(4, u32), (1, .many 8 u32)])
  | 1 => some (runs [(6, u32), (1, .many 8 u32)])
  | 3 => some (runs [(7, u32), (1, .many 7 u32)])
  | _ => none

def partHead? : Nat → Option Shape
  | 0 | 1 => some (runs [(1, .many 3 f32), (8, i16)])
  | 3 => some (runs [(1, .many 3 f32), (10, i16)])
  | _ => none

def face : Shape := .many 3 u16

def renderVertex? : Nat → Option Shape
  | 0 => some (runs [(1, .many 3 f32), (3, f32), (1, .many 2 f32)])
  | 1 | 3 => some (runs [(1, .many 3 f32), (3, f32), (2, .many 2 f32)])
  | _ => none

def lightmap : Shape := runs [(4, u16)]

def collisionHead : Shape := runs [(8, u32)]

def collisionVertex : Shape := runs [(1, .many 3 f32), (1, f32)]

def collisionFace : Shape := runs [(4, u16)]

def collisionMaterial : Shape := runs [(6, i16)]

def collisionSphere : Shape := runs [(4, f32), (4, i16)]

end Model

/-- A part of the render mesh. -/
structure Part where
  head : List Datum
  faces : List Datum
  deriving Inhabited

/-- The tables of a mesh file. -/
structure Model where
  /-- Nothing before the head chunk was read. -/
  hsem : Option (List Datum) := none
  atta : List Datum := []
  xtvm : List Datum := []
  trop : List Datum := []
  xvtp : List Datum := []
  cftp : List Datum := []
  d3dr : List Datum := []
  dner : List Part := []
  xtrv : List Datum := []
  pmtl : List Datum := []
  hsmc : List Datum := []
  xtvc : List (List Datum) := []
  ecfc : List (List Datum) := []
  tamc : List (List Datum) := []
  hpsc : List (List Datum) := []
  txan : Option Bytes := none
  deriving Inhabited

namespace Model

/-- A loading model and the walk through its file. -/
abbrev Loading := Filling (Model × Container.Walk)

def readChunk (n : Int) : Loading Bytes := onSecond (Container.Walk.readChunk n)

def update (f : Model → Model) : Loading Unit := modify fun (m, w) => (f m, w)

/-- The model type from the head chunk. -/
def modelType (m : Model) : Except Fault Nat :=
  match m.hsem with
  | none => .error .mismatch
  | some [] => .error (.index (.axis 0 0))
  | some (row :: _) => .ok (row.part modelTypeColumn).toInt.toNat

/-- The layout for the model type. -/
def layoutFor (shapes : Nat → Option Shape) : Loading Shape := do
  let (m, _) ← get
  let type ← attempt m.modelType
  match shapes type with
  | some s => pure s
  | none => throw (.key s!"np.uint32({type})")

def tableOf (s : Shape) : Loading (List Datum) := do
  let b ← readChunk (-1)
  attempt (s.table b)

/-- The parts of the render mesh. Each part takes at least its head, so the bytes of the file bound their
number; the part whose next offset is `-1` is the last. -/
def readParts (size : Nat) : Nat → Loading (List Part)
  | 0 => throw .tooDeep
  | fuel + 1 => do
    let position ← onSecond (Container.Walk.onChunk Container.Window.tell)
    let position := (position.bind id).getD 0
    if (size : Int) ≤ position then pure []
    else
      let shape ← layoutFor partHead?
      let b ← readChunk shape.size
      let rows ← attempt (shape.table b)
      match rows with
      | [row] => do
        let count := (row.part 1).toInt
        let b ← readChunk (count * 2)
        let faces ← attempt (face.table b)
        let part : Part := ⟨rows, faces⟩
        if (row.part 2).toInt = -1 then pure [part]
        else do
          let more ← readParts size fuel
          pure (part :: more)
      | _ => throw .mismatch

/-- The table of one chunk. -/
def loadChunk (h : Container.Head) : Loading Unit := do
  match Kind.ofFourcc? h.fourcc with
  | some .hsem => do let t ← tableOf head; update ({ · with hsem := some t })
  | some .atta => do let t ← tableOf attachment; update ({ · with atta := t })
  | some .xtvm => do let t ← tableOf magicVertex; update ({ · with xtvm := t })
  | some .trop => do let t ← tableOf portal; update ({ · with trop := t })
  | some .xvtp => do let t ← tableOf portalVertex; update ({ · with xvtp := t })
  | some .cftp => do let t ← tableOf portalFace; update ({ · with cftp := t })
  | some .d3dr => do
    let b ← readChunk (-1)
    let s ← layoutFor renderHead?
    let t ← attempt (s.table b)
    update ({ · with d3dr := t })
  | some .dner => do
    let (_, w) ← get
    let parts ← readParts h.size (w.outer.2.data.length + 2)
    update ({ · with dner := parts })
  | some .xtrv => do
    let b ← readChunk (-1)
    let s ← layoutFor renderVertex?
    let t ← attempt (s.table b)
    update ({ · with xtrv := t })
  | some .pmtl => do let t ← tableOf lightmap; update ({ · with pmtl := t })
  | some .hsmc => do let t ← tableOf collisionHead; update ({ · with hsmc := t })
  | some .xtvc => do let t ← tableOf collisionVertex; update fun m => { m with xtvc := m.xtvc ++ [t] }
  | some .ecfc => do let t ← tableOf collisionFace; update fun m => { m with ecfc := m.ecfc ++ [t] }
  | some .tamc => do let t ← tableOf collisionMaterial; update fun m => { m with tamc := m.tamc ++ [t] }
  | some .hpsc => do let t ← tableOf collisionSphere; update fun m => { m with hpsc := m.hpsc ++ [t] }
  | some .txan => do let b ← readChunk (-1); update ({ · with txan := some b })
  | _ => throw (.value .unexpectedChunk)
  let rest ← readChunk (-1)
  require rest.isEmpty (.check .endOfChunk)

/-- Fills the model from a file. -/
def load (stream : Stream) (m : Model) : Except Fault Unit × Model :=
  match Container.Walk.openFile stream with
  | .error f => (.error f, m)
  | .ok walk =>
    let (r, (m, _)) := (Container.Walk.forEach loadChunk).fill (m, walk)
    (r, m)

def save (_m : Model) : Except Fault (Option Bytes) := Bytes.unwritten

end Model

end GameData.Mesh
