import GameData.Bytes.Field

/-!
Texture files in their four versions.

A flat texture holds one bitmap, a sheet several of one size with a grid of patches behind them, and a levelled
texture up to ten bitmaps, each half as wide and high as the one before. Reading takes what the file holds: a
bitmap at the end may be cut short.
-/
namespace GameData.Texture

/-- The bytes of a pixel in a colour mode. -/
def depth? : Nat → Option Nat
  | 2 => some 2
  | 3 => some 4
  | 67 => some 4
  | _ => none

/-- The alpha bits of a pixel in a colour mode. -/
def alpha? : Nat → Option Nat
  | 2 => some 1
  | 3 => some 8
  | 67 => some 8
  | _ => none

def depth (mode : Nat) : Except Fault Nat :=
  match depth? mode with
  | some d => .ok d
  | none => .error (.key (toString mode))

structure Flat where
  signature : Bytes
  version : Nat
  unknown1 : Nat
  unknown2 : Nat
  lineWidth : Nat
  width : Nat
  height : Nat
  mode : Nat
  bitmaps : List Bytes
  deriving DecidableEq

/-- A cell of the grid behind a sheet. -/
structure Patch where
  words : List Nat
  deriving DecidableEq

structure Grid where
  signature : Bytes
  version : Nat
  unknown0 : Nat
  unknown1 : Nat
  unknown2 : Nat
  unknown3 : Nat
  columns : Nat
  rows : Nat
  patches : List Patch
  deriving DecidableEq

/-- A layer of a sheet of version seven. -/
structure Layer7 where
  offset : Nat
  lineWidth : Nat
  width : Nat
  unknown0 : Nat
  height : Nat
  reserved : Bytes
  deriving DecidableEq

/-- A layer of a sheet of version nine. -/
structure Layer9 where
  offset : Nat
  mode : Nat
  lineWidth : Nat
  width : Nat
  height : Nat
  unknown0 : Nat
  reserved : Bytes
  deriving DecidableEq

structure Sheet (layer : Type) where
  signature : Bytes
  version : Nat
  unknown0 : Nat
  unknown1 : Nat
  unknown2 : Nat
  unknown3 : Nat
  unknown4 : Nat
  offset : Nat
  count : Nat
  unknown5 : Nat
  width : Nat
  height : Nat
  mode : Nat
  layers : List layer
  bitmaps : List Bytes
  grid : Grid
  deriving DecidableEq

structure Levels where
  signature : Bytes
  version : Nat
  mode : Nat
  multi : Nat
  unknown0 : Nat
  unknown1 : Nat
  unknown2 : Nat
  unknown3 : Nat
  width : Nat
  height : Nat
  depth : Nat
  bitmaps : List Bytes
  deriving DecidableEq

inductive Loop where
  | flat (t : Flat)
  | sheet7 (t : Sheet Layer7)
  | sheet9 (t : Sheet Layer9)
  | levels (t : Levels)
  deriving DecidableEq

/-- A record of `size` bytes at the front, and the rest. -/
def record (size : Nat) (data : Bytes) : Except Fault (Bytes × Bytes) := do
  let head ← Bytes.exactly size (data.take size)
  .ok (head, data.drop size)

/-- `count` records of one size, each made into a value. -/
def records {α : Type} (size : Nat) (make : Bytes → α) : Nat → Bytes → Except Fault (List α × Bytes)
  | 0, data => .ok ([], data)
  | count + 1, data => do
    let (head, rest) ← record size data
    let (more, rest) ← records size make count rest
    .ok (make head :: more, rest)

/-- A bitmap for each layer. -/
def sheetBitmaps (width height mode : Nat) : Nat → Bytes → Except Fault (List Bytes × Bytes)
  | 0, data => .ok ([], data)
  | count + 1, data => do
    let d ← depth mode
    let bitmap ← Bytes.read (width * height * d) data
    let (more, rest) ← sheetBitmaps width height mode count (data.drop (width * height * d))
    .ok (bitmap :: more, rest)

def readFlat (data : Bytes) : Except Fault (Flat × Bytes) := do
  let (h, rest) ← record 24 data
  let width := h.u16 18
  let height := h.u16 20
  let mode := h.u16 22
  let d ← depth mode
  let bitmap ← Bytes.read (width * height * d) rest
  .ok (⟨h.slice 0 4, h.u32 4, h.u32 8, h.u32 12, h.u16 16, width, height, mode, [bitmap]⟩,
    rest.drop (width * height * d))

def readGrid (data : Bytes) : Except Fault (Grid × Bytes) := do
  let (h, rest) ← record 24 data
  let columns := h.u32 16
  let rows := h.u32 20
  let (patches, rest) ← records 16 (fun b => ⟨Bytes.words 4 b⟩) (columns * rows) rest
  .ok (⟨h.slice 0 4, h.u32 4, h.u16 8, h.u16 10, h.u16 12, h.u16 14, columns, rows, patches⟩, rest)

def layer7 (b : Bytes) : Layer7 := ⟨b.u32 0, b.u32 4, b.u16 8, b.u16 10, b.u16 12, b.slice 14 26⟩

def layer9 (b : Bytes) : Layer9 := ⟨b.u32 0, b.u32 4, b.u16 8, b.u16 10, b.u16 12, b.u16 14, b.slice 16 16⟩

def readSheet {layer : Type} (size : Nat) (make : Bytes → layer) (data : Bytes) :
    Except Fault (Sheet layer × Bytes) := do
  let (h, rest) ← record 52 data
  let count := h.u32 32
  let width := h.u32 40
  let height := h.u32 44
  let mode := h.u32 48
  let (layers, rest) ← records size make count rest
  let (bitmaps, rest) ← sheetBitmaps width height mode layers.length rest
  let (grid, rest) ← readGrid rest
  .ok (⟨h.slice 0 4, h.u32 4, h.u32 8, h.u32 12, h.u32 16, h.u32 20, h.u32 24, h.u32 28, count, h.u32 36,
    width, height, mode, layers, bitmaps, grid⟩, rest)

/-- Bitmaps from level `level` on, `count` of them at most; an empty one ends them. -/
def levelBitmaps (width height mode : Nat) : Nat → Nat → Bytes → Except Fault (List Bytes × Bytes)
  | 0, _, data => .ok ([], data)
  | count + 1, level, data => do
    let d ← depth mode
    let size := width / Nat.pow 2 level * (height / Nat.pow 2 level) * d
    let bitmap ← Bytes.read size data
    if bitmap.isEmpty then .ok ([], data)
    else
      let (more, rest) ← levelBitmaps width height mode count (level + 1) (data.drop size)
      .ok (bitmap :: more, rest)

def readLevels (data : Bytes) : Except Fault (Levels × Bytes) := do
  let (h, rest) ← record 32 data
  let mode := h.u32 8
  let width := h.u16 26
  let height := h.u16 28
  let (bitmaps, rest) ← levelBitmaps width height mode 10 0 rest
  .ok (⟨h.slice 0 4, h.u32 4, mode, h.u32 12, h.u32 16, h.u16 20, h.u16 22, h.u16 24, width, height, h.u16 30,
    bitmaps⟩, rest)

namespace Loop

/-- The texture in a file and what follows it there. -/
def decode (data : Bytes) : Except Fault (Loop × Bytes) := do
  let (h, _) ← record 8 data
  if h.slice 0 4 ≠ Bytes.ofText "LOOP" then .error (.check .signature)
  else match h.u32 4 with
    | 2 => (readFlat data).map fun (t, rest) => (.flat t, rest)
    | 7 => (readSheet 40 layer7 data).map fun (t, rest) => (.sheet7 t, rest)
    | 9 => (readSheet 32 layer9 data).map fun (t, rest) => (.sheet9 t, rest)
    | 11 => (readLevels data).map fun (t, rest) => (.levels t, rest)
    | _ => .error (.check .version)

def bitmaps : Loop → List Bytes
  | .flat t => t.bitmaps
  | .sheet7 t => t.bitmaps
  | .sheet9 t => t.bitmaps
  | .levels t => t.bitmaps

/-- The texture in a file, and the line printed when something follows it: the file's name. -/
def load (name : String) (data : Bytes) : Except Fault (Loop × String) :=
  (decode data).map fun (t, rest) => (t, if rest.isEmpty then "" else name ++ "\n")

/-- The reader of textures keeps none of them. -/
def save : Except Fault (Option Bytes) := Bytes.unwritten

end Loop

end GameData.Texture
