import GameData.Files.Shell
import GameData.Image.Basic
import GameData.Text.Numeral
import GameData.Texture.Loop
import GameData.Value

/-!
Terrain textures: a header, layers of images, and a footer with a table of patches.

The fields of each part are kept by name, with whatever was put into them; a header has none until it is loaded or
made. Loading adds layers to those that are there.
-/
namespace GameData.Texture

open Files

/-- What stands in a field of a record: four bytes, or a number. -/
inductive Slot where
  | mark
  | number (f : Field)

namespace Slot

def width : Slot → Nat
  | .mark => 4
  | .number f => f.width

def decode (s : Slot) (b : Bytes) : Value :=
  match s with
  | .mark => .blob b
  | .number f => f.unpack b

/-- The bytes of a value. A mark is cut or filled with zeros to four bytes. -/
def encode (s : Slot) (v : Value) : Except Fault Bytes :=
  match s, v with
  | .mark, .blob b => .ok ((b ++ Bytes.zeros 4).take 4)
  | .mark, _ => .error (.record .notBytes)
  | .number f, v => f.pack v

end Slot

/-- Fields by name, in the order of the layout. -/
abbrev Layout := List (String × Slot)

/-- The values of some fields. -/
abbrev Fields := List (String × Value)

namespace Layout

def words (names : List String) : Layout := names.map fun n => (n, .number .u32)

def shorts (names : List String) : Layout := names.map fun n => (n, .number .u16)

def size (l : Layout) : Nat := l.foldl (fun n (_, s) => n + s.width) 0

def decode : Layout → Bytes → Fields
  | [], _ => []
  | (name, s) :: rest, b => (name, s.decode (b.take s.width)) :: decode rest (b.drop s.width)

/-- The record at the front of a file, and what follows it. -/
def read (l : Layout) (data : Bytes) : Except Fault (Fields × Bytes) := do
  let b ← Bytes.exactly l.size (data.take l.size)
  .ok (l.decode b, data.drop l.size)

/-- The bytes of a record; every field has to be set. -/
def write (l : Layout) (owner : String) (fields : Fields) : Except Fault Bytes := do
  let values ← l.mapM fun (name, s) => (demand owner name (fields.lookup name)).map fun v => (s, v)
  let parts ← values.mapM fun (s, v) => s.encode v
  .ok parts.flatten

end Layout

/-- The fields with one of them set. -/
def Fields.set (name : String) (v : Value) : Fields → Fields
  | [] => [(name, v)]
  | (k, old) :: rest => if k == name then (k, v) :: rest else (k, old) :: Fields.set name v rest

def headerLayout : Layout :=
  ("fourcc", .mark) :: Layout.words ["version", "unknow0", "unknow1", "unknow2", "unknow3", "unknow4", "footer_offset",
    "layer_count", "unknow5", "image_width", "image_height", "image_mode"]

def layerLayout : Layout :=
  Layout.words ["image_offset", "image_mode"]
    ++ Layout.shorts ["image_line_width", "image_width", "image_height", "unknow0"]
    ++ Layout.words ["reserved0", "reserved1", "reserved2", "reserved3"]

def footerLayout : Layout :=
  [("fourcc", .mark), ("version", .number .u32)] ++ Layout.shorts ["unknow0", "unknow1", "unknow2", "unknow3"]
    ++ Layout.words ["count_x", "count_y"]

structure TerrainLayer where
  fields : Fields
  pixels : Bytes := []

/-- A patch of the table in the footer: four numbers. -/
abbrev PatchRow := List (List Value)

structure TerrainSheet where
  header : Fields := []
  layers : List TerrainLayer := []
  footer : Fields := [("fourcc", .blob (Bytes.ofText "LOOP")), ("version", .int 6), ("unknow0", .int 0),
    ("unknow1", .int 0), ("unknow2", .int 0), ("unknow3", .int 0), ("count_x", .int 0), ("count_y", .int 0)]
  patches : List PatchRow := []

namespace TerrainSheet

/-- Changes one layer; a negative number counts from the last one. -/
def modifyLayer (t : TerrainSheet) (n : Int) (change : TerrainLayer → TerrainLayer) : Except Fault TerrainSheet :=
  let n := if n < 0 then n + t.layers.length else n
  if 0 ≤ n ∧ n < t.layers.length then .ok { t with layers := t.layers.modify n.toNat change }
  else .error (.index .list)

abbrev Loading := Filling (TerrainSheet × Bytes)

/-- The next record of the file. -/
def next (l : Layout) : Loading Fields := do
  let (t, rest) ← get
  let (fields, rest) ← Filling.attempt (l.read rest)
  set (t, rest)
  pure fields

def update (f : TerrainSheet → TerrainSheet) : Loading Unit := modify fun (t, rest) => (f t, rest)

/-- The bytes of the pixels of a layer. -/
def pixelBytes (fields : Fields) : Except Fault Int :=
  let mode := (fields.lookup "image_mode").getD .null
  let depth : Option Nat := match mode with | .int n => if 0 ≤ n then depth? n.toNat else none | _ => none
  match fields.lookup "image_width", fields.lookup "image_height", depth with
  | some (.int w), some (.int h), some d => .ok (w * h * d)
  | some (.int _), some (.int _), none => .error (.key mode.literal)
  | _, _, _ => .error .mismatch

/-- Reads the pixels of all layers; a layer whose size cannot be told ends this. -/
def loadPixels : List TerrainLayer → List TerrainLayer → Loading Unit
  | before, [] => update fun t => { t with layers := before }
  | before, layer :: rest => do
    match pixelBytes layer.fields with
    | .error f => do
      update fun t => { t with layers := before ++ layer :: rest }
      throw f
    | .ok size => do
      let (t, data) ← get
      let n := if size < 0 then data.length else size.toNat
      set (t, data.drop n)
      loadPixels (before ++ [{ layer with pixels := data.take n }]) rest

def loadLayers : Nat → Loading Unit
  | 0 => pure ()
  | n + 1 => do
    let fields ← next layerLayout
    update fun t => { t with layers := t.layers ++ [⟨fields, []⟩] }
    loadLayers n

def patchLayout : Layout := Layout.words ["x0", "x1", "x2", "x3"]

def readRow : Nat → Loading PatchRow
  | 0 => pure []
  | n + 1 => do
    let fields ← next patchLayout
    let rest ← readRow n
    pure (fields.map (·.2) :: rest)

def loadRows (columns : Nat) : Nat → Loading Unit
  | 0 => pure ()
  | n + 1 => do
    let row ← readRow columns
    update fun t => { t with patches := t.patches ++ [row] }
    loadRows columns n

def natOf (fields : Fields) (name : String) : Nat :=
  match fields.lookup name with
  | some (.int n) => n.toNat
  | _ => 0

def loadAll : Loading Unit := do
  let header ← next headerLayout
  update fun t => { t with header := header }
  loadLayers (natOf header "layer_count")
  let (t, _) ← get
  loadPixels [] t.layers
  let footer ← next footerLayout
  update fun t => { t with footer := footer, patches := [] }
  loadRows (natOf footer "count_y") (natOf footer "count_x")

/-- Loads a file. -/
def load (data : Bytes) (t : TerrainSheet) : Except Fault Unit × TerrainSheet :=
  let (outcome, t, _) := loadAll.fill (t, data)
  (outcome, t)

/-- The parts of the file in their order: the header, the heads of the layers, their pixels, the footer and the
patches. A part whose fields do not fit has no bytes. -/
def parts (t : TerrainSheet) : List (Except Fault Bytes) :=
  [headerLayout.write "TEXHeader" t.header]
    ++ t.layers.map (fun l => layerLayout.write "Layer" l.fields)
    ++ t.layers.map (fun l => .ok l.pixels)
    ++ [footerLayout.write "TEXFooter" t.footer]
    ++ t.patches.flatten.map (Field.u32.packMany 4)

/-- The bytes of the file. -/
def save (t : TerrainSheet) : Except Fault Bytes := (t.parts.mapM id).map List.flatten

/-- The bytes in front of the first part that has none. -/
def begun : List (Except Fault Bytes) → Bytes
  | .ok b :: rest => b ++ begun rest
  | _ => []

/-- What is wrong with the sides of an image: they have to be powers of two. -/
def checkSides (i : Image) : Except Fault Unit := do
  ensure (i.width != 0) (.value .logarithm)
  ensure (isPowerOfTwo i.width) (.check (.imageWidth i.width))
  ensure (i.height != 0) (.value .logarithm)
  ensure (isPowerOfTwo i.height) (.check (.imageHeight i.height))

/-- The layer of an image: mirrored and turned, which leaves the rows from the bottom up, and blue before red. -/
def layerOf (offset : Nat) (i : Image) : TerrainLayer where
  fields := [("image_offset", .int offset), ("image_mode", .int 3), ("image_line_width", .int (i.width * 4)),
    ("image_width", .int i.width), ("image_height", .int i.height), ("unknow0", .int 0), ("reserved0", .int 0),
    ("reserved1", .int 0), ("reserved2", .int 0), ("reserved3", .int 0)]
  pixels := Image.swapRedBlue i.flipLeftRight.halfTurn.data

def layerLine (i : Image) (size : Nat) : String := s!"RGBA ({i.width}, {i.height}) {size}"

/-- The layers of images, the first one at `offset`; a line is printed for each. -/
def makeLayers : Nat → List Image → Shell (List TerrainLayer)
  | _, [] => pure []
  | offset, i :: rest => do
    let i := i.toColourAlpha
    Filling.attempt (checkSides i)
    let layer := layerOf offset i
    Shell.say (layerLine i layer.pixels.length)
    let more ← makeLayers (offset + layer.pixels.length) rest
    pure (layer :: more)

/-- The header of a texture with `count` layers whose footer starts at `finish`; the sides are those of the first image. -/
def headerOf (count finish : Nat) (first : Image) : Fields :=
  [("fourcc", .blob (Bytes.ofText "LOOP")), ("version", .int 9), ("unknow0", .int 0), ("unknow1", .int 0),
    ("unknow2", .int 0), ("unknow3", .int 0), ("unknow4", .int 0), ("footer_offset", .int finish),
    ("layer_count", .int count), ("unknow5", .int 0), ("image_width", .int first.width),
    ("image_height", .int first.height), ("image_mode", .int 3)]

/-- A texture of images. -/
def ofImages (images : List Image) : Shell TerrainSheet := do
  let start := 52 + 32 * images.length
  let layers ← makeLayers start images
  match images with
  | [] => throw (.index .list)
  | first :: _ =>
    let finish := layers.foldl (fun n l => n + l.pixels.length) start
    pure { header := headerOf images.length finish first, layers := layers }

/-- The image in a file. -/
def openImage (path : String) : Shell Image := do
  match ← Shell.read path with
  | .picture i => pure i
  | _ => throw .unidentifiedImage

/-- Puts an item under its number; the last one put there stays. -/
def putNumbered {α : Type} (n : Int) (a : α) (items : List (Int × α)) : List (Int × α) :=
  (n, a) :: items.filter fun (m, _) => m != n

def layerNumber (name : String) : Except Fault Int :=
  let digits := String.ofList ((name.toList.drop 9).take 2)
  match Numeral.int? digits with
  | some n => .ok n
  | none => .error (.value (.decimalNumeral digits))

/-- The numbered terrain images in a folder, in the order of their numbers. -/
def loadImages (folder : String) : Shell (List Image) := do
  let names ← Shell.list folder
  let images ← (names.filter fun name => name.startsWith "terrain.#").foldlM (fun images name => do
    let n ← Filling.attempt (layerNumber name)
    let i ← openImage (Path.join folder name)
    pure (putNumbered n i images)) ([] : List (Int × Image))
  pure ((images.mergeSort fun a b => decide (a.1 ≤ b.1)).map (·.2))

/-- Makes a texture of the terrain images in a folder. The parts before one that cannot be written are there. -/
def replace (folder target : String) : Shell Unit := do
  let images ← loadImages folder
  let sheet ← ofImages images
  Shell.writeBytes target (begun sheet.parts)
  let _ ← Filling.attempt sheet.save

end TerrainSheet

end GameData.Texture
