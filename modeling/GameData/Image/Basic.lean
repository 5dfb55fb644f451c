import GameData.Fault

/-!
Images as rows of pixels.
-/
namespace GameData

/-- How the pixels of an image are coded. -/
inductive PixelMode where
  /-- One bit a pixel, eight pixels a byte from the high bit down, each row filled up to whole bytes. -/
  | bilevel
  | grey
  | greyAlpha
  | colour
  | colourAlpha
  /-- A byte that is looked up in a palette. -/
  | indexed
  /-- A 32-bit floating-point number. -/
  | real
  deriving DecidableEq

namespace PixelMode

def name : PixelMode → String
  | .bilevel => "1"
  | .grey => "L"
  | .greyAlpha => "LA"
  | .colour => "RGB"
  | .colourAlpha => "RGBA"
  | .indexed => "P"
  | .real => "F"

def all : List PixelMode := [.bilevel, .grey, .greyAlpha, .colour, .colourAlpha, .indexed, .real]

def ofName? (s : String) : Option PixelMode := all.find? fun m => m.name == s

/-- The number of bytes in a row of pixels. -/
def rowSize (m : PixelMode) (width : Nat) : Nat :=
  match m with
  | .bilevel => (width + 7) / 8
  | .grey | .indexed => width
  | .greyAlpha => 2 * width
  | .colour => 3 * width
  | .colourAlpha | .real => 4 * width

end PixelMode

structure Image where
  mode : PixelMode
  width : Nat
  height : Nat
  data : Bytes
  /-- Red, green and blue of each colour. -/
  palette : Bytes := []
  deriving DecidableEq

namespace Image

/-- The number of bytes of all rows. -/
def dataSize (m : PixelMode) (width height : Nat) : Nat := m.rowSize width * height

/-- The image whose rows stand at the front of a string; what follows them is left out. -/
def ofBytes (m : PixelMode) (width height : Nat) (b : Bytes) : Except Fault Image :=
  if b.length < dataSize m width height then .error (.value .fewPixels)
  else .ok { mode := m, width := width, height := height, data := b.take (dataSize m width height) }

/-- The rows from top to bottom. -/
def rows (i : Image) : List Bytes := Bytes.chunks (i.mode.rowSize i.width) i.data

/-- The size of a pixel in bytes, for the modes that give a pixel whole bytes. -/
def pixelSize (i : Image) : Nat := i.mode.rowSize 1

/-- A row with its pixels in reverse order. -/
def reverseRow (i : Image) (row : Bytes) : Bytes := (Bytes.chunks i.pixelSize row).reverse.flatten

/-- Left and right exchanged. -/
def flipLeftRight (i : Image) : Image := { i with data := (i.rows.map i.reverseRow).flatten }

/-- Top and bottom exchanged. -/
def flipTopBottom (i : Image) : Image := { i with data := i.rows.reverse.flatten }

/-- Turned by 180 degrees. -/
def halfTurn (i : Image) : Image := { i with data := (i.rows.reverse.map i.reverseRow).flatten }

/-- Colours of four bytes with the first and the third exchanged. -/
def swapRedBlue : Bytes → Bytes
  | r :: g :: b :: a :: rest => b :: g :: r :: a :: swapRedBlue rest
  | rest => rest

/-- The bits of a row from left to right. -/
def bits (width : Nat) (row : Bytes) : List Bool :=
  (row.flatMap fun x => (List.range 8).map fun i => (x >>> UInt8.ofNat (7 - i)) % 2 == 1).take width

def greyPixels : Bytes → Bytes
  | [] => []
  | v :: rest => v :: v :: v :: 255 :: greyPixels rest

def greyAlphaPixels : Bytes → Bytes
  | v :: a :: rest => v :: v :: v :: a :: greyAlphaPixels rest
  | _ => []

def colourPixels : Bytes → Bytes
  | r :: g :: b :: rest => r :: g :: b :: 255 :: colourPixels rest
  | _ => []

/-- The colour with a number; colours that the palette lacks are black. -/
def paletteColour (palette : Bytes) (n : Nat) : Bytes :=
  [palette.getD (3 * n) 0, palette.getD (3 * n + 1) 0, palette.getD (3 * n + 2) 0, 255]

/-- The image in colours with alpha. -/
def toColourAlpha (i : Image) : Image :=
  let data :=
    match i.mode with
    | .colourAlpha | .real => i.data
    | .bilevel => greyPixels ((i.rows.flatMap (bits i.width)).map fun on => if on then 255 else 0)
    | .grey => greyPixels i.data
    | .greyAlpha => greyAlphaPixels i.data
    | .colour => colourPixels i.data
    | .indexed => i.data.flatMap fun n => paletteColour i.palette n.toNat
  { mode := .colourAlpha, width := i.width, height := i.height, data := data }

end Image

/-- A power of two, one included. -/
def isPowerOfTwo (n : Nat) : Bool := n != 0 && Nat.pow 2 n.log2 == n

end GameData
