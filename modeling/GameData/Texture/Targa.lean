import GameData.Bytes.Field

/-!
Targa images, as they are written for textures.
-/
namespace GameData.Texture

structure Targa where
  idLength : Int := 0
  colorMapType : Int := 0
  imageType : Int := 0
  firstIndexEntry : Int := 0
  colorMapLength : Int := 0
  colorMapEntrySize : Int := 0
  xOrigin : Int := 0
  yOrigin : Int := 0
  width : Int := 0
  height : Int := 0
  pixelDepth : Int := 0
  imageDescriptor : Int := 0
  imageID : Bytes := []
  colorMap : Bytes := []
  lines : Bytes := []
  extOffset : Int := 0
  devOffset : Int := 0
  signature : Bytes := Bytes.ofText "TRUEVISION-XFILE." ++ [0]
  deriving DecidableEq

namespace Targa

/-- Bitwise or of integers in two's complement. -/
def bitOr : Int → Int → Int
  | .ofNat m, .ofNat n => .ofNat (m ||| n)
  | .ofNat m, .negSucc n => .negSucc (n - (n &&& m))
  | .negSucc m, .ofNat n => .negSucc (m - (m &&& n))
  | .negSucc m, .negSucc n => .negSucc (m &&& n)

def setLines (t : Targa) (lines : Bytes) (width height depth : Int) : Targa :=
  { t with lines := lines, width := width, height := height, pixelDepth := depth }

/-- Adds alpha bits and the two flip bits to the descriptor. -/
def setDescriptor (t : Targa) (flipX flipY : Bool) (alpha : Int) : Targa :=
  let d := bitOr t.imageDescriptor alpha
  let d := if flipX then bitOr d 16 else d
  let d := if flipY then bitOr d 32 else d
  { t with imageDescriptor := d }

/-- What the four bands of a 16-bit pixel have in common once each is moved to its place. -/
def commonBands (pixel : Nat) : Nat :=
  (pixel &&& 0x8000) &&& ((pixel &&& 0x7c00) >>> 10) &&& (pixel &&& 0x03e0) &&& ((pixel &&& 0x001f) <<< 10)

/-- Reduces 16-bit pixels to a byte each; other depths stay. -/
def setBands (t : Targa) : Except Fault Targa :=
  if t.pixelDepth = 16 then
    if t.lines.length % 2 = 0 then
      .ok { t with lines := (Bytes.words 2 t.lines).map fun p => UInt8.ofNat (commonBands p) }
    else .error (.value .raggedWords)
  else .ok t

def header (t : Targa) : List (Field × Int) :=
  [(.u8, t.idLength), (.u8, t.colorMapType), (.u8, t.imageType), (.u16, t.firstIndexEntry), (.u16, t.colorMapLength),
   (.u8, t.colorMapEntrySize), (.u16, t.xOrigin), (.u16, t.yOrigin), (.u16, t.width), (.u16, t.height),
   (.u8, t.pixelDepth), (.u8, t.imageDescriptor)]

/-- The bytes of the file. -/
def encode (t : Targa) : Except Fault Bytes := do
  let head ← t.header.mapM fun (f, n) => f.packInt n
  if t.signature.length ≠ 18 then .error (.record (.count 20 (2 + t.signature.length)))
  else
    let ext ← Field.u32.packInt t.extOffset
    let dev ← Field.u32.packInt t.devOffset
    .ok (head.flatten ++ t.imageID ++ t.colorMap ++ t.lines ++ ext ++ dev ++ t.signature)

/-- Why a file cannot be read. The header is taken from the first twenty bytes but has eighteen, so that only a
file of just these is read on; and that is too short for the 26 bytes at its end. -/
def refusal (onDisk : Bool) (data : Bytes) : Fault :=
  if (data.take 20).length ≠ 18 then .record (.size 18)
  else if onDisk then .system .invalidArgument
  else .record (.size 26)

end Targa

end GameData.Texture
