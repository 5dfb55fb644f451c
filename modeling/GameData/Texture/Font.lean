import GameData.Container.Walk
import GameData.Table.Layout

/-!
Bitmap fonts: containers with a head, the places of the characters, the character set, and one image with its
own head. The data of a chunk is taken from the stream at the position where the chunk starts, whatever size
the chunk has.
-/
namespace GameData.Texture

open Filling Table

structure FontHead where
  unknown0 : Nat
  count : Nat
  unknown1 : Nat
  unknown2 : Nat
  unknown3 : Nat
  unknown4 : Nat
  deriving DecidableEq

structure FontImageHead where
  unknown5 : Nat
  unknown6 : Nat
  unknown7 : Nat
  unknown8 : Nat
  outerWidth : Nat
  outerHeight : Nat
  width : Nat
  height : Nat
  depth : Nat
  deriving DecidableEq

/-- The parts of a font that have been read. -/
structure Font where
  head : Option FontHead := none
  places : Option (List Datum) := none
  characters : Option Bytes := none
  imageHead : Option FontImageHead := none
  image : Option Bytes := none
  deriving Inhabited

namespace Font

abbrev Loading := Filling (Font × Container.Walk)

/-- The place of a character in the image. -/
def place : Shape := runs [(1, u32), (4, f32), (4, u16), (3, u32)]

def readStream (n : Nat) : Loading Bytes := onSecond (Container.Walk.onStream (Stream.read n))

def update (f : Font → Font) : Loading Unit := modify fun (font, w) => (f font, w)

def headOf (b : Bytes) : FontHead := ⟨b.u32 0, b.u32 4, b.u32 8, b.u32 12, b.u32 16, b.u32 20⟩

/-- The first number takes two bytes, and two more stand before the words. -/
def imageHeadOf (b : Bytes) : FontImageHead :=
  ⟨b.u16 0, b.u32 4, b.u32 8, b.u32 12, b.u16 16, b.u16 18, b.u16 20, b.u16 22, b.u16 24⟩

def loadChunk (h : Container.Head) : Loading Unit := do
  if h.fourcc = Bytes.ofText "FNTH" then
    let b ← readStream 24
    let b ← attempt (Bytes.exactly 24 b)
    update ({ · with head := some (headOf b) })
  else if h.fourcc = Bytes.ofText "ANMF" then
    let b ← readStream h.size
    require (b.length % place.size == 0) (.record (.ragged place.size))
    update ({ · with places := some ((Bytes.chunks place.size b).map place.decode) })
  else if h.fourcc = Bytes.ofText "TRAN" then
    let b ← readStream h.size
    update ({ · with characters := some b })
  else if h.fourcc = Bytes.ofText "TEXH" then
    let b ← readStream 26
    let b ← attempt (Bytes.exactly 26 b)
    update ({ · with imageHead := some (imageHeadOf b) })
  else if h.fourcc = Bytes.ofText "BODY" then
    let (font, _) ← get
    let head ← attempt (demand "FNT" "width" font.imageHead)
    let b ← readStream (head.width * head.height * head.depth)
    update ({ · with image := some b })
  else throw (.value .unexpectedFourcc)

/-- Fills the font from a file. -/
def load (stream : Stream) (font : Font) : Except Fault Unit × Font :=
  match Container.Walk.openFile stream with
  | .error f => (.error f, font)
  | .ok walk =>
    let (r, (font, _)) := (Container.Walk.forEach loadChunk).fill (font, walk)
    (r, font)

/-- Fonts cannot even be asked to be written. -/
def save (_font : Font) : Except Fault (Option Bytes) := .error (.unset "FNT" "save")

end Font

end GameData.Texture
