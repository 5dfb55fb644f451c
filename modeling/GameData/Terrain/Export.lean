import GameData.Files.Shell
import GameData.Number.Single
import GameData.Terrain.DatedMap
import GameData.Terrain.Forest

/-!
Maps and forests in other formats: images, arrays of numbers, markup.

Each image of a map goes to a file of its own, named after the target with the number of the level.
-/
namespace GameData.Terrain

open Files

/-- How images are turned before they are stored. -/
structure Flips where
  leftRight : Bool := false
  topBottom : Bool := false

def Flips.apply (f : Flips) (i : Image) : Image :=
  let i := if f.leftRight then i.flipLeftRight else i
  if f.topBottom then i.flipTopBottom else i

namespace DatedMap

/-- The numbers of an image of real numbers, row by row. -/
def heights (i : Image) : List Single := (Bytes.words 4 i.data).map fun n => ⟨UInt32.ofNat n⟩

/-- Heights as bytes: moved up by the size of the lowest one, and then scaled so that the highest one is 255. -/
def normalised : List Single → Bytes
  | [] => []
  | x :: xs =>
    let low := Single.minimum x xs
    let shifted := (x :: xs).map fun y => y.add low.abs
    let top := Single.maximum (x.add low.abs) shifted
    let factor := (Single.ofNat 255).div top
    shifted.map fun y => (y.mul factor).toByte

/-- The heights as a grey image. Its rows are as long as the map is high. -/
def normalisedImage (i : Image) : Image :=
  { mode := .grey, width := i.height, height := i.width, data := normalised (heights i) }

/-- The colours of the sixteen materials. -/
def materialPalette : Bytes :=
  [0x00, 0x00, 0x00, 0x00, 0x80, 0x00, 0xff, 0xff, 0x00, 0x00, 0x00, 0xff, 0xff, 0x00, 0x00, 0x00, 0xff, 0xff,
   0xff, 0xa5, 0x00, 0xee, 0x82, 0xee, 0xff, 0xc0, 0xcb, 0x00, 0x64, 0x00, 0x8b, 0x00, 0x00, 0xff, 0x8c, 0x00,
   0x94, 0x00, 0xd3, 0xff, 0xb6, 0xc1, 0xff, 0xff, 0xe0, 0xff, 0xff, 0xff]

/-- The materials as colours; of each pixel four bits are stored. -/
def materialImage (i : Image) : Image := { i with data := i.data.map (· % 16), palette := materialPalette }

/-- Stores every image of a map with `store`, under names that end in the number of the level and `ending`. -/
def exportLevels (m : DatedMap) (flips : Flips) (target : Path) (extension ending : String)
    (store : String → Image → Shell Unit) : Shell Unit :=
  (m.levels.zip (List.range m.levels.length)).forM fun (i, n) => do
    let p ← Filling.attempt (target.withSuffix (extension ++ s!".lod{n}" ++ ending))
    store p.text (flips.apply i)

/-- A height map as images; without normalising it has no image format. -/
def exportHeights (m : DatedMap) (flips : Flips) (normalise : Bool) (target : Path) : Shell Unit :=
  m.exportLevels flips target ".thm" ".png" fun p i =>
    Shell.writePicture p (if normalise then normalisedImage i else i)

/-- A height map as arrays; the rows are as long as the map is high. -/
def exportArrays (m : DatedMap) (flips : Flips) (ending : String) (target : Path) : Shell Unit :=
  m.exportLevels flips target ".thm" ending fun p i => Shell.write p (.grid i.width i.height (heights i))

def exportLights (m : DatedMap) (flips : Flips) (target : Path) : Shell Unit :=
  m.exportLevels flips target ".tlm" ".png" Shell.writePicture

def exportMaterials (m : DatedMap) (flips : Flips) (target : Path) : Shell Unit :=
  m.exportLevels flips target ".tmm" ".png" fun p i => Shell.writePicture p (materialImage i)

end DatedMap

/-- A forest as markup. The file is there before its text is known. -/
def Forest.exportMarkup (f : Forest) (target : Path) : Shell Unit := do
  let p ← Filling.attempt (target.withSuffix ".xml")
  Shell.writeBytes p.text []
  let text ← Filling.attempt f.markup
  Shell.writeText p.text text

end GameData.Terrain
