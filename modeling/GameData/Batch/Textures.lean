import GameData.Batch.Terrain
import GameData.Texture.Targa

/-!
Jobs on textures.
-/
namespace GameData.Batch.Textures

open Files Texture

/-- What the conversion of a texture needs of it. -/
structure Facts where
  version : Nat
  mode : Nat
  width : Nat
  height : Nat

def facts : Loop → Facts
  | .flat t => ⟨t.version, t.mode, t.width, t.height⟩
  | .sheet7 t => ⟨t.version, t.mode, t.width, t.height⟩
  | .sheet9 t => ⟨t.version, t.mode, t.width, t.height⟩
  | .levels t => ⟨t.version, t.mode, t.width, t.height⟩

def alpha (mode : Nat) : Except Fault Nat :=
  match alpha? mode with
  | some n => .ok n
  | none => .error (.key (toString mode))

/-- The suffix for a bitmap, and its width and height. The bitmaps of a sheet are numbered; those of levels are half
as large as the ones before. -/
def bitmapPlan (f : Facts) (count i : Nat) : String × Nat × Nat :=
  if (f.version = 7 ∨ f.version = 9) ∧ 1 < count then (".#" ++ zeroPadded 2 i ++ ".tga", f.width, f.height)
  else if f.version = 11 ∧ 0 < i then (".%" ++ zeroPadded 2 i ++ ".tga", f.width / Nat.pow 2 i, f.height / Nat.pow 2 i)
  else (".tga", f.width, f.height)

/-- The image of a bitmap. -/
def targa (f : Facts) (width height : Nat) (bitmap : Bytes) : Except Fault Targa := do
  let depth ← depth f.mode
  let alpha ← alpha f.mode
  .ok ((({ imageType := 2 } : Targa).setLines bitmap width height (depth * 8)).setDescriptor true true alpha)

def lastFour (s : String) : String := String.ofList (s.toList.drop (s.length - 4))

/-- Textures as images, one for each bitmap. -/
def convert (r : Request) : Shell Unit := do
  let n ← r.foldSources ["*.tex", "*.spr", "*.pic"] 0 fun n p => do
    let texture ← Terrain.readTexture p
    let target ← r.moved p
    Shell.say target
    Shell.makeFolderFor target
    let f := facts texture
    (Terrain.numbered texture.bitmaps).forM fun (bitmap, i) => do
      let (suffix, width, height) := bitmapPlan f texture.bitmaps.length i
      let image ← Filling.attempt (targa f width height bitmap)
      let file := replaceAll target (lastFour p) suffix
      Shell.writeBytes file []
      let data ← Filling.attempt image.encode
      Shell.writeBytes file data
    pure (n + 1)
  Shell.say s!"Converted: {n}"

end GameData.Batch.Textures
