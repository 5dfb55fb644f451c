import GameData.Batch.Terrain
import GameData.Mesh.Model

/-!
Jobs on meshes and fonts.
-/
namespace GameData.Batch.Meshes

open Files

/-- Loads all meshes. The check of their parts asks for a field that parts do not have. -/
def check (r : Request) : Shell Unit :=
  r.forSources ["*.mef"] fun p => do
    let data ← Shell.readBytes p
    let model ← Terrain.loaded (Mesh.Model.load { data := data, kind := .disk } {}) id
    if model.dner.isEmpty then pure () else throw (.value (.noFieldNamed "objectid"))

/-- Fonts have no such check. -/
def checkFonts (r : Request) : Shell Unit :=
  r.forSources ["*.fnt"] fun _ => throw (.noMember "format.fnt" "fromfile")

end GameData.Batch.Meshes
