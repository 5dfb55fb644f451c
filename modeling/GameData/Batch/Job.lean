import GameData.Batch.Containers
import GameData.Batch.Folders
import GameData.Batch.Meshes
import GameData.Batch.Scripts
import GameData.Batch.Sounds
import GameData.Batch.Terrain
import GameData.Batch.Textures

/-!
All jobs, by the words that name them: a group and a command.
-/
namespace GameData.Batch

open Files

structure Job where
  group : String
  command : String
  /-- A target folder has to be given. -/
  hasTarget : Bool
  /-- A pattern may be given. -/
  hasFilter : Bool
  run : Request → Shell Unit

namespace Job

/-- A job that only reads. -/
def reads (group command : String) (run : Request → Shell Unit) : Job := ⟨group, command, false, false, run⟩

/-- A job that makes files in a target folder. -/
def makes (group command : String) (run : Request → Shell Unit) : Job := ⟨group, command, true, false, run⟩

/-- The job, with files chosen by a pattern. -/
def filtered (j : Job) : Job := { j with hasFilter := true }

def all : List Job :=
  [makes "bit" "export" Terrain.exportMasks,
   reads "cmd" "stat" Terrain.checkCommands,
   makes "cmd" "edit" Terrain.copyCommands,
   reads "ctr" "stat" Terrain.checkControls,
   makes "ctr" "edit" Terrain.copyControls,
   reads "filesys" "countexts" Folders.countExtensions,
   (reads "filesys" "listfiles" Folders.listFiles).filtered,
   (reads "filesys" "treefiles" Folders.showTree).filtered,
   (makes "filesys" "compfiles" Folders.compareFiles).filtered,
   (makes "filesys" "copyfiles" Folders.copyFiles).filtered,
   reads "fnt" "check" Meshes.checkFonts,
   makes "hmp" "export" Terrain.exportHeights,
   makes "hmp" "flat" Terrain.flattenHeights,
   (reads "ilff" "chunkset" Containers.countSequences).filtered,
   (reads "ilff" "chunksizegcd" Containers.showDivisors).filtered,
   (reads "ilff" "chunksizeset" Containers.showSizes).filtered,
   reads "level" "terrain_bit" Terrain.countMasks,
   reads "level" "terrain_cmd" Terrain.countCommands,
   makes "level" "terrain_ctr" Terrain.printControls,
   reads "level" "terrain_hmp" Terrain.countHeights,
   reads "level" "terrain_lmp" Terrain.countLights,
   reads "level" "terrain_qvm" Terrain.checkScripts,
   reads "level" "terrain_tex" Terrain.countBitmaps,
   makes "lmp" "export" Terrain.exportLights,
   makes "lmp" "flat" Terrain.flattenLights,
   reads "mef" "check" Meshes.check,
   makes "qvm" "decompile" Scripts.decompile,
   makes "qvm" "objects" Scripts.exportObjects,
   makes "qvm" "convert" Scripts.convert,
   makes "qvm" "terrain" Scripts.showMaterials,
   makes "tex" "convert" Textures.convert,
   makes "thm" "convert" (Terrain.convertMaps .height ".thm"),
   makes "tlm" "convert" (Terrain.convertMaps .light ".tlm"),
   makes "tmm" "convert" (Terrain.convertMaps .material ".tmm"),
   makes "wav" "export" Sounds.exportWaves]

def find? (group command : String) : Option Job := all.find? fun j => j.group == group && j.command == command

/-- The groups, each once. -/
def groups : List String := (all.map (·.group)).eraseDups

/-- The commands of a group. -/
def commands (group : String) : List String := (all.filter (·.group == group)).map (·.command)

end Job

end GameData.Batch
