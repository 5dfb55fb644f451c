import GameData.Command.Convert
import GameData.Command.Tools
import GameData.Files.Encode

/-!
The command line: the first word chooses a program, which works on the files below the working folder.
-/
namespace GameData.CommandLine

open Files

/-- The program of a name. A group of the converter is a program of its own. -/
def program? (name : String) (words : List String) : Option (Shell Unit) :=
  match name with
  | "tools" => some (Command.Tools.run words)
  | "search" => some (Command.Search.run words)
  | "terrain" => some (Command.Terrain.run words)
  | "convert" => some (Command.Convert.toExit (Command.Convert.run words))
  | name => (Command.Convert.group? name).map fun g => g.main words

/-- The folders and files below a place. -/
partial def listing (place : Place) : IO (List Place × List (Place × Content)) := do
  let folder ← IO.FS.realPath ("/".intercalate ("." :: place))
  let mut folders := []
  let mut files := []
  for entry in ← folder.readDir do
    let below := place ++ [entry.fileName]
    if ← entry.path.isDir then
      let (more, inside) ← listing below
      folders := below :: more ++ folders
      files := inside ++ files
    else
      let data ← IO.FS.readBinFile entry.path
      files := (below, .raw data.toList) :: files
  return (folders, files)

/-- Brings the disk to what has changed. -/
def commit (changes : Tree.Changes) : IO Unit := do
  for folder in changes.made do
    IO.FS.createDirAll folder
  for (path, content) in changes.written do
    IO.FS.writeBinFile path (content.encode path).toByteArray
  for path in changes.removed do
    IO.FS.removeFile path

/-- Runs a program on the working folder. What was written before a fault stays. -/
def run (program : Shell Unit) : IO UInt32 := do
  let (folders, files) ← listing []
  let tree := Tree.ofListing folders files
  let (result, session) := program.fill { tree := tree }
  commit (Tree.changes tree session.tree)
  IO.print session.printed
  match result with
  | .ok () => return 0
  | .error (.exit code) => return UInt32.ofNat code
  | .error fault =>
    IO.eprintln fault.message
    return 1

end GameData.CommandLine

/-- Runs the program that the first argument names. -/
def main (arguments : List String) : IO UInt32 := do
  match arguments with
  | name :: words =>
    match GameData.CommandLine.program? name words with
    | some program => GameData.CommandLine.run program
    | none =>
      IO.eprintln ("there is no program " ++ name)
      return 2
  | [] =>
    IO.eprintln "usage: gamedata PROGRAM [WORD ...]"
    return 2
