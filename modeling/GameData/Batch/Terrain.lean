import GameData.Batch.Request
import GameData.Terrain.Commands
import GameData.Terrain.Controls
import GameData.Terrain.MapHeader
import GameData.Terrain.Squares
import GameData.Texture.Loop
import GameData.Script.Program

/-!
Jobs on the files of a terrain.
-/
namespace GameData.Batch.Terrain

open Files GameData.Terrain

/-- The outcome of a load together with what was loaded. -/
def loaded {σ α : Type} (outcome : Except Fault Unit × σ) (view : σ → α) : Shell α := do
  Filling.attempt outcome.1
  pure (view outcome.2)

def readMasks (path : String) : Shell (List Square) := do
  let data ← Shell.readBytes path
  loaded (Masks.load data none) (·.getD [])

def readHeights (path : String) : Shell (List Square) := do
  let data ← Shell.readBytes path
  loaded (Heights.load data []) id

def readLights (path : String) : Shell (List LightSquare) := do
  let data ← Shell.readBytes path
  loaded (Lights.load data []) id

def readCommands (path : String) : Shell (List Command) := do
  let data ← Shell.readBytes path
  loaded (Command.load data []) id

def readControls (path : String) : Shell (List Controls.Row) := do
  let data ← Shell.readBytes path
  loaded (Controls.load data none) (·.getD [])

/-- The name of the image of a square: the name of the file without suffix, and the number of the square. -/
def squareFile (target source : String) (n : Nat) : String :=
  let base := Path.baseName source
  Path.join target (String.ofList (base.toList.take (base.length - 4)) ++ ".#" ++ zeroPadded 3 n ++ ".png")

/-- Items with their numbers. -/
def numbered {α : Type} (items : List α) : List (α × Nat) := items.zip (List.range items.length)

/-- Stores a square as an image of so many pixels a side. -/
def storeSquare (path : String) (mode : PixelMode) (side : Int) (data : Bytes) : Shell Unit := do
  Shell.makeFolderFor path
  let i ← Filling.attempt (Image.ofBytes mode side.toNat side.toNat data)
  Shell.writePicture path i

/-- The squares of mask files as images of two colours. -/
def exportMasks (r : Request) : Shell Unit :=
  r.forSources ["*.bit"] fun p => do
    let target ← r.moved p
    let squares ← readMasks p
    (numbered squares).forM fun (s, n) =>
      if s.side = 0 then pure () else storeSquare (squareFile target p n) .bilevel s.side s.data

/-- Says which image a square becomes, and stores it unless only that was asked for. -/
def saySquare (r : Request) (path : String) (side : Int) (data : Bytes) : Shell Unit := do
  Shell.say path
  if ← r.onlySay then pure () else storeSquare path .grey side data

/-- The squares of height files as grey images. -/
def exportHeights (r : Request) : Shell Unit :=
  r.forSources ["*.hmp"] fun p => do
    let target ← r.moved p
    let squares ← readHeights p
    (numbered squares).forM fun (s, n) =>
      if s.side = 0 then pure () else saySquare r (squareFile target p n) (s.side + 1) s.data

/-- The squares of light files as grey images. -/
def exportLights (r : Request) : Shell Unit :=
  r.forSources ["*.lmp"] fun p => do
    let target ← r.moved p
    let squares ← readLights p
    (numbered squares).forM fun (s, n) =>
      if s.side = 0 then pure () else saySquare r (squareFile target p n) s.side s.data

/-- Height files with all heights zero. The folder they go to has to be there. -/
def flattenHeights (r : Request) : Shell Unit :=
  r.forSources ["*.hmp"] fun p => do
    let target ← r.moved p
    let squares ← readHeights p
    Shell.writeBytes target []
    let data ← Filling.attempt (Heights.save (Heights.flatten squares))
    Shell.writeBytes target data

/-- Light files with all lights zero. -/
def flattenLights (r : Request) : Shell Unit :=
  r.forSources ["*.lmp"] fun p => do
    let target ← r.moved p
    Shell.makeFolderFor target
    let squares ← readLights p
    Shell.writeBytes target []
    let data ← Filling.attempt (Lights.save (Lights.flatten squares))
    Shell.writeBytes target data

def checkCommands (r : Request) : Shell Unit :=
  r.forSources ["*.cmd"] fun p => do
    let _ ← readCommands p

/-- Writes command files anew. -/
def copyCommands (r : Request) : Shell Unit :=
  r.forSources ["*.cmd"] fun p => do
    let commands ← readCommands p
    let target ← r.moved p
    Shell.makeFolderFor target
    Shell.writeBytes target []
    let data ← Filling.attempt (Command.save commands)
    Shell.writeBytes target data

def checkControls (r : Request) : Shell Unit :=
  r.forSources ["*.ctr"] fun p => do
    let _ ← readControls p

/-- Writes control files anew. -/
def copyControls (r : Request) : Shell Unit :=
  r.forSources ["*.ctr"] fun p => do
    let rows ← readControls p
    let target ← r.moved p
    Shell.makeFolderFor target
    Shell.writeBytes target (Controls.encode rows)

/-- Says where the image of each map goes, and makes the folder for it, which must not be there. Maps cannot be
loaded, so nothing ever is said. -/
def convertMaps (kind : MapKind) (extension : String) (r : Request) : Shell Unit :=
  r.forSources ["*" ++ extension] fun p => do
    let data ← Shell.readBytes p
    loaded (PlainMap.load kind data none) fun _ => ()
    let target ← r.moved p
    let target := replaceAll target extension ".tga"
    Shell.say target
    if ← r.onlySay then pure () else Shell.makeFolder (Path.folderName target)

/-- Says how many items each file of a kind holds. -/
def countItems {α : Type} (pattern : String) (readItems : String → Shell (List α)) (r : Request) : Shell Unit :=
  r.forSources [pattern] fun p => do
    let items ← readItems p
    Shell.say (toString items.length)

def countMasks : Request → Shell Unit := countItems "*terrain.bit" readMasks
def countCommands : Request → Shell Unit := countItems "*terrain.cmd" readCommands
def countHeights : Request → Shell Unit := countItems "*terrain.hmp" readHeights
def countLights : Request → Shell Unit := countItems "*terrain.lmp" readLights

/-- A record with every number as wide as its column. -/
def recordText (widths : List Nat) (row : Controls.Row) : String :=
  "(" ++ ", ".intercalate ((widths.zip row).map fun (w, n) => padLeft w (toString n)) ++ ")"

/-- The widest number of each column. -/
def columnWidths (rows : List Controls.Row) : List Nat :=
  rows.foldl (fun widths row => (widths.zip row).map fun (w, n) => max w (toString n).length)
    (List.replicate Controls.columns.length 0)

/-- Sets words one after the other with a space between them; a word that would pass the end of a line of `width`
characters starts the next one. All lines have a space in front. -/
def fillLines (width : Nat) : String → List String → List String
  | line, [] => [line]
  | line, word :: rest =>
    if line.length ≤ 1 then fillLines width (line ++ word) rest
    else if width < line.length + 1 + word.length then line :: fillLines width (" " ++ word) rest
    else fillLines width (line ++ " " ++ word) rest

/-- The table of a control file as text. -/
def controlsText (rows : List Controls.Row) : String :=
  let text := "\n".intercalate (fillLines 199 " " (rows.map (recordText (columnWidths rows))))
  "[" ++ String.ofList (text.toList.drop 1) ++ "]"

/-- The tables of control files as texts. -/
def printControls (r : Request) : Shell Unit :=
  r.forSources ["*terrain.ctr"] fun p => do
    let target ← r.moved p
    let target := replaceAll target ".ctr" ".ctr.txt"
    let rows ← readControls p
    Shell.say (toString rows.length)
    Shell.makeFolderFor target
    Shell.writeText target (controlsText rows ++ "\n")

def checkScripts (r : Request) : Shell Unit :=
  r.forSources ["*terrain.qvm"] fun p => do
    let data ← Shell.readBytes p
    loaded ((Script.Program.load data).fill {}) fun _ => ()

/-- Loads a texture and prints what loading it prints. -/
def readTexture (path : String) : Shell Texture.Loop := do
  let data ← Shell.readBytes path
  let (texture, line) ← Filling.attempt (Texture.Loop.load path data)
  modify fun s => { s with printed := s.printed ++ line }
  pure texture

def countBitmaps (r : Request) : Shell Unit :=
  r.forSources ["*terrain.tex"] fun p => do
    let texture ← readTexture p
    Shell.say (toString texture.bitmaps.length)

end GameData.Batch.Terrain
