import GameData.Batch.Containers
import GameData.Batch.Terrain
import GameData.Script.Decompile
import GameData.Script.Source
import GameData.Script.Tasks

/-!
Jobs on compiled scripts.
-/
namespace GameData.Batch.Scripts

open Files Script

def readProgram (path : String) : Shell Program := do
  let data ← Shell.readBytes path
  Terrain.loaded ((Program.load data).fill {}) id

/-- The trees of the script in a file. -/
def readTrees (path : String) : Shell (List Node) := do
  let p ← readProgram path
  Filling.attempt (Script.decompile (p.strings.getD []) (p.identifiers.getD []) (p.code.getD []))

/-- Scripts as source texts. -/
def decompile (r : Request) : Shell Unit := do
  let n ← r.foldSources ["*.qvm"] 0 fun n p => do
    let trees ← readTrees p
    let text ← Filling.attempt (sourceText trees)
    let target ← r.moved p
    let target := replaceAll target ".qvm" ".qsc"
    Shell.makeFolderFor target
    Shell.writeText target text
    pure (n + 1)
  Shell.say s!"Decompiled: {n}"

/-- Scripts of objects as markup. -/
def exportObjects (r : Request) : Shell Unit := do
  r.forSources ["*objects.qvm"] fun p => do
    Shell.say p
    let trees ← readTrees p
    let text ← Filling.attempt (taskMarkup trees)
    let target ← r.moved p
    let target := replaceAll target ".qvm" ".xml"
    Shell.makeFolderFor target
    Shell.writeText target text
  Shell.say "Objects: 0"

/-- Scripts in edition five. -/
def convert (r : Request) : Shell Unit := do
  let n ← r.foldSources ["*.qvm"] 0 fun n p => do
    let program ← readProgram p
    let target ← r.moved p
    Shell.say target
    Shell.makeFolderFor target
    Shell.writeBytes target []
    let data ← Filling.attempt (program.save 5)
    Shell.writeBytes target data
    pure (n + 1)
  Shell.say s!"Converted: {n}"

/-- What a literal stands for. -/
def literalValue : Node → Except Fault Value
  | .number v => .ok v
  | .const n => .ok (.int n)
  | .string s => .ok (.text s)
  | .identifier s => .ok (.text s)
  | n => .error (.unset n.kind "value")

/-- What the first tree of an argument stands for. -/
def argumentValue : List Node → Except Fault Value
  | [] => .error (.index .list)
  | n :: _ => literalValue n

/-- Two values are the same member of a set. Numbers are compared by what they are, whole or not. -/
def sameMember : Value → Value → Bool
  | .int a, .int b => a == b
  | .int a, .real b => b.toInt? == some a
  | .real a, .int b => a.toInt? == some b
  | .real a, .real b =>
    match a.units?, b.units? with
    | some m, some n => m == n
    | none, none => a == b && !a.isNaN
    | _, _ => false
  | .text a, .text b => a == b
  | _, _ => false

def addMember (v : Value) (members : List Value) : List Value :=
  if members.any (sameMember v) then members else members ++ [v]

/-- The values in each of the seven columns of materials. -/
abbrev Columns := List (Nat × List Value)

def column (c : Columns) (n : Nat) (values : List Value) (i : Nat) : Except Fault Columns :=
  match values[i]? with
  | some v => .ok (update n [] (addMember v) c)
  | none => .error (.index .list)

/-- Adds the values of a material, seven at a time. -/
def addMaterial : Nat → List Value → Columns → Except Fault Columns
  | 0, _, c => .ok c
  | rounds + 1, values, c =>
    if values.isEmpty then .ok c
    else do
      let c ← (List.range 7).foldlM (fun c n => column c n values n) c
      addMaterial rounds (values.drop 7) c

def need (values : List Value) (n : Nat) : Except Fault Unit :=
  if n < values.length then .ok () else .error (.index .list)

/-- Adds what a call of a terrain script says. -/
def addCall (c : Columns) : Node → Except Fault Columns
  | .call callee arguments => do
    let values ← arguments.mapM argumentValue
    let name ← literalValue callee
    match name with
    | .text "CreateTerrainMaterial" => do
      need values 0
      need values 1
      let values := values.drop 2
      addMaterial values.length values c
    | .text "CreateTerrainTileMap" => do
      need values 0
      .ok c
    | _ => .error (.value .unexpectedTask)
  | _ => .error (.value .unexpectedItem)

/-- The values in the columns of materials of all terrain scripts. -/
def showMaterials (r : Request) : Shell Unit := do
  let columns ← r.foldSources ["*terrain.qvm"] ([] : Columns) fun columns p => do
    Shell.say p
    let trees ← readTrees p
    Filling.attempt (trees.foldlM addCall columns)
  columns.forM fun (n, values) =>
    Shell.say (toString n ++ " " ++ Containers.setLiteral (values.map Value.literal))

end GameData.Batch.Scripts
