import GameData.Command.Clips
import GameData.Command.Flags
import GameData.Terrain.Export
import GameData.Texture.Head

/-!
The command line for conversions: groups of commands, one for each kind of file.
-/
namespace GameData.Command.Convert

open Files Flags GameData.Terrain

/-- A command of a group, and what it does with its arguments and flags. -/
structure Entry where
  name : String
  form : Form
  run : List String → (String → Bool) → Shell Unit

structure Group where
  name : String
  entries : List Entry

def argument (arguments : List String) (n : Nat) : Path := Path.parse (arguments.getD n "")

def sayUnfinished (_ : List String) (_ : String → Bool) : Shell Unit := Shell.say "Not implemented."

def outputFlags : List Flag := [⟨"verbose", true⟩, ⟨"enforce", false⟩, ⟨"rewrite", false⟩]

/-- The commands of a kind of file that cannot be converted yet. -/
def unfinished (name : String) : Group :=
  ⟨name, [⟨"serialize", ⟨["src"], [⟨"verbose", true⟩]⟩, sayUnfinished⟩,
    ⟨"export", ⟨["src", "dst"], outputFlags⟩, sayUnfinished⟩,
    ⟨"export-dir", ⟨["src_dir", "dst_dir"], outputFlags⟩, sayUnfinished⟩]⟩

def scripts : Group := ⟨"qvm", [⟨"to_qsc", ⟨["src"], [⟨"verbose", true⟩]⟩, sayUnfinished⟩]⟩

/-- Prints the heads of all textures below a folder. -/
def showTextures (folder : Path) : Shell Unit :=
  Shell.foldMatches folder "*.tex" () fun _ p => do
    let data ← Shell.readBytes p.text
    let head ← Filling.attempt (Texture.Head.load data)
    Shell.say (p.name ++ " " ++ head.text)

def textures : Group :=
  ⟨"tex", [⟨"to_png", ⟨["source_dir"], []⟩, fun arguments _ => showTextures (argument arguments 0)⟩]⟩

/-- Converts everything below a folder that agrees with a pattern. The folder for a target is made before the source
is looked at. -/
def convertAll (pattern : String) (arguments : List String) (convert : Bytes → Path → Shell Unit) : Shell Unit :=
  let source := argument arguments 0
  let target := argument arguments 1
  Shell.foldMatches source pattern () fun _ p => do
    let out := Path.parse (replaceFirst p.text source.text target.text)
    Shell.settlePath out.parent
    let data ← Shell.readBytes p.text
    convert data out

def folders : List String := ["source_dir", "target_dir"]

def flipFlags : List Flag := [⟨"flip-left-right", true⟩, ⟨"flip-top-bottom", false⟩]

def flips (flag : String → Bool) : Flips := ⟨flag "flip-left-right", flag "flip-top-bottom"⟩

/-- A command that converts maps. -/
def mapEntry (name : String) (kind : MapKind) (pattern : String) (flags : List Flag)
    (store : DatedMap → (String → Bool) → Path → Shell Unit) : Entry :=
  ⟨name, ⟨folders, flags⟩, fun arguments flag =>
    convertAll pattern arguments fun data out => do
      let m ← Filling.attempt (DatedMap.load kind data)
      store m flag out⟩

def heightMaps : Group :=
  ⟨"thm", [mapEntry "to_png" .height "*.thm" (flipFlags ++ [⟨"normalize", true⟩]) fun m flag out =>
      m.exportHeights (flips flag) (flag "normalize") out,
    mapEntry "to_tif" .height "*.thm" flipFlags fun m flag out => m.exportArrays (flips flag) ".tif" out,
    mapEntry "to_npy" .height "*.thm" flipFlags fun m flag out => m.exportArrays (flips flag) ".npy" out]⟩

def lightMaps : Group :=
  ⟨"tlm", [mapEntry "to_png" .light "*.tlm" flipFlags fun m flag out => m.exportLights (flips flag) out]⟩

def materialMaps : Group :=
  ⟨"tmm", [mapEntry "to_png" .material "*.tmm" flipFlags fun m flag out => m.exportMaterials (flips flag) out]⟩

def forests : Group :=
  ⟨"fst", [⟨"to_xml", ⟨folders, []⟩, fun arguments _ =>
    convertAll "forest_*.dat" arguments fun data out => do
      let forest ← Filling.attempt (Forest.load data)
      forest.exportMarkup out⟩]⟩

def clipOptions (flag : String → Bool) : Clips.Options := ⟨flag "verbose", flag "enforce", flag "rewrite"⟩

def clips : Group :=
  ⟨"wav", [⟨"serialize", ⟨["src"], [⟨"verbose", true⟩]⟩, fun arguments flag => do
      let _ ← Clips.serialize (argument arguments 0) (flag "verbose")⟩,
    ⟨"export", ⟨["src", "dst"], outputFlags⟩, fun arguments flag => do
      let _ ← Clips.exportOne (argument arguments 0) (argument arguments 1) (clipOptions flag)⟩,
    ⟨"export-dir", ⟨["src_dir", "dst_dir"], outputFlags⟩, fun arguments flag => do
      let _ ← Clips.exportFolder (argument arguments 0) (argument arguments 1) (clipOptions flag)⟩]⟩

def groups : List Group :=
  [unfinished "bit", unfinished "cmd", unfinished "ctr", unfinished "fnt", unfinished "hmp", unfinished "lmp",
   unfinished "mef", unfinished "pic", scripts, unfinished "spr", textures, heightMaps, lightMaps, materialMaps, clips,
   forests]

/-- Runs a command with its words. -/
def Entry.start (e : Entry) (words : List String) : Shell Unit := do
  match ← Filling.attempt (e.form.read words) with
  | .help => pure ()
  | .call arguments flag => e.run arguments flag

/-- Runs a command of a group. -/
def Group.start (g : Group) (words : List String) : Shell Unit := do
  match ← Filling.attempt (Flags.group words) with
  | none => pure ()
  | some (name, rest) =>
    match g.entries.find? fun e => e.name == name with
    | some e => e.start rest
    | none => throw (.usage (.noCommand name))

/-- Runs the program of a group on its own. A single command is not named. -/
def Group.program (g : Group) (words : List String) : Shell Unit :=
  match g.entries with
  | [e] => e.start words
  | _ => g.start words

def group? (name : String) : Option Group := groups.find? fun g => g.name == name

/-- Runs a command of some group. -/
def run (words : List String) : Shell Unit := do
  match ← Filling.attempt (Flags.group words) with
  | none => pure ()
  | some (name, rest) =>
    match group? name with
    | some g => g.start rest
    | none => throw (.usage (.noCommand name))

/-- Runs a program to its end: usage errors end it with the code two, and success with zero. -/
def toExit (program : Shell Unit) : Shell Unit := do
  tryCatch program fun f =>
    match f with
    | .usage _ => throw (.exit 2)
    | f => throw f
  throw (.exit 0)

/-- The program of a group from its start to its end. The one for forests defines its command and does not start it. -/
def Group.main (g : Group) (words : List String) : Shell Unit :=
  if g.name = forests.name then pure () else toExit (g.program words)

end GameData.Command.Convert
