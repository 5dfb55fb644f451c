import GameData.Batch.Request

/-!
Jobs on folders and the files in them, whatever these hold.
-/
namespace GameData.Batch.Folders

open Files

/-- The paths of the files below some folders whose names agree with one of the patterns. -/
def paths (folders patterns : List String) : Shell (List String) :=
  folders.foldlM (fun found folder =>
    Shell.foldFiles folder patterns found fun found p => pure (found ++ [p])) []

/-- The paths in some folders. A name that agrees with a pattern cannot be given a path. -/
def pathsIn (folders patterns : List String) : Shell (List String) := do
  for folder in folders do
    let names ← Shell.list folder
    if names.any fun name => patterns.any fun p => Pattern.accepts p name then throw (.undefined "root")
  pure []

/-- Copies every agreeing file of a folder to one and the same target. -/
def copyAll (folder target : String) (patterns : List String) : Shell Unit :=
  Shell.forFiles folder patterns fun p => do
    Shell.makeFolderFor target
    Shell.copy p target

def makeFolder (path : String) (isFolder : Bool) : Shell Unit :=
  if isFolder then Shell.makeFolders path else Shell.makeFolderFor path

/-- The suffixes of the files with how often they occur, the most frequent first. -/
def countExtensions (r : Request) : Shell Unit := do
  let counts ← r.foldSources ["*"] ([] : List (String × Nat)) fun counts p =>
    pure (update (Path.extension p) 0 (· + 1) counts)
  (counts.mergeSort fun a b => decide (b.2 ≤ a.2)).forM fun (extension, n) =>
    Shell.say (padRight 5 extension ++ " - " ++ toString n)

def listFiles (r : Request) : Shell Unit :=
  r.foldFiltered () fun _ p => do
    let source ← r.sourceFolder
    Shell.say (replaceFirst p source "")

/-- The folders with their files, each level indented by two spaces. -/
def showTree (r : Request) : Shell Unit := do
  let source ← r.sourceFolder
  Shell.foldFolders source () fun _ root names => do
    let level := ((replaceAll root source "").toList.filter (· == '/')).length
    let indent (n : Nat) : String := String.ofList (List.replicate (2 * n) ' ')
    Shell.say (indent level ++ Path.baseName root ++ "/")
    names.forM fun name => do
      let pattern ← r.pattern
      if Pattern.accepts pattern name then Shell.say (indent (level + 1) ++ name)

/-- Two files hold the same. -/
def same (a b : Content) : Bool := a = b

/-- Names the files that differ from their counterparts. -/
def compareFiles (r : Request) : Shell Unit :=
  r.foldFiltered () fun _ p => do
    let target ← r.moved p
    let a ← Shell.read p
    let b ← Shell.read target
    if same a b then pure () else Shell.say (p ++ " False")

def copyFiles (r : Request) : Shell Unit :=
  r.foldFiltered () fun _ p => do
    let target ← r.moved p
    Shell.makeFolderFor target
    Shell.copy p target

/-- The numbers of the copies of a terrain image. -/
def copyNumbers : List Nat := (List.range 17).map (· + 1)

/-- Copies the first terrain image under the other seventeen numbers. -/
def duplicateTerrain : Shell Unit :=
  copyNumbers.forM fun n => Shell.copy "terrain.#00.tga" ("terrain.#" ++ zeroPadded 2 n ++ ".tga")

end GameData.Batch.Folders
