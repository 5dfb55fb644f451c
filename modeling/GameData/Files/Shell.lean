import GameData.Files.Pattern
import GameData.Files.Tree
import GameData.Loading

/-!
Commands that read and write a file tree and print lines. What a command has written or printed before it fails
stays.
-/
namespace GameData.Files

/-- What a command works on: the tree, and what has been printed. -/
structure Session where
  tree : Tree := {}
  printed : String := ""

abbrev Shell (α : Type) := Filling Session α

namespace Shell

def refuse {α : Type} (f : SystemFault) : Shell α := throw (.system f)

/-- Prints a line. -/
def say (line : String) : Shell Unit := modify fun s => { s with printed := s.printed ++ line ++ "\n" }

def tree : Shell Tree := do
  let s ← get
  pure s.tree

def change (f : Tree → Tree) : Shell Unit := modify fun s => { s with tree := f s.tree }

def locate (path : String) : Shell Place := do
  let t ← tree
  match t.locate path with
  | .ok p => pure p
  | .error f => refuse f

def look? (path : String) : Shell (Option Entry) := do
  let t ← tree
  pure (t.look? path)

def isFile (path : String) : Shell Bool := do
  match ← look? path with
  | some (.file _) => pure true
  | _ => pure false

def isFolder (path : String) : Shell Bool := do
  let e ← look? path
  pure (e == some .folder)

/-- What a file holds. -/
def read (path : String) : Shell Content := do
  let p ← locate path
  let t ← tree
  match t.get? p with
  | none => refuse .notFound
  | some .folder => refuse .isDirectory
  | some (.file c) => pure c

/-- The bytes of a file; those of an image or array are not looked at. -/
def readBytes (path : String) : Shell Bytes := do
  match ← read path with
  | .raw b => pure b
  | _ => pure []

/-- A path without the slashes at its end. -/
def trimmed (path : String) : String := String.ofList ((path.toList.reverse.dropWhile (· == '/')).reverse)

/-- Creates a file or replaces what it holds. A slash at the end asks for a folder, which no file can be. -/
def write (path : String) (c : Content) : Shell Unit := do
  let p ← locate (if trimmed path == "" then path else trimmed path)
  let t ← tree
  match t.get? p, t.get? p.dropLast with
  | some .folder, _ => refuse .isDirectory
  | _, none => refuse .notFound
  | _, some (.file _) => refuse .notDirectory
  | _, some .folder => if path.endsWith "/" then refuse .isDirectory else change (·.put p (.file c))

def writeBytes (path : String) (b : Bytes) : Shell Unit := write path (.raw b)

def writeText (path text : String) : Shell Unit := writeBytes path (Bytes.ofText text)

/-- Copies a file onto another. -/
def copy (source target : String) : Shell Unit := do
  let t ← tree
  match t.locate source, t.locate target with
  | .ok p, .ok q => if p = q ∧ (t.get? p).isSome then refuse (.sameFile source target)
  | _, _ => pure ()
  let c ← read source
  write target c

def remove (path : String) : Shell Unit := do
  let p ← locate path
  change (·.erase p)

/-- Makes one folder, which must not be there. -/
def makeFolder (path : String) : Shell Unit := do
  let p ← locate (if trimmed path == "" then path else trimmed path)
  let t ← tree
  match t.get? p, t.get? p.dropLast with
  | some _, _ => refuse .alreadyThere
  | _, none => refuse .notFound
  | _, some (.file _) => refuse .notDirectory
  | _, _ => change (·.put p .folder)

/-- Makes one folder; it may be there already. -/
def settleFolder (path : String) : Shell Unit :=
  tryCatch (makeFolder path) fun f => do
    if ← isFolder path then pure () else throw f

/-- Head and tail of a path at its last slash, a slash at the end left out. -/
def headTail (path : String) : String × String :=
  let once := (Path.folderName path, Path.baseName path)
  if once.2 == "" then (Path.folderName once.1, Path.baseName once.1) else once

/-- Makes a folder and those on the way to it. -/
def makeFoldersTo : Nat → String → Shell Unit
  | 0, path => settleFolder path
  | n + 1, path => do
    let (head, tail) := headTail path
    if head != "" && tail != "" && (← look? head).isNone then
      tryCatch (makeFoldersTo n head) fun f => if f = .system .alreadyThere then pure () else throw f
      if tail == "." then pure () else settleFolder path
    else settleFolder path

def makeFolders (path : String) : Shell Unit := makeFoldersTo path.length path

/-- Makes the folder that a file is to stand in. -/
def makeFolderFor (path : String) : Shell Unit := makeFolders (Path.folderName path)

/-- Makes a parsed path a folder, with the folders on the way to it where they are missing. -/
def settlePathIn : Nat → Path → Shell Unit
  | 0, p => settleFolder p.text
  | n + 1, p =>
    tryCatch (makeFolder p.text) fun f => do
      if f = .system .notFound ∧ p.parent ≠ p then
        settlePathIn n p.parent
        settleFolder p.text
      else if ← isFolder p.text then pure () else throw f

def settlePath (p : Path) : Shell Unit := settlePathIn p.parts.length p

/-- The names in a folder, in order. -/
def list (path : String) : Shell (List String) := do
  let p ← locate path
  let t ← tree
  match t.get? p with
  | none => refuse .notFound
  | some (.file _) => refuse .notDirectory
  | some .folder => pure ((t.children p).map (·.1))

/-- Goes through a folder and all folders inside, with the names of the files in each. A folder is looked at only
when its turn comes; what is no folder then is passed over. The number bounds the depth. -/
def foldFoldersIn {β : Type} (visit : β → String → List String → Shell β) : Nat → String → β → Shell β
  | 0, _, b => pure b
  | n + 1, path, b => do
    let t ← tree
    match t.locate path with
    | .error _ => pure b
    | .ok p =>
      if t.isFolder p then do
        let b ← visit b path (t.fileNames p)
        (t.folderNames p).foldlM (fun b name => foldFoldersIn visit n (Path.join path name) b) b
      else pure b

def foldFolders {β : Type} (path : String) (b : β) (visit : β → String → List String → Shell β) : Shell β := do
  let t ← tree
  foldFoldersIn visit (2 * t.entries.length + 2) path b

/-- Goes through the entries in a folder and in all folders inside whose names agree with a pattern, files before
folders. The number bounds the depth. -/
def foldMatchesIn {β : Type} (pattern : String) (visit : β → Path → Shell β) : Nat → Path → β → Shell β
  | 0, _, b => pure b
  | n + 1, folder, b => do
    let t ← tree
    match t.locate folder.text with
    | .error _ => pure b
    | .ok p =>
      if t.isFolder p then do
        let names := (t.fileNames p ++ t.folderNames p).filter (Pattern.accepts pattern)
        let b ← names.foldlM (fun b name => visit b (folder.child name)) b
        let t ← tree
        (t.folderNames p).foldlM (fun b name => foldMatchesIn pattern visit n (folder.child name) b) b
      else pure b

def foldMatches {β : Type} (folder : Path) (pattern : String) (b : β) (visit : β → Path → Shell β) : Shell β := do
  let t ← tree
  foldMatchesIn pattern visit (2 * t.entries.length + 2) folder b

/-- Stores an image. Images of real numbers cannot be stored: a file that was there is left empty, and none is
made. -/
def writePicture (path : String) (i : Image) : Shell Unit := do
  let before ← look? path
  match i.mode with
  | .real => do
    writeBytes path []
    if before.isNone then remove path
    refuse (.imageMode i.mode.name "PNG")
  | _ => write path (.picture i)

/-- Goes through the files below a folder whose names agree with one of the patterns. -/
def foldFiles {β : Type} (path : String) (patterns : List String) (b : β) (visit : β → String → Shell β) : Shell β :=
  foldFolders path b fun b root names =>
    (names.filter fun name => patterns.any fun p => Pattern.accepts p name).foldlM
      (fun b name => visit b (Path.join root name)) b

def forFiles (path : String) (patterns : List String) (visit : String → Shell Unit) : Shell Unit :=
  foldFiles path patterns () fun _ p => visit p

end Shell

end GameData.Files
