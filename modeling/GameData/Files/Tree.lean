import GameData.Fault
import GameData.Image.Basic
import GameData.Number.Binary
import GameData.Path

/-!
File trees.

A place is the list of names that lead to it from the working folder, which itself is the empty list. A tree gives
the entries at places; the working folder is always there. Places outside the working folder start with a slash.
-/
namespace GameData.Files

abbrev Place := List String

/-- What a file holds. Images and arrays stand for files in an image or array format. -/
inductive Content where
  | raw (b : Bytes)
  | picture (i : Image)
  /-- Numbers row by row. -/
  | grid (rows columns : Nat) (values : List Single)
  deriving DecidableEq

inductive Entry where
  | folder
  | file (c : Content)
  deriving DecidableEq

structure Tree where
  entries : List (Place × Entry) := []

namespace Tree

def get? (t : Tree) (p : Place) : Option Entry := if p = [] then some .folder else t.entries.lookup p

def isFolder (t : Tree) (p : Place) : Bool := t.get? p == some .folder

/-- Replaces or adds an entry. -/
def putEntry (p : Place) (e : Entry) : List (Place × Entry) → List (Place × Entry)
  | [] => [(p, e)]
  | (q, f) :: rest => if q = p then (p, e) :: rest else (q, f) :: putEntry p e rest

def put (t : Tree) (p : Place) (e : Entry) : Tree := ⟨putEntry p e t.entries⟩

def erase (t : Tree) (p : Place) : Tree := ⟨t.entries.filter fun (q, _) => q != p⟩

/-- An entry put among others that stand in the order of their names. -/
def insertNamed (x : String × Entry) : List (String × Entry) → List (String × Entry)
  | [] => [x]
  | y :: rest => if x.1 ≤ y.1 then x :: y :: rest else y :: insertNamed x rest

/-- The entries directly in a folder, by name. -/
def children (t : Tree) (p : Place) : List (String × Entry) :=
  (t.entries.filterMap fun (q, e) =>
    match q.getLast? with
    | some name => if q.dropLast = p then some (name, e) else none
    | none => none).foldr insertNamed []

/-- The names of the files in a folder, in order. -/
def fileNames (t : Tree) (p : Place) : List String :=
  (t.children p).filterMap fun (name, e) => match e with | .file _ => some name | .folder => none

/-- The names of the folders in a folder, in order. -/
def folderNames (t : Tree) (p : Place) : List String :=
  (t.children p).filterMap fun (name, e) => match e with | .folder => some name | .file _ => none

/-- The place that one more piece of a path leads to. Only a folder can be passed. -/
def step (t : Tree) (p : Place) (piece : String) : Except SystemFault Place :=
  match t.get? p with
  | none => .error .notFound
  | some (.file _) => .error .notDirectory
  | some .folder => .ok (if piece == "." then p else if piece == ".." then p.dropLast else p ++ [piece])

/-- The pieces that are to be followed; a slash at the end asks for a folder. -/
def route (path : String) : List String :=
  let pieces := Path.pieces path
  let inner := pieces.filter (· != "")
  (if path.startsWith "/" then ["/"] else []) ++ inner ++ (if pieces.getLast? == some "" then ["."] else [])

/-- The place a path leads to. There may be nothing there, but all folders before it have to exist. -/
def locate (t : Tree) (path : String) : Except SystemFault Place :=
  if path.isEmpty then .error .notFound else (route path).foldlM t.step []

/-- The place that a path without turns means. -/
def placeOf (path : String) : Place := (Path.pieces path).filter Path.isPart

/-- Adds a folder and those around it. -/
def addFolders (t : Tree) (p : Place) : Tree :=
  (List.range p.length).foldl (fun t n => t.put (p.take (n + 1)) .folder) t

/-- The tree of some folders and files. -/
def ofListing (folders : List Place) (files : List (Place × Content)) : Tree :=
  files.foldl (fun t (p, c) => (t.addFolders p.dropLast).put p (.file c)) (folders.foldl addFolders {})

/-- What has changed from one tree to another, by paths: files that are new or hold something else, entries that are
gone, and new folders, the last two in order. -/
structure Changes where
  written : List (String × Content)
  removed : List String
  made : List String

def Place.text (p : Place) : String := "/".intercalate p

def changes (before after : Tree) : Changes :=
  let sorted (l : List String) : List String := l.mergeSort fun a b => decide (a ≤ b)
  { written := after.entries.filterMap fun (p, e) =>
      match e with
      | .file c => if before.get? p = some e then none else some (Place.text p, c)
      | .folder => none
    removed := sorted (before.entries.filterMap fun (p, _) =>
      if (after.get? p).isNone then some (Place.text p) else none)
    made := sorted (after.entries.filterMap fun (p, e) =>
      if e = .folder ∧ before.get? p ≠ some .folder then some (Place.text p) else none) }

/-- What a path leads to, if there is something. -/
def look? (t : Tree) (path : String) : Option Entry :=
  match t.locate path with
  | .ok p => t.get? p
  | .error _ => none

end Tree

end GameData.Files
