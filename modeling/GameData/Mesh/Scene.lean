import GameData.Container.Catalogue
import GameData.Mesh.Chunk
import GameData.Path

/-!
Scenes that meshes are imported into.

A scene records its objects and everything that was asked of it. Importing a file makes an object named after the
file, with one object for its mesh below it; the new object is selected and, unless another one is being edited,
becomes the active one.
-/
namespace GameData.Mesh

open Table Container

/-- What a scene and the program around it are asked for. -/
inductive SceneCall where
  | newMesh (name : String)
  | fillMesh (vertices edges faces : List Datum)
  | updateMesh
  | validateMesh
  | newObject (name : String) (mesh : Option String)
  | link (name : String)
  | updateScene
  /-- The user is asked for a file, for an operator to go on with. -/
  | selectFile (operator : String)
  | registerModule (name : String)
  | unregisterModule (name : String)
  | appendMenu (entry : String)
  | removeMenu (entry : String)
  /-- A line of the menu that starts an operator. -/
  | offer (operator caption : String)

/-- The name of what is asked for, and the texts that go with it. -/
def SceneCall.words : SceneCall → List String
  | .newMesh name => ["meshes.new", name]
  | .fillMesh _ _ _ => ["from_pydata"]
  | .updateMesh => ["update"]
  | .validateMesh => ["validate"]
  | .newObject name mesh => ["objects.new", name] ++ mesh.toList
  | .link name => ["link", name]
  | .updateScene => ["scene.update"]
  | .selectFile operator => ["fileselect_add", operator]
  | .registerModule name => ["register_module", name]
  | .unregisterModule name => ["unregister_module", name]
  | .appendMenu entry => ["menu.append", entry]
  | .removeMenu entry => ["menu.remove", entry]
  | .offer operator caption => ["operator", operator, caption]

/-- How an operator ends. -/
inductive Verdict where
  | finished
  /-- It waits for the user. -/
  | runningModal

def Verdict.name : Verdict → String
  | .finished => "FINISHED"
  | .runningModal => "RUNNING_MODAL"

structure SceneObject where
  name : String
  parent : Option String := none
  selected : Option Bool := none
  scale : Option (List Double) := none
  mode : String := "OBJECT"

structure Scene where
  objects : List SceneObject := []
  /-- The position of the active object. -/
  active : Option Nat := none
  calls : List SceneCall := []

namespace Scene

abbrev Editing := Filling Scene

def call (c : SceneCall) : Editing Unit := modify fun s => { s with calls := s.calls ++ [c] }

def link (o : SceneObject) : Editing Unit := do
  call (.link o.name)
  modify fun s => { s with objects := s.objects ++ [o] }

def activeObject? (s : Scene) : Option SceneObject := s.active.bind fun n => s.objects[n]?

/-- Sets the mode of the active object, if there is one. -/
def setMode (mode : String) (s : Scene) : Scene :=
  match s.active with
  | some n => { s with objects := s.objects.modify n fun o => { o with mode := mode } }
  | none => s

/-- The data of a chunk, which has to be there. -/
def chunkTable (c : Catalogue) (k : Kind) (shape : Shape) : Except Fault (List Datum) :=
  match ((Catalogue.read (Bytes.ofText k.mark) false).fill c).1 with
  | .error f => .error f
  | .ok none => .error .mismatch
  | .ok (some b) => shape.table b

/-- The layouts of the parts and vertices of a model type. -/
structure RenderShapes where
  settings : Shape
  parts : Shape
  vertices : Shape

def renderShapes? (modelType : Int) : Option RenderShapes :=
  match Chunk.shape? .dner 0 modelType, Chunk.shape? .xtrv 0 modelType with
  | some parts, some vertices =>
    if modelType = 0 then some ⟨runs [(9, u32)], parts, vertices⟩
    else if modelType = 1 then some ⟨runs [(10, u32)], parts, vertices⟩
    else some ⟨runs [(11, u32)], parts, vertices⟩
  | _, _ => none

/-- The model type in the head of a mesh; a head of several records has none. -/
def modelType? : List Datum → Except Fault (Option Int)
  | [] => .ok none
  | [row] => .ok (some (row.part 2).toInt)
  | _ => .error (.value .ambiguousTruth)

/-- The first fields of each record. -/
def columns (n : Nat) (rows : List Datum) : List Datum := rows.map fun r => .list (r.items.take n)

/-- What a mesh is made of. -/
structure Geometry where
  vertices : List Datum
  edges : List Datum
  faces : List Datum

/-- The visible mesh of a file. -/
def renderGeometry (c : Catalogue) : Except Fault Geometry := do
  let head ← chunkTable c .hsem Chunk.head
  let faces ← chunkTable c .ecaf (runs [(3, u16)])
  let modelType ← modelType? head
  match modelType.bind renderShapes? with
  | none => .error (.unassigned "xtrv")
  | some shapes =>
    let _ ← chunkTable c .d3dr shapes.settings
    let _ ← chunkTable c .dner shapes.parts
    let vertices ← chunkTable c .xtrv shapes.vertices
    .ok ⟨columns 3 vertices, [], faces⟩

/-- The mesh that casts the shadow. -/
def shadowGeometry (c : Catalogue) : Except Fault Geometry := do
  let _ ← chunkTable c .sems (runs [(7, u32)])
  let vertices ← chunkTable c .xtvs (runs [(3, f32)])
  let faces ← chunkTable c .cafs (runs [(4, u32), (3, f32)])
  let edges ← chunkTable c .egde (runs [(2, u32)])
  .ok ⟨vertices, edges, columns 3 faces⟩

/-- Makes a mesh and an object for it. -/
def addMesh (name parent : String) (g : Geometry) : Editing Unit := do
  call (.newMesh name)
  call (.fillMesh g.vertices g.edges g.faces)
  call .updateMesh
  call .validateMesh
  call (.newObject (name ++ "_object") (some name))
  link { name := name ++ "_object", parent := some parent }

def hasChunk (c : Catalogue) (k : Kind) : Bool := (c.find? (Bytes.ofText k.mark) false).isSome

/-- The base name of a path without its suffix. -/
def displayName (path : String) : String :=
  let base := Path.baseName path
  String.ofList (base.toList.take (base.length - (Path.extension base).length))

def scale : List Double := List.replicate 3 (Double.ofDecimal false 5 (-4))

/-- Selects the object at a position and no other, and makes it the active one unless that is being edited. -/
def choose (n : Nat) (s : Scene) : Scene :=
  let objects := s.objects.map fun o => { o with selected := some false }
  let objects := objects.modify n fun o => { o with selected := some true }
  let s := { s with objects := objects }
  if s.activeObject?.all fun o => o.mode == "OBJECT" then
    { s with active := some n, objects := s.objects.modify n fun o => { o with scale := some scale } }
  else s

/-- Imports a file, whose data may turn out to be unreadable. -/
def importFile (path : String) (data : Except Fault Bytes) : Editing Unit := do
  let name := displayName path
  let n := (← get).objects.length
  call (.newObject name none)
  link { name := name }
  let data ← Filling.attempt data
  let c ← Filling.attempt (Catalogue.openStream { data := data, kind := .disk })
  if hasChunk c .hsem then do
    let g ← Filling.attempt (renderGeometry c)
    addMesh "render_mesh" name g
  else if hasChunk c .sems then do
    let g ← Filling.attempt (shadowGeometry c)
    addMesh "shadow_mesh" name g
  call .updateScene
  modify (choose n)

/-! The operator that imports files, and its place in the menu. -/

def moduleName : String := "io_mesh_igi2"

def importer : String := "MefImporter"

/-- The name under which the importer is started. -/
def importerId : String := "import_mef_model.mef"

def importMenu : String := "menu_import"

def execute (path : String) (data : Except Fault Bytes) : Editing Verdict := do
  importFile path data
  pure .finished

def invoke : Editing Verdict := do
  call (.selectFile importer)
  pure .runningModal

def showMenu : Editing Unit := call (.offer importerId "Mef Model (.mef)")

def register : Editing Unit := do
  call (.registerModule moduleName)
  call (.appendMenu importMenu)

def unregister : Editing Unit := do
  call (.unregisterModule moduleName)
  call (.removeMenu importMenu)

/-- Nothing is exported. -/
def exportFile : Editing Verdict := pure .finished

end Scene

end GameData.Mesh
