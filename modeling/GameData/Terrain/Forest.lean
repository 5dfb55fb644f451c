import GameData.Table.Layout
import GameData.Text.Markup
import GameData.Text.Utf8
import GameData.Number.Text

/-!
Forests: a version text and the position, rotation, scale and colour of each tree.
-/
namespace GameData.Terrain

open Table

structure Forest where
  version : String
  trees : List Datum

namespace Forest

def vector : Shape := runs [(3, f32)]

def tree : Shape := .group [vector, vector, vector, u32]

def load (data : Bytes) : Except Fault Forest := do
  let head ← Bytes.exactly 4 (data.take 4)
  let size := Bytes.ofLE head
  let version ←
    match Utf8.decode ((data.drop 4).take size) with
    | .ok s => .ok s
    | .error m => .error (.notUtf8 m)
  let trees ← tree.table (data.drop (4 + size))
  .ok ⟨version, trees⟩

/-- The bytes of the file. The size in front counts characters. -/
def save (f : Forest) : Except Fault Bytes := do
  let head ← Field.u32.packInt f.version.length
  .ok (head ++ Bytes.ofText f.version ++ (f.trees.map tree.encode).flatten)

def numberText : Datum → String
  | .int n => toString n
  | .real x => x.text
  | _ => ""

def element (name body : String) : String := "<" ++ name ++ ">" ++ body ++ "</" ++ name ++ ">"

def vectorMarkup (name : String) (v : Datum) : String :=
  element name (element "x" (numberText (v.part 0)) ++ element "y" (numberText (v.part 1))
    ++ element "z" (numberText (v.part 2)))

def treeMarkup (t : Datum) : String :=
  element "entry" (vectorMarkup "position" (t.part 0) ++ vectorMarkup "rotation" (t.part 1)
    ++ vectorMarkup "scale" (t.part 2) ++ element "color" (numberText (t.part 3)))

/-- The forest as markup, without declaration and white space. -/
def markup (f : Forest) : Except Fault String := do
  let version ← Markup.accept f.version
  .ok ("<forest version=\"" ++ Markup.escapeAttribute .hexadecimal version ++ "\">"
    ++ String.join (f.trees.map treeMarkup) ++ "</forest>")

end Forest

end GameData.Terrain
