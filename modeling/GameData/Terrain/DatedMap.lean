import GameData.Calendar
import GameData.Image.Basic
import GameData.Schema.Rule
import GameData.Terrain.MapHeader

/-!
Height, light and material maps with their images.

A map holds up to ten images, each half as wide and high as the one before. Light maps store blue before red and
are stored column by column, so that their image is as wide as the header says high.
-/
namespace GameData.Terrain

structure DatedMap where
  kind : MapKind
  unknown0 : Nat
  createdAt : Timestamp
  unknowns : List Nat
  levels : List Image
  deriving DecidableEq

namespace MapKind

/-- The bytes of a pixel. -/
def pixelSize : MapKind → Nat
  | .height | .light => 4
  | .material => 1

/-- The image of one level from its bytes. -/
def image (k : MapKind) (width height : Nat) (b : Bytes) : Except Fault Image :=
  match k with
  | .height => Image.ofBytes .real width height b
  | .material => Image.ofBytes .indexed width height b
  | .light =>
    if b.length = width * height * 4 then
      .ok { mode := .colourAlpha, width := height, height := width, data := Image.swapRedBlue b }
    else .error (.value (.reshape b.length [width, height, 4]))

end MapKind

namespace DatedMap

/-- The images from level `level` on, `count` of them at most; an empty one ends them. -/
def readLevels (k : MapKind) (width height : Nat) : Nat → Nat → Bytes → Except Fault (List Image)
  | 0, _, _ => .ok []
  | count + 1, level, data => do
    let w := width / Nat.pow 2 level
    let h := height / Nat.pow 2 level
    let b ← Bytes.read (w * h * k.pixelSize) data
    if b.isEmpty then .ok []
    else
      let image ← k.image w h b
      let more ← readLevels k width height count (level + 1) (data.drop (w * h * k.pixelSize))
      .ok (image :: more)

/-- The complaint about more images than a map may hold. -/
def countIssues (levels : List Image) : List Issue :=
  if 10 < levels.length then
    [{ place := [.field "lod_images"], message := "ensure this value has at most 10 items",
       code := "value_error.list.max_items", context := "\x7b'limit_value': 10\x7d" }]
  else []

/-- What is wrong with an image of a light map: it must be in colours with alpha, and both sides powers of two. -/
def levelIssues (i : Image) (n : Nat) : List Issue :=
  let wrong (message code : String) : List Issue := [Schema.issue [.field "lod_images", .position n] message code]
  if i.mode ≠ .colourAlpha then wrong "ensure this lod has mode RGBA" "assertion_error"
  else if i.width = 0 then wrong "math domain error" "value_error"
  else if !isPowerOfTwo i.width then wrong "ensure this lod x is power of 2" "assertion_error"
  else if i.height = 0 then wrong "math domain error" "value_error"
  else if !isPowerOfTwo i.height then wrong "ensure this lod y is power of 2" "assertion_error"
  else []

/-- What is wrong with the images of a light map one by one. -/
def eachIssues (levels : List Image) : List Issue := levels.zipIdx.flatMap fun (i, n) => levelIssues i n

/-- The complaint about the first image of a light map that is not half as wide and high as the one before. -/
def halvingIssues : List Image → List Issue
  | i :: j :: rest =>
    let wrong (message : String) : List Issue := [Schema.issue [.field "lod_images"] message "assertion_error"]
    if j.width ≠ i.width / 2 then wrong "ensure this lod x is half of prev lod x"
    else if j.height ≠ i.height / 2 then wrong "ensure this lod y is half of prev lod y"
    else halvingIssues (j :: rest)
  | _ => []

/-- The complaints about the images of a map; a step of the check is made only when the steps before it had none. -/
def issues (k : MapKind) (levels : List Image) : List Issue :=
  match countIssues levels, k with
  | [], .light =>
    match eachIssues levels with
    | [] => halvingIssues levels
    | wrong => wrong
  | wrong, _ => wrong

/-- The map in a file. The date is looked at after the images. -/
def load (k : MapKind) (data : Bytes) : Except Fault DatedMap := do
  let h ← MapHeader.decode k data
  let levels ← readLevels k h.width h.height 10 0 (data.drop (4 * k.headerLength))
  let createdAt ← Timestamp.check ⟨h.year, h.month, h.day, h.hour, h.minute, h.second, h.microsecond⟩
  match issues k levels with
  | [] => .ok ⟨k, h.unknown0, createdAt, h.unknowns, levels⟩
  | issues => .error (.invalid issues)

/-- The sides that the header tells: those of the first image. -/
def sides (m : DatedMap) : List Nat :=
  match m.levels with
  | [] => [0, 0]
  | i :: _ => [i.width, i.height]

/-- The words of the header, of which the first is given. -/
def head (m : DatedMap) (start : Nat) : List Nat := start :: (m.createdAt.words ++ m.unknowns ++ m.sides)

/-- The bytes of a map with a given first word; `stored` tells how the pixels of an image are stored. -/
def encode (m : DatedMap) (start : Nat) (stored : Image → Bytes) : Except Fault Bytes := do
  let head ← ((m.head start).map Int.ofNat).mapM Field.u32.packInt
  .ok (head.flatten ++ (m.levels.map stored).flatten)

/-- The bytes of the file. The header of a height map starts with the first word after the date; that of a
material map lacks a word and cannot be written. -/
def save (m : DatedMap) : Except Fault Bytes :=
  match m.kind with
  | .material => .error (.record (.count 11 10))
  | .height => m.encode (m.unknowns.getD 0 0) (·.data)
  | .light => m.encode m.unknown0 fun i => Image.swapRedBlue i.data

end DatedMap

end GameData.Terrain
