import GameData.Bytes.Field

/-!
The head of a texture file on its own.
-/
namespace GameData.Texture

structure Head where
  signature : Bytes
  /-- Seven numbers of unknown meaning. -/
  unknowns : List Nat
  width : Nat
  height : Nat
  depth : Nat
  deriving DecidableEq

namespace Head

def load (data : Bytes) : Except Fault Head := do
  let h ← Bytes.exactly 32 (data.take 32)
  .ok ⟨h.slice 0 4, [h.u32 4, h.u32 8, h.u32 12, h.u32 16, h.u16 20, h.u16 22, h.u16 24], h.u16 26, h.u16 28, h.u16 30⟩

/-- Nothing of a head is written to its file. -/
def save (_h : Head) : Except Fault Bytes := .ok []

/-- The names of the fields with their values as they are written in a report. -/
def fields (h : Head) : List (String × String) :=
  [("unknown_00", Literal.ofBytes h.signature)]
    ++ (List.range h.unknowns.length).map (fun i => (s!"unknown_0{i + 1}", toString (h.unknowns.getD i 0)))
    ++ [("size_x", toString h.width), ("size_y", toString h.height), ("size_d", toString h.depth),
        ("lod_images", "None")]

def text (h : Head) : String := " ".intercalate (h.fields.map fun (k, v) => k ++ "=" ++ v)

end Head

end GameData.Texture
