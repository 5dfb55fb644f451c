import GameData.Bytes.Field

/-!
The header that height, light and material maps share: a word, a date in seven words, words of unknown meaning,
and the size of the first image.
-/
namespace GameData.Terrain

structure MapHeader where
  unknown0 : Nat
  year : Nat
  month : Nat
  day : Nat
  hour : Nat
  minute : Nat
  second : Nat
  microsecond : Nat
  unknowns : List Nat
  width : Nat
  height : Nat
  deriving DecidableEq

/-- The three kinds of maps. -/
inductive MapKind where
  | height | light | material
  deriving DecidableEq

namespace MapKind

/-- The number of words of unknown meaning after the date. -/
def unknownCount : MapKind → Nat
  | .height => 3
  | .light | .material => 1

/-- The number of words in the header. -/
def headerLength (k : MapKind) : Nat := 10 + k.unknownCount

end MapKind

namespace MapHeader

/-- The header from its words. -/
def ofWords (k : MapKind) (w : List Nat) : MapHeader where
  unknown0 := w.getD 0 0
  year := w.getD 1 0
  month := w.getD 2 0
  day := w.getD 3 0
  hour := w.getD 4 0
  minute := w.getD 5 0
  second := w.getD 6 0
  microsecond := w.getD 7 0
  unknowns := (w.drop 8).take k.unknownCount
  width := w.getD (8 + k.unknownCount) 0
  height := w.getD (9 + k.unknownCount) 0

/-- The header at the front of a file. -/
def decode (k : MapKind) (data : Bytes) : Except Fault MapHeader :=
  (Bytes.words32 k.headerLength (data.take (4 * k.headerLength))).map (ofWords k)

end MapHeader

namespace PlainMap

/-- Reads the header of a map. The size of the images is never taken from it, so reading them fails. -/
def load (k : MapKind) (data : Bytes) (header : Option MapHeader) : Except Fault Unit × Option MapHeader :=
  match MapHeader.decode k data with
  | .error f => (.error f, header)
  | .ok h => (.error (.undefined "width"), some h)

def save (_header : Option MapHeader) : Except Fault (Option Bytes) := Bytes.unwritten

end PlainMap

end GameData.Terrain
