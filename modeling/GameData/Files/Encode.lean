import GameData.Files.Tree
import GameData.Image.Png

/-!
Contents as bytes on a disk.

Raw contents are what they are and pictures are images. Grids are arrays of 64-bit floating-point numbers, with a
tagged image around them or the header of an array file in front.
-/
namespace GameData.Files.Content

def doubles (values : List Single) : Bytes := values.flatMap fun x => Bytes.toLE 8 x.widen.bits.toNat

/-- An array file: a mark, the version, and a header in text that is filled up to a multiple of 64 bytes. -/
def arrayFile (rows columns : Nat) (values : List Single) : Bytes :=
  let text := "\x7b'descr': '<f8', 'fortran_order': False, 'shape': (" ++ toString rows ++ ", " ++ toString columns
    ++ "), \x7d"
  let size := (text.length + 11 + 63) / 64 * 64 - 10
  let header := text ++ String.ofList (List.replicate (size - text.length - 1) ' ') ++ "\n"
  0x93 :: Bytes.ofText "NUMPY" ++ [1, 0] ++ Bytes.toLE 2 size ++ Bytes.ofText header ++ doubles values

/-- A number of a tagged image: its tag, its type (three for 16 bits, four for 32), and the number. -/
def tag (mark type n : Nat) : Bytes := Bytes.toLE 2 mark ++ Bytes.toLE 2 type ++ Bytes.toLE 4 1 ++ Bytes.toLE 4 n

/-- A tagged image with one strip of grey floating-point samples behind the directory. -/
def taggedImage (rows columns : Nat) (values : List Single) : Bytes :=
  let entries := [tag 256 4 columns, tag 257 4 rows, tag 258 3 64, tag 259 3 1, tag 262 3 1, tag 273 4 134, tag 277 3 1,
    tag 278 4 rows, tag 279 4 (8 * rows * columns), tag 339 3 3]
  Bytes.ofText "II" ++ [42, 0] ++ Bytes.toLE 4 8 ++ Bytes.toLE 2 entries.length ++ entries.flatten ++ Bytes.zeros 4
    ++ doubles values

/-- The bytes of a file with a name. -/
def encode (name : String) : Content → Bytes
  | .raw b => b
  | .picture i => Image.Png.encode i
  | .grid rows columns values =>
    if name.endsWith ".npy" then arrayFile rows columns values else taggedImage rows columns values

end GameData.Files.Content
