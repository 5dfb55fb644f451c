import GameData.Image.Basic

/-!
Images as files: the portable network format, with the pixels stored uncompressed.

A file is a signature and chunks. A chunk is its length, its mark, its data, and a checksum over mark and data; the
pixels are a stream of stored blocks that ends in a checksum of its own.
-/
namespace GameData.Image.Png

/-- One bit of the polynomial division that gives a checksum. -/
def checkBit (c : UInt32) : UInt32 := if c % 2 = 1 then (c >>> 1) ^^^ 0xedb88320 else c >>> 1

def checkByte (c : UInt32) (b : UInt8) : UInt32 :=
  (List.range 8).foldl (fun c _ => checkBit c) (c ^^^ b.toUInt32)

/-- The checksum of a chunk. -/
def checksum (b : Bytes) : Nat := ((b.foldl checkByte 0xffffffff) ^^^ 0xffffffff).toNat

/-- The checksum of the pixels: two sums modulo a prime. -/
def pixelChecksum (b : Bytes) : Nat :=
  let (low, high) := b.foldl (fun (low, high) x =>
    let low := (low + x.toNat) % 65521
    (low, (high + low) % 65521)) (1, 0)
  high * 65536 + low

/-- A number of four bytes, the highest first. -/
def number (n : Nat) : Bytes := (Bytes.toLE 4 n).reverse

def chunk (mark : String) (data : Bytes) : Bytes :=
  let marked := Bytes.ofText mark ++ data
  number data.length ++ marked ++ number (checksum marked)

/-- The longest stored block. -/
def blockSize : Nat := 65535

/-- A stored block: whether it is the last one, its length, the complement of it, and its data. -/
def block (last : Bool) (data : Bytes) : Bytes :=
  (if last then 1 else 0) :: Bytes.toLE 2 data.length ++ Bytes.toLE 2 (blockSize - data.length) ++ data

def blocks : List Bytes → Bytes
  | [] => block true []
  | [b] => block true b
  | b :: rest => block false b ++ blocks rest

def stored (data : Bytes) : Bytes := [0x78, 0x01] ++ blocks (Bytes.chunks blockSize data) ++ number (pixelChecksum data)

/-- The bits of a sample and the number of the colour type. -/
def colourType : PixelMode → Nat × Nat
  | .bilevel => (1, 0)
  | .grey => (8, 0)
  | .greyAlpha => (8, 4)
  | .colour => (8, 2)
  | .colourAlpha | .real => (8, 6)
  | .indexed => (8, 3)

def encode (i : Image) : Bytes :=
  let (depth, type) := colourType i.mode
  let head := number i.width ++ number i.height ++ [UInt8.ofNat depth, UInt8.ofNat type, 0, 0, 0]
  let palette := if i.mode = .indexed then chunk "PLTE" i.palette else []
  [0x89, 0x50, 0x4e, 0x47, 0x0d, 0x0a, 0x1a, 0x0a] ++ chunk "IHDR" head ++ palette
    ++ chunk "IDAT" (stored (i.rows.flatMap fun r => 0 :: r)) ++ chunk "IEND" []

end GameData.Image.Png
