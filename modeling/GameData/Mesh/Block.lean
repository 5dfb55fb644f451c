import GameData.Bytes.Stream
import GameData.Container.Window
import GameData.Mesh.Kind
import GameData.Table.Layout

/-!
Mesh files as sequences of blocks.

Only the head block and the shadow blocks are looked into; all others are stepped over. A block tells the
distance to the next one, or zero when that is its head and its data.
-/
namespace GameData.Mesh

open Filling Table

namespace Block

/-- How the data of a kind of block is read. -/
inductive Content where
  | model
  /-- The bytes as they are. -/
  | raw
  /-- A fixed number of words. -/
  | words (count : Nat)
  | table (s : Shape)

def content : Kind → Content
  | .hsem => .model
  | .reih | .manb | .atta | .d3dr | .dner | .xtrv => .raw
  | .hsmc => .words 16
  | .txan => .words 28
  | .xtvm | .tamc | .hprm => .table (runs [(4, u32)])
  | .trop => .table (runs [(5, u32)])
  | .xvtp | .cftp | .ecfc | .xtvs => .table (runs [(3, u32)])
  | .wolg => .table (runs [(7, f32), (1, u32)])
  | .ecaf => .table (runs [(3, u16)])
  | .pmtl | .egde => .table (runs [(2, u32)])
  | .xtvc => .table (runs [(3, f32), (2, u32)])
  | .hpsc => .table (runs [(4, f32), (1, u32), (2, u16)])
  | .sems => .table (runs [(7, u32)])
  | .cafs => .table (runs [(4, u32), (3, f32), (4, u32), (3, f32)])

end Block

/-- The data of a block. -/
inductive Body where
  | model (first : Nat) (date : List Nat) (fields : List Datum) (reserved1 reserved2 : Bytes)
  | raw (k : Kind) (data : Bytes)
  | words (k : Kind) (values : List Nat)
  | table (k : Kind) (rows : List Datum)

structure Block where
  head : Container.Head
  body : Option Body

/-- A mesh file: its head, its four-letter type and its blocks. -/
structure BlockFile where
  head : Container.Head
  type : Bytes
  blocks : List Block

namespace Block

/-- A record of exactly `n` bytes; what could be read is taken from the stream also when it is too short. -/
def readExactly (n : Nat) : Filling Stream Bytes := do
  let b ← Stream.read n
  attempt (Bytes.exactly n b)

def readHead : Filling Stream Container.Head := do
  let b ← readExactly 16
  pure (Container.Head.decode b)

/-- Year, month, day, hour, minute, second, millisecond. -/
def readDate : Filling Stream (List Nat) := do
  let b ← readExactly 28
  pure (Bytes.words 4 b)

def modelFields : Shape := runs [(4, u32), (12, f32), (6, i32), (1, f32), (7, u16)]

/-- The data of a block whose head was read. -/
def readBody (k : Kind) (h : Container.Head) : Filling Stream Body := do
  match content k with
  | .model =>
    let first ← readExactly 4
    let date ← readDate
    let fields ← readExactly modelFields.size
    let reserved1 ← Stream.read 30
    let reserved2 ← Stream.read 8
    pure (.model (Bytes.ofLE first) date (modelFields.decode fields).items reserved1 reserved2)
  | .raw => do
    let b ← Stream.read h.size
    pure (.raw k b)
  | .words count => do
    let b ← readExactly (4 * count)
    pure (.words k (Bytes.words 4 b))
  | .table s => do
    let b ← Stream.read h.size
    let rows ← attempt (s.table b)
    pure (.table k rows)

/-- The head of a block, with the stream moved behind its data. A stored distance that covers no more than the
head does not count. -/
def skim : Filling Stream Container.Head := do
  let h ← readHead
  if 16 < h.skip then Stream.seek ((h.skip : Int) - 16) .here else Stream.seek h.size .here
  pure h

/-- `skim` with what it prints: where the stream stands when there is no head. -/
def skimAloud (s : Stream) : Except Fault Container.Head × Stream × String :=
  match skim.fill s with
  | (.ok h, s) => (.ok h, s, "")
  | (.error f, s) => (.error f, s, toString s.position ++ "\n")

/-- Skips to a multiple of `modulus`, as far as there are bytes. -/
def align (modulus : Int) : Filling Stream Unit := do
  if modulus = 0 then throw .divisionByZero
  else
    let s ← get
    let excess := s.position % modulus.natAbs
    if excess = 0 then pure ()
    else
      let _ ← Stream.read (modulus.natAbs - excess : Nat)
      pure ()

/-- The block at the position of the stream. -/
def readBlock : Filling Stream Block := do
  let h ← readHead
  match Kind.ofFourcc? h.fourcc with
  | some .hsem => do let b ← readBody .hsem h; pure ⟨h, some b⟩
  | some .sems => do let b ← readBody .sems h; pure ⟨h, some b⟩
  | some _ => pure ⟨h, none⟩
  | none => do
    let s ← get
    throw (.value (.unknownBlock h.fourcc s.position))

end Block

namespace BlockFile

/-- The offset of the block after one that starts at `start`. -/
def following (h : Container.Head) (start : Nat) : Nat :=
  if 0 < h.skip then start + h.skip else start + h.size + 16

theorem lt_following (h : Container.Head) (start : Nat) : start < following h start := by
  unfold following
  split <;> omega

/-- The blocks from an offset on. -/
def readBlocks (data : Bytes) (start : Nat) : Except Fault (List Block) :=
  if start < data.length then do
    let (r, _) := Block.readBlock.fill { data := data, position := start }
    let block ← r
    let more ← readBlocks data (following block.head start)
    .ok (block :: more)
  else .ok []
termination_by data.length - start
decreasing_by
  have := lt_following block.head start
  omega

/-- The blocks of a file. -/
def parse (data : Bytes) : Except Fault BlockFile := do
  let (r, s) := Block.readHead.fill { data := data }
  let head ← r
  let (r, s) := (Block.readExactly 4).fill s
  let type ← r
  let blocks ← readBlocks data s.position
  .ok ⟨head, type, blocks⟩

end BlockFile

end GameData.Mesh
