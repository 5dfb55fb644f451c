import GameData.Container.Window

/-!
Catalogues of container files: the places of all chunks, read at once.

Here each chunk tells the distance to the next one, and the last one has the distance zero and ends the file.
-/
namespace GameData.Container

open Filling

/-- A chunk with the offsets of its head and of its data. -/
structure Entry where
  head : Head
  start : Nat
  dataAt : Nat
  deriving DecidableEq

structure Catalogue where
  signature : Bytes
  size : Nat
  align : Nat
  skip : Nat
  format : Bytes
  entries : List Entry
  stream : Stream
  deriving DecidableEq

namespace Catalogue

/-- The chunks from an offset on, and the offset after the last one. -/
def readEntries (data : Bytes) (start : Nat) : Except Fault (List Entry × Nat) :=
  if _h : (data.slice start 16).length = 16 then
    let h := Head.decode (data.slice start 16)
    let entry : Entry := ⟨h, start, start + 16⟩
    if _s : h.skip = 0 then .ok ([entry], start + 16 + h.size)
    else do
      let (more, last) ← readEntries data (start + h.skip)
      .ok (entry :: more, last)
  else .error (.record (.size 16))
termination_by data.length - start
decreasing_by
  have : (data.slice start 16).length ≤ data.length - start := by
    simp only [Bytes.slice, List.length_take, List.length_drop]; omega
  have : 0 < h.skip := Nat.pos_of_ne_zero _s
  simp only [h] at this
  omega

/-- Reads and checks the whole file. -/
def openStream (stream : Stream) : Except Fault Catalogue := do
  let data := stream.data
  let h ← Bytes.exactly 20 (data.take 20)
  let signature := h.slice 0 4
  let size := h.u32 4
  let align := h.u32 8
  let skip := h.u32 12
  ensure (signature == Bytes.ofText "ILFF") (.check .containerMark)
  ensure (size == data.length) (.check .containerSize)
  ensure (align == 4) (.check .containerAlign)
  ensure (skip == 0) (.check .containerSkip)
  let (entries, last) ← readEntries data 20
  ensure (data.drop last).isEmpty (.check .containerEnd)
  .ok ⟨signature, size, align, skip, h.slice 16 4, entries, { stream with position := max last data.length }⟩

/-- The first chunk with a mark, or the second when one is to be skipped. -/
def find? (c : Catalogue) (fourcc : Bytes) (skipOne : Bool) : Option Entry :=
  let found := c.entries.filter fun e => e.head.fourcc == fourcc
  if skipOne then found[1]? else found[0]?

/-- Moves to the data of a chunk. -/
def seek (fourcc : Bytes) (skipOne : Bool) : Filling Catalogue (Option Entry) :=
  ExceptT.mk do
    let c ← get
    match c.find? fourcc skipOne with
    | none => pure (.ok none)
    | some e =>
      let (r, stream) := (Stream.seek e.dataAt .start).fill c.stream
      set { c with stream := stream }
      pure (r.map fun _ => some e)

/-- The data of a chunk. -/
def read (fourcc : Bytes) (skipOne : Bool) : Filling Catalogue (Option Bytes) := do
  match ← seek fourcc skipOne with
  | none => pure none
  | some e =>
    ExceptT.mk do
      let c ← get
      let (r, stream) := (Stream.read e.head.size).fill c.stream
      set { c with stream := stream }
      pure (r.map some)

/-- Describing a chunk fails; a chunk that is not there has no description. -/
def info (fourcc : Bytes) (skipOne : Bool) : Filling Catalogue Unit := do
  match (← get).find? fourcc skipOne with
  | none => pure ()
  | some _ => throw .mismatch

def close : Filling Catalogue Unit := modify fun c => { c with stream := { c.stream with closed := true } }

end Catalogue

end GameData.Container
