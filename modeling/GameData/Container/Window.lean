import GameData.Bytes.Stream

/-!
Chunks as windows on a medium.

A chunk has a head of sixteen bytes: four letters, the size of its data, an alignment, and the distance to the
next chunk, counted from its own head; zero stands for a distance equal to the size. Reading stays inside the
data, but a last odd byte takes a filler with it.
-/
namespace GameData.Container

open Filling

structure Head where
  fourcc : Bytes
  size : Nat
  align : Nat
  /-- The distance to the next chunk as it is stored. -/
  skip : Nat
  deriving DecidableEq, Inhabited

namespace Head

def length : Nat := 16

def decode (b : Bytes) : Head := ⟨b.slice 0 4, b.u32 4, b.u32 8, b.u32 12⟩

/-- The distance from the data to the next chunk; a stored one below sixteen leads back. -/
def next (h : Head) : Int := if 0 < h.skip then (h.skip : Int) - 16 else h.size

end Head

structure Window where
  head : Head
  /-- Where the data starts on the medium, if it can be told. -/
  offset : Option Int
  position : Int := 0
  closed : Bool := false
  deriving DecidableEq, Inhabited

namespace Window

variable {σ : Type}

/-- The window on the chunk at the position of a medium. -/
def openOn (m : Medium σ) : Filling σ Window := do
  let b ← m.read 16
  if b.length = Head.length then
    let offset ← m.tell
    pure { head := Head.decode b, offset := offset }
  else throw .endOfFile

def whenOpen {α : Type} (action : Window → Filling (Window × σ) α) : Filling (Window × σ) α := do
  let (w, _) ← get
  if w.closed then throw (.value .closedChunk) else action w

def setPosition (p : Int) : Filling (Window × σ) Unit := modify fun (w, s) => ({ w with position := p }, s)

def seek (m : Medium σ) (n : Int) (whence : Whence) : Filling (Window × σ) Unit :=
  whenOpen fun w =>
    match w.offset with
    | none => throw (.system .cannotSeek)
    | some offset => do
      let target :=
        match whence with
        | .start => n
        | .here => n + w.position
        | .finish => n + w.head.size
      if target < 0 ∨ (w.head.size : Int) < target then throw .outsideChunk
      else
        onSecond (m.seek (offset + target) .start)
        setPosition target

def tell : Filling (Window × σ) (Option Int) := whenOpen fun w => pure (some w.position)

def read (m : Medium σ) (n : Int) : Filling (Window × σ) Bytes :=
  whenOpen fun w => do
    let size : Int := w.head.size
    if size ≤ w.position then pure []
    else
      let rest := size - w.position
      let wanted := if n < 0 ∨ rest < n then rest else n
      let b ← onSecond (m.read wanted)
      let position := w.position + b.length
      setPosition position
      if position = size ∧ w.head.size % 2 = 1 then
        let filler ← onSecond (m.read 1)
        setPosition (position + filler.length)
      pure b

/-- A window on a medium is a medium. -/
def medium (m : Medium σ) : Medium (Window × σ) := ⟨read m, seek m, tell⟩

/-- Moves to where the next chunk starts. A medium that cannot be moved there is left as it is. -/
def skip (m : Medium σ) : Filling (Window × σ) Unit :=
  whenOpen fun w =>
    match w.offset with
    | none => if w.position < w.head.next then throw (.undefined "n") else pure ()
    | some _ => do
      let rest := w.head.next - w.position
      let moved ←
        tryCatch (do onSecond (m.seek rest .here); pure true) fun f =>
          match f with
          | .system _ => pure false
          | f => throw f
      if moved then setPosition (w.position + rest)

/-- Skips the chunk and closes the window, also when skipping fails. -/
def close (m : Medium σ) : Filling (Window × σ) Unit := do
  let (w, _) ← get
  if w.closed then pure ()
  else
    let markClosed : Filling (Window × σ) Unit := modify fun (w, s) => ({ w with closed := true }, s)
    tryCatch (skip m) fun f => do markClosed; throw f
    markClosed

end Window

end GameData.Container
