import GameData.Container.Window

/-!
Container files and their chunks.

A container is one chunk whose data starts with four letters that tell its type and continues with chunks. A
walk stands on the current chunk; `Walk.advance` skips it and opens the next one.
-/
namespace GameData.Container

open Filling

/-- The window of the container on the stream of the file. -/
abbrev Outer := Window × Stream

def outerMedium : Medium Outer := Window.medium Stream.medium

/-- Where a walk stands. -/
inductive Phase where
  | fresh
  /-- On the current chunk. -/
  | within
  | finished
  deriving DecidableEq

structure Walk where
  outer : Outer
  type : Bytes := []
  current : Option Window := none
  phase : Phase := .fresh
  deriving DecidableEq

namespace Walk

/-- A computation on the file and the window of the container. -/
def onOuter {α : Type} (m : Filling Outer α) : Filling Walk α :=
  ExceptT.mk do
    let w ← get
    let (r, outer) := m.fill w.outer
    set { w with outer := outer }
    pure r

/-- A computation on the stream of the file. -/
def onStream {α : Type} (m : Filling Stream α) : Filling Walk α := onOuter (onSecond m)

/-- A computation on the current chunk, if there is one. -/
def onChunk {α : Type} (m : Filling (Window × Outer) α) : Filling Walk (Option α) :=
  ExceptT.mk do
    let w ← get
    match w.current with
    | none => pure (.ok none)
    | some chunk =>
      let (r, (chunk, outer)) := m.fill (chunk, w.outer)
      set { w with outer := outer, current := some chunk }
      pure (r.map some)

/-- Reads the head of a container and checks it. -/
def openFile (stream : Stream) : Except Fault Walk :=
  let (r, stream) := (Window.openOn Stream.medium).fill stream
  match r with
  | .error f => .error f
  | .ok window =>
    let (r, outer) := (Window.read Stream.medium 4).fill (window, stream)
    match r with
    | .error f => .error f
    | .ok type =>
      if window.head.fourcc ≠ Bytes.ofText "ILFF" then .error (.value .wrongFourcc)
      else if window.head.align ≠ 4 then .error (.value .wrongAlign)
      else .ok { outer := outer, type := type }

def finish : Filling Walk Unit := modify ({ · with phase := .finished })

/-- Opens the chunk at the position of the container; the walk ends where none can be read. -/
def openNext : Filling Walk (Option Head) := do
  let opened ←
    tryCatch (do let w ← onOuter (Window.openOn outerMedium); pure (some w)) fun f =>
      match f with
      | .endOfFile => pure none
      | f => do finish; throw f
  match opened with
  | none => do finish; pure none
  | some w => do
    modify ({ · with current := some w, phase := .within })
    pure (some w.head)

/-- The head of the next chunk, nothing at the end. A fault ends the walk. -/
def advance : Filling Walk (Option Head) := do
  let w ← get
  match w.phase with
  | .finished => pure none
  | .fresh => openNext
  | .within =>
    tryCatch (do let _ ← onChunk (Window.skip outerMedium)) fun f => do finish; throw f
    openNext

/-- The data of the current chunk, `n` bytes at most. -/
def readChunk (n : Int) : Filling Walk Bytes := do
  let b ← onChunk (Window.read outerMedium n)
  pure (b.getD [])

/-- Does something with each chunk. A walk does not stand twice at one offset, so there are no more chunks than
bytes. -/
def forEachFrom {ρ : Type} (action : Head → Filling (ρ × Walk) Unit) : Nat → Filling (ρ × Walk) Unit
  | 0 => throw .tooDeep
  | fuel + 1 => do
    match ← onSecond advance with
    | none => pure ()
    | some head => do
      action head
      forEachFrom action fuel

def forEach {ρ : Type} (action : Head → Filling (ρ × Walk) Unit) : Filling (ρ × Walk) Unit := do
  let (_, w) ← get
  forEachFrom action (w.outer.2.data.length + 2)

/-- The heads of all chunks, as far as they can be read. -/
def heads (stream : Stream) : List Head × Except Fault Unit :=
  match openFile stream with
  | .error f => ([], .error f)
  | .ok walk =>
    let (r, (heads, _)) := (forEach fun h => modify fun (hs, w) => (hs ++ [h], w)).fill (([] : List Head), walk)
    (heads, r)

end Walk

end GameData.Container
