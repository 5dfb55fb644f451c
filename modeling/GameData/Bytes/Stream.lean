import GameData.Loading
import GameData.Bytes.Field

/-!
Readable streams.

A stream is a byte string with a position, which may lie behind the end. Streams in memory go to the start when
a relative move would lead before it; streams on disk refuse such a move. Numbers that a word of 64 bits cannot hold are
refused by both, each in its own way. A `Medium` is anything that can be read and moved in the same way, so that a
window on a medium is a medium again.
-/
namespace GameData

/-- What a stream allows. -/
inductive StreamKind where
  | memory
  | disk
  /-- Reading only; the position is unknown. -/
  | sequential
  deriving DecidableEq

structure Stream where
  data : Bytes
  position : Nat := 0
  closed : Bool := false
  kind : StreamKind := .memory
  deriving DecidableEq

/-- Where a move starts: at the beginning, here, or at the end. -/
inductive Whence where
  | start | here | finish
  deriving DecidableEq

/-- The operations of a readable and movable value of type `σ`. -/
structure Medium (σ : Type) where
  /-- At most that many bytes; all that are left when the number is negative. -/
  read : Int → Filling σ Bytes
  seek : Int → Whence → Filling σ Unit
  /-- The position, nothing when it is unknown. -/
  tell : Filling σ (Option Int)

/-- The first `n` bytes, fewer when the string ends before; all of them when the number is negative. -/
def Bytes.upTo (b : Bytes) (n : Int) : Bytes := if n < 0 then b else b.take n.toNat

namespace Stream

open Filling

def readFault (s : Stream) : Fault :=
  match s.kind with
  | .disk => .value .closedRead
  | _ => .value .closedStream

def seekFault (s : Stream) : Fault :=
  match s.kind with
  | .disk => .value .closedSeek
  | _ => .value .closedStream

/-- The bytes from the position on. -/
def rest (s : Stream) : Bytes := s.data.drop s.position

/-- The number fits into the word in which a stream is told how much to read. -/
def Countable (n : Int) : Prop := -(Bytes.readLimit + 1) ≤ n ∧ n ≤ Bytes.readLimit

instance (n : Int) : Decidable (Countable n) := inferInstanceAs (Decidable (_ ∧ _))

def read (n : Int) : Filling Stream Bytes := do
  let s ← get
  if ¬ Countable n then throw .overflow
  else if s.kind = .disk ∧ n < -1 then throw (.value .readLength)
  else if s.closed then throw s.readFault
  else
    let b := s.rest.upTo n
    set { s with position := s.position + b.length }
    pure b

/-- The position that a move leads to; negative when it leads before the start. -/
def target (s : Stream) (n : Int) : Whence → Int
  | .start => n
  | .here => s.position + n
  | .finish => s.data.length + n

/-- The last position that a stream can be moved to. No stream holds 2⁶² bytes; the bound exceeds the word only for data
longer than that. -/
def reach (s : Stream) : Nat := max Bytes.readLimit (s.data.length + 0x4000000000000000)

/-- The number fits into the word in which a stream is told how far to move. -/
def Movable (s : Stream) (n : Int) : Prop := -(s.reach + 1) ≤ n ∧ n ≤ s.reach

instance (s : Stream) (n : Int) : Decidable (s.Movable n) := inferInstanceAs (Decidable (_ ∧ _))

/-- Where a move leads to in memory. -/
def seekMemory (s : Stream) (n : Int) (w : Whence) : Except Fault Nat :=
  let t := s.target n w
  if ¬ s.Movable n then .error .overflow
  else if s.closed then .error s.seekFault
  else if w = .start ∧ n < 0 then .error (.value (.negativeSeek n))
  else if s.reach < t then .error .overflow
  else .ok t.toNat

/-- Where a move leads to on disk. -/
def seekDisk (s : Stream) (n : Int) (w : Whence) : Except Fault Nat :=
  let t := s.target n w
  if s.closed then .error s.seekFault
  else if ¬ s.Movable n then .error (.value .offsetSize)
  else if t < 0 ∨ s.reach < t then .error (.system .invalidArgument)
  else .ok t.toNat

def landing (s : Stream) (n : Int) (w : Whence) : Except Fault Nat :=
  if s.kind = .disk then s.seekDisk n w else s.seekMemory n w

def seek (n : Int) (w : Whence) : Filling Stream Unit := do
  let s ← get
  let p ← attempt (s.landing n w)
  set { s with position := p }

def tell : Filling Stream (Option Int) := do
  let s ← get
  if s.closed then throw (.value .closedStream)
  else pure (if s.kind = .sequential then none else some s.position)

def close : Filling Stream Unit := modify ({ · with closed := true })

def medium : Medium Stream := ⟨read, seek, tell⟩

end Stream

namespace Filling

/-- A computation on the second part of a pair. -/
def onSecond {σ τ α : Type} (m : Filling τ α) : Filling (σ × τ) α :=
  ExceptT.mk do
    let (s, t) ← get
    let (r, t) := m.fill t
    set (s, t)
    pure r

/-- A computation on the first part of a pair. -/
def onFirst {σ τ α : Type} (m : Filling σ α) : Filling (σ × τ) α :=
  ExceptT.mk do
    let (s, t) ← get
    let (r, s) := m.fill s
    set (s, t)
    pure r

end Filling

end GameData
