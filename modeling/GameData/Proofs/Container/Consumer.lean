import Mathlib
import GameData.Proofs.Container.Frame

/-!
Walks and their consumers.

Before it asks for the next chunk, a consumer may read and move the chunk it was given, and even the file behind it.
Main statement: in a container of even size no consumer changes the heads it is given, nor how the walk ends.
-/
namespace GameData.Container

open Filling

/-- What a consumer may do with the chunk it was given, or with the file behind it. -/
inductive Use where
  | read (n : Int)
  | seek (n : Int) (whence : Whence)
  | tell
  | readFile (n : Int)
  | seekFile (n : Int) (whence : Whence)

inductive Reply where
  | bytes (b : Bytes)
  | moved
  | position (p : Option Int)
  | fault (f : Fault)

/-- What is done with one chunk: each use may depend on the replies to those before it. The notes are kept for the
next chunk. -/
inductive Consumer (ρ : Type) where
  | done (notes : ρ)
  | use (u : Use) (next : Reply → Consumer ρ)

def Use.perform : Use → Filling Walk Reply
  | .read n => do
    let b ← Walk.readChunk n
    pure (.bytes b)
  | .seek n whence => do
    let _ ← Walk.onChunk (Window.seek outerMedium n whence)
    pure .moved
  | .tell => do
    let p ← Walk.onChunk Window.tell
    pure (.position (p.bind id))
  | .readFile n => do
    let b ← Walk.onStream (Stream.read n)
    pure (.bytes b)
  | .seekFile n whence => do
    Walk.onStream (Stream.seek n whence)
    pure .moved

/-- The consumer learns of a fault and goes on. -/
def Use.tried (u : Use) : Filling Walk Reply := tryCatch u.perform fun f => pure (.fault f)

def Consumer.run {ρ : Type} : Consumer ρ → Filling Walk ρ
  | .done notes => pure notes
  | .use u next => do
    let reply ← u.tried
    (next reply).run

theorem Use.tried_ok (u : Use) (w : Walk) : ∃ reply v, u.tried.fill w = (.ok reply, v) := by
  rcases run : u.perform.fill w with ⟨f | reply, v⟩
  · exact ⟨.fault f, v, fill_tryCatch_of_error run _⟩
  · exact ⟨reply, v, fill_tryCatch_of_ok run _⟩

theorem Consumer.run_ok {ρ : Type} (c : Consumer ρ) (w : Walk) : ∃ notes v, c.run.fill w = (.ok notes, v) := by
  induction c generalizing w with
  | done notes => exact ⟨notes, w, rfl⟩
  | use u next ih =>
      obtain ⟨reply, v, tried⟩ := u.tried_ok w
      obtain ⟨notes, v', rest⟩ := ih reply v
      exact ⟨notes, v', (fill_bind_of_ok tried _).trans rest⟩

section Keeps

variable {s : Stream} {Q : Window × Outer → Prop} (steady : Walk.Steady s Q)
include steady

theorem Use.keeps_perform (u : Use) : Keeps (Walk.Upon Q) u.perform := by
  cases u with
  | read n => exact (Walk.keeps_readChunk steady.chunk n).bind fun _ => .pure _
  | seek n whence => exact (Walk.keeps_onChunk (steady.chunk.seek n whence)).bind fun _ => .pure _
  | tell => exact (Walk.keeps_onChunk steady.chunk.tell).bind fun _ => .pure _
  | readFile n => exact (steady.onStream (Stream.keeps.read n)).bind fun _ => .pure _
  | seekFile n whence => exact (steady.onStream (Stream.keeps.seek n whence)).bind fun _ => .pure _

/-- What no single use breaks, no consumer does. -/
theorem Consumer.keeps_run {ρ : Type} (c : Consumer ρ) : Keeps (Walk.Upon Q) c.run := by
  induction c with
  | done notes => exact .pure _
  | use u next ih => exact (Keeps.tryCatch (u.keeps_perform steady) fun _ => .pure _).bind ih

end Keeps

namespace Walk

/-- What a consumer does with each chunk, and the heads it was given so far. -/
def consume {ρ : Type} (consumer : ρ → Head → Consumer ρ) (h : Head) : Filling ((List Head × ρ) × Walk) Unit := do
  let ((hs, notes), _) ← get
  let notes ← onSecond (consumer notes h).run
  modify fun (_, w) => ((hs ++ [h], notes), w)

def headsWith {ρ : Type} (consumer : ρ → Head → Consumer ρ) (notes : ρ) (stream : Stream) :
    List Head × Except Fault Unit :=
  match openFile stream with
  | .error f => ([], .error f)
  | .ok walk =>
    let (r, ((heads, _), _)) := (forEach (consume consumer)).fill (([], notes), walk)
    (heads, r)

theorem notes_consume {ρ : Type} {F : Frame} (even : F.container.head.size % 2 = 0)
    (consumer : ρ → Head → Consumer ρ) : F.Notes Prod.fst (consume consumer) := by
  rintro q ⟨hs, notes⟩ w on
  have kept := (consumer notes (F.headFrom q)).keeps_run (steady_level F.mounted.isOpen even _ _) w on
  obtain ⟨notes', v, run⟩ := (consumer notes (F.headFrom q)).run_ok w
  rw [run] at kept
  refine ⟨(hs ++ [F.headFrom q], notes'), v, ?_, rfl, kept⟩
  rw [consume, fill_bind_of_ok (fill_get _), fill_bind_of_ok (onSecond_fill run)]
  rfl

theorem stays_consume {ρ : Type} (consumer : ρ → Head → Consumer ρ) : Stays (consume consumer) := by
  intro c s h
  refine Keeps.get.bind ?_
  rintro ⟨⟨hs, notes⟩, _⟩
  exact (Keeps.right ((consumer notes h).keeps_run (steady_loose c))).bind fun _ => .updating fun _ standing => standing

end Walk

/-- No consumer changes the heads that it is given or the way the walk ends, in a container whose size is even; and
the walk ends well or at a head that leads out of the container. -/
theorem heads_of_any_consumer {ρ : Type} {stream : Stream} (placed : stream.kind ≠ .sequential)
    (even : (headAt stream.data stream.position).size % 2 = 0) (consumer : ρ → Head → Consumer ρ) (notes : ρ) :
    Walk.headsWith consumer notes stream = Walk.heads stream ∧
    ∀ walk, Walk.openFile stream = .ok walk →
      (Walk.heads stream).2 = .ok () ∨ (Walk.heads stream).2 = .error .outsideChunk := by
  cases opened : Walk.openFile stream with
  | error f =>
      refine ⟨by simp only [Walk.headsWith, Walk.heads, opened], fun walk h => ?_⟩
      cases h
  | ok walk =>
      obtain ⟨F, container, -, -, data, ahead, -⟩ := Walk.frame_of_openFile placed (.inl even) opened
      obtain ⟨hs, r, chain⟩ := F.exists_chain walk.type.length
      -- Both walks are held to the chain of the file, not to each other.
      obtain ⟨noted, v, consumed, given⟩ :=
        chain.forEach (Walk.notes_consume (by rw [container]; exact even) consumer) ahead data ([], notes)
      have with_eq : Walk.headsWith consumer notes stream = (hs, r) := by
        simp only [Walk.headsWith, opened, consumed]
        exact Prod.ext given rfl
      have heads_eq : Walk.heads stream = (hs, r) := chain.heads opened ahead data
      refine ⟨with_eq.trans heads_eq.symm, fun _ _ => ?_⟩
      rw [heads_eq]
      exact chain.outcome

/-- A container of two chunks, the first of which has an odd size. Its own size is stored in the first argument, and
more bytes follow it. -/
def oddSample (size : UInt8) : Bytes :=
  Bytes.ofText "ILFF" ++ [size, 0, 0, 0, 4, 0, 0, 0, 0, 0, 0, 0] ++ Bytes.ofText "TYPE" ++
  Bytes.ofText "ODDS" ++ [3, 0, 0, 0, 4, 0, 0, 0, 20, 0, 0, 0] ++ [1, 2, 3, 0] ++
  Bytes.ofText "LAST" ++ [size - 40, 0, 0, 0, 4, 0, 0, 0, 0, 0, 0, 0] ++ [4, 5, 6, 7]

/-- Reads the chunk with its filler, moves out of it, and leaves the file in the middle of its first head; the notes
count the bytes that were read. -/
def restless (notes : Nat) (h : Head) : Consumer Nat :=
  .use (.read (-1)) fun reply =>
    .use (.seek (h.size + 1) .start) fun _ =>
      .use (.seekFile 3 .start) fun _ =>
        .use (.read 1) fun _ =>
          match reply with
          | .bytes b => .done (notes + b.length)
          | _ => .done notes

theorem heads_of_any_consumer_oddSample :
    (headAt (oddSample 42) 0).size % 2 = 0 ∧
    Walk.headsWith restless 0 { data := oddSample 42, kind := .disk } =
      ([⟨Bytes.ofText "ODDS", 3, 4, 20⟩, ⟨Bytes.ofText "LAST", 2, 4, 0⟩], .ok ()) := by
  have even : (headAt (oddSample 42) 0).size % 2 = 0 := by decide +kernel
  have heads : Walk.heads { data := oddSample 42, kind := .disk } =
      ([⟨Bytes.ofText "ODDS", 3, 4, 20⟩, ⟨Bytes.ofText "LAST", 2, 4, 0⟩], .ok ()) := by
    cbv
  exact ⟨even, (heads_of_any_consumer (by decide) even restless 0).1.trans heads⟩

-- In a container of odd size the filler is counted by the container alone, and the walk leaves it.
example : (Walk.heads { data := oddSample 43 }).2 = .ok () ∧
    (Walk.headsWith restless 0 { data := oddSample 43 }).2 = .error .outsideChunk := by
  constructor <;> cbv

end GameData.Container
