import GameData.Container.Walk
import GameData.Proofs.Container.Chain
import GameData.Proofs.Container.Window

/-!
Laws of walks.

A walk goes on by leaving the chunk that it stands on and opening the next one; it ends where there is no whole head. A
container is opened by reading its head and the letters of its type.
-/
namespace GameData.Container

open Filling

namespace Walk

theorem onOuter_fill {α : Type} {m : Filling Outer α} {w : Walk} {r : Except Fault α} {o : Outer}
    (h : m.fill w.outer = (r, o)) : (onOuter m).fill w = (r, { w with outer := o }) := by
  have step : (onOuter m).fill w = ((m.fill w.outer).1, { w with outer := (m.fill w.outer).2 }) := rfl
  rw [step, h]

theorem onChunk_fill {α : Type} {m : Filling (Window × Outer) α} {w : Walk} {chunk : Window}
    (current : w.current = some chunk) : (onChunk m).fill w =
      ((m.fill (chunk, w.outer)).1.map some,
        { w with outer := (m.fill (chunk, w.outer)).2.2, current := some (m.fill (chunk, w.outer)).2.1 }) := by
  obtain ⟨outer, type, _, phase⟩ := w
  cases current
  rfl

theorem openNext_of_ok {w : Walk} {chunk : Window} {o : Outer}
    (opened : (Window.openOn outerMedium).fill w.outer = (.ok chunk, o)) : openNext.fill w =
      (.ok (some chunk.head), { w with outer := o, current := some chunk, phase := .within }) := by
  have done : (onOuter (Window.openOn outerMedium) >>= fun c => pure (some c) : Filling Walk (Option Window)).fill w =
      (.ok (some chunk), { w with outer := o }) := fill_bind_of_ok (onOuter_fill opened) _
  rw [openNext, fill_bind_of_ok (fill_tryCatch_of_ok done _)]
  rfl

/-- A walk ends where there is no whole head. -/
theorem openNext_of_end {w : Walk} {o : Outer}
    (opened : (Window.openOn outerMedium).fill w.outer = (.error .endOfFile, o)) :
    openNext.fill w = (.ok none, { w with outer := o, phase := .finished }) := by
  have failed : (onOuter (Window.openOn outerMedium) >>= fun c => pure (some c) : Filling Walk (Option Window)).fill w =
      (.error .endOfFile, { w with outer := o }) := fill_bind_of_error (onOuter_fill opened) _
  have caught : ∀ handle : Fault → Filling Walk (Option Window), handle .endOfFile = pure none →
      (tryCatch (onOuter (Window.openOn outerMedium) >>= fun c => pure (some c)) handle).fill w =
        (.ok none, { w with outer := o }) := by
    intro handle none
    rw [fill_tryCatch_of_error failed, none]
    rfl
  rw [openNext, fill_bind_of_ok (caught _ rfl)]
  rfl

/-- Leaves the chunk that the walk stands on; false when the walk has ended. -/
def leave : Filling Walk Bool := do
  let w ← get
  match w.phase with
  | .finished => pure false
  | .fresh => pure true
  | .within => do
    tryCatch (do let _ ← onChunk (Window.skip outerMedium)) fun f => do finish; throw f
    pure true

/-- A walk goes on by leaving its chunk and opening the next one. -/
theorem advance_fill_leave (w : Walk) :
    advance.fill w = (leave >>= fun going => if going then openNext else pure none).fill w := by
  obtain ⟨outer, type, current, phase⟩ := w
  cases phase with
  | fresh => rfl
  | finished => rfl
  | within =>
      rw [advance, leave, fill_bind_of_ok (fill_get _), bind_assoc, fill_bind_of_ok (fill_get _)]
      simp only [bind_assoc, pure_bind, if_true]

theorem advance_of_leave {w v : Walk} (left : leave.fill w = (.ok true, v)) : advance.fill w = openNext.fill v := by
  rw [advance_fill_leave, fill_bind_of_ok left, if_pos rfl]

theorem advance_of_leave_error {w v : Walk} {f : Fault} (failed : leave.fill w = (.error f, v)) :
    advance.fill w = (.error f, v) := by
  rw [advance_fill_leave, fill_bind_of_error failed]

theorem leave_of_fresh {w : Walk} (fresh : w.phase = .fresh) : leave.fill w = (.ok true, w) := by
  rw [leave, fill_bind_of_ok (fill_get _)]
  simp only [fresh]
  rfl

section Leave

variable {w : Walk} {k k' : Window} {o : Outer} (within : w.phase = .within) (current : w.current = some k)
include within current

theorem leave_of_skip (skipped : (Window.skip outerMedium).fill (k, w.outer) = (.ok (), (k', o))) :
    leave.fill w = (.ok true, { w with outer := o, current := some k' }) := by
  have step := onChunk_fill (m := Window.skip outerMedium) current
  rw [skipped] at step
  have done : (onChunk (Window.skip outerMedium) >>= fun _ => pure () : Filling Walk Unit).fill w =
      (.ok (), { w with outer := o, current := some k' }) := fill_bind_of_ok step _
  rw [leave, fill_bind_of_ok (fill_get _)]
  simp only [within]
  rw [fill_bind_of_ok (fill_tryCatch_of_ok done _), within]
  rfl

theorem leave_of_skip_error {f : Fault} (failed : (Window.skip outerMedium).fill (k, w.outer) = (.error f, (k', o))) :
    leave.fill w = (.error f, { w with outer := o, current := some k', phase := .finished }) := by
  have step := onChunk_fill (m := Window.skip outerMedium) current
  rw [failed] at step
  have done : (onChunk (Window.skip outerMedium) >>= fun _ => pure () : Filling Walk Unit).fill w =
      (.error f, { w with outer := o, current := some k' }) := fill_bind_of_error step _
  have caught : (tryCatch (onChunk (Window.skip outerMedium) >>= fun _ => pure ())
      fun f => finish >>= fun _ => throw f : Filling Walk Unit).fill w =
        (.error f, { w with outer := o, current := some k', phase := .finished }) := by
    rw [fill_tryCatch_of_error done]
    rfl
  rw [leave, fill_bind_of_ok (fill_get _)]
  simp only [within]
  exact fill_bind_of_error caught _

end Leave

end Walk

section Opening

variable {stream : Stream}

def containerAt (stream : Stream) : Window where
  head := headAt stream.data stream.position
  offset := if stream.kind = .sequential then none else some ((stream.position + 16 : Nat) : Int)

theorem openOn_of_inside (isOpen : stream.closed = false) (whole : stream.position + 16 ≤ stream.data.length) :
    (Window.openOn Stream.medium).fill stream =
      (.ok (containerAt stream), { stream with position := stream.position + 16 }) := by
  have length : (stream.rest.take 16).length = 16 := Bytes.length_slice_of_le whole
  have read : (Stream.medium.read 16).fill stream =
      (.ok (stream.rest.take 16), { stream with position := stream.position + (stream.rest.take 16).length }) :=
    Stream.read_fill stream isOpen (by decide)
  rw [length] at read
  have told : Stream.medium.tell.fill { stream with position := stream.position + 16 } =
      (.ok (containerAt stream).offset, { stream with position := stream.position + 16 }) :=
    Stream.tell_fill { stream with position := stream.position + 16 } isOpen
  rw [Window.openOn, fill_bind_of_ok read]
  simp only [length, Head.length, if_true]
  rw [fill_bind_of_ok told]
  rfl

theorem openOn_of_closed (closed : stream.closed = true) :
    (Window.openOn Stream.medium).fill stream = (.error stream.readFault, stream) := by
  have failed : (Stream.medium.read 16).fill stream = (.error stream.readFault, stream) :=
    stream.read_fill_of_closed closed (n := 16) (by decide)
  rw [Window.openOn, fill_bind_of_error failed]

theorem openOn_of_short (isOpen : stream.closed = false) (short : stream.data.length < stream.position + 16) :
    ((Window.openOn Stream.medium).fill stream).1 = .error .endOfFile := by
  have length : (stream.rest.take 16).length ≠ 16 := by
    rw [List.length_take, Stream.rest, List.length_drop]
    omega
  have read : (Stream.medium.read 16).fill stream =
      (.ok (stream.rest.take 16), { stream with position := stream.position + (stream.rest.take 16).length }) :=
    Stream.read_fill stream isOpen (by decide)
  rw [Window.openOn, fill_bind_of_ok read, Head.length, if_neg length]
  rfl

/-- A head is read from an open stream that holds all of it. -/
theorem openOn_eq_ok {t : Stream} {window : Window}
    (headed : (Window.openOn Stream.medium).fill stream = (.ok window, t)) :
    stream.closed = false ∧ stream.position + 16 ≤ stream.data.length ∧ window = containerAt stream ∧
      t = { stream with position := stream.position + 16 } := by
  cases closed : stream.closed with
  | true =>
      rw [openOn_of_closed closed] at headed
      cases headed
  | false =>
      by_cases whole : stream.position + 16 ≤ stream.data.length
      · rw [openOn_of_inside closed whole] at headed
        cases headed
        exact ⟨rfl, whole, rfl, by rw [closed]⟩
      · cases (congrArg Prod.fst headed).symm.trans (openOn_of_short closed (Nat.not_le.mp whole))

/-- What opening a container has read: its head and the letters of its type. -/
theorem Walk.openFile_eq_ok {walk : Walk} (opened : Walk.openFile stream = .ok walk) :
    ∃ window s, (Window.openOn Stream.medium).fill stream = (.ok window, s) ∧
      (Window.read Stream.medium 4).fill (window, s) = (.ok walk.type, walk.outer) ∧
      walk = { outer := walk.outer, type := walk.type } := by
  unfold Walk.openFile at opened
  rcases headed : (Window.openOn Stream.medium).fill stream with ⟨f | window, s⟩
  · rw [headed] at opened
    cases opened
  · rw [headed] at opened
    rcases typed : (Window.read Stream.medium 4).fill (window, s) with ⟨f | type, outer⟩
    · simp only [typed] at opened
      cases opened
    · simp only [typed] at opened
      split at opened
      · cases opened
      · split at opened
        · cases opened
        · cases opened
          exact ⟨window, s, rfl, typed, rfl⟩

end Opening

end GameData.Container
