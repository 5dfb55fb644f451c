import GameData.Container.Window
import GameData.Proofs.Loading

/-!
Laws of windows.

Each operation of a window on a medium, in terms of what the medium does: a read moves the window by the bytes that
the medium gives, and a move is passed on when it stays inside.
-/
namespace GameData.Container

open Filling

namespace Window

variable {σ : Type} {w : Window} {s t : σ}

theorem whenOpen_fill {α : Type} (isOpen : w.closed = false) (action : Window → Filling (Window × σ) α) :
    (whenOpen action).fill (w, s) = (action w).fill (w, s) := by
  rw [whenOpen, fill_bind_of_ok (fill_get _)]
  simp only [isOpen, Bool.false_eq_true, if_false]

theorem setPosition_fill (p : Int) : (setPosition p).fill (w, s) = (.ok (), ({ w with position := p }, s)) := rfl

/-- Reading inside a window takes no filler, unless it ends with the last of an odd number of bytes. -/
theorem read_fill (m : Medium σ) (isOpen : w.closed = false) {n wanted : Int} {b : Bytes}
    (inside : w.position < w.head.size)
    (asked : (if n < 0 ∨ w.head.size - w.position < n then w.head.size - w.position else n) = wanted)
    (h : (m.read wanted).fill s = (.ok b, t))
    (noFiller : ¬ (w.position + b.length = w.head.size ∧ w.head.size % 2 = 1)) :
    (read m n).fill (w, s) = (.ok b, ({ w with position := w.position + b.length }, t)) := by
  rw [read, whenOpen_fill isOpen]
  simp only [if_neg (Int.not_le.mpr inside), asked]
  rw [fill_bind_of_ok (onSecond_fill h), fill_bind_of_ok (setPosition_fill _)]
  simp only [if_neg noFiller]
  rfl

theorem read_fill_of_full (m : Medium σ) (isOpen : w.closed = false) (n : Int) (full : (w.head.size : Int) ≤ w.position) :
    (read m n).fill (w, s) = (.ok [], (w, s)) := by
  rw [read, whenOpen_fill isOpen]
  simp only [if_pos full]
  rfl

theorem read_fill_of_error (m : Medium σ) (isOpen : w.closed = false) {n wanted : Int} {f : Fault}
    (inside : w.position < w.head.size)
    (asked : (if n < 0 ∨ w.head.size - w.position < n then w.head.size - w.position else n) = wanted)
    (h : (m.read wanted).fill s = (.error f, t)) : (read m n).fill (w, s) = (.error f, (w, t)) := by
  rw [read, whenOpen_fill isOpen]
  simp only [if_neg (Int.not_le.mpr inside), asked]
  rw [fill_bind_of_error (onSecond_fill h)]

/-- The position that a move leads to, if it lies in the window. -/
def target (w : Window) (n : Int) : Whence → Int
  | .start => n
  | .here => n + w.position
  | .finish => n + w.head.size

section Seek

variable (m : Medium σ) (isOpen : w.closed = false) {offset n t : Int} {whence : Whence} (placed : w.offset = some offset)
  (aimed : w.target n whence = t) (s : σ)
include isOpen placed aimed

theorem seek_fill_eq : (seek m n whence).fill (w, s) =
    (if t < 0 ∨ (w.head.size : Int) < t then throw .outsideChunk
      else onSecond (m.seek (offset + t) .start) >>= fun _ => setPosition t : Filling (Window × σ) Unit).fill (w, s) := by
  obtain ⟨head, _, position, closed⟩ := w
  cases isOpen
  cases placed
  cases aimed
  cases whence <;> rfl

theorem seek_fill_outside (outside : t < 0 ∨ w.head.size < t) :
    (seek m n whence).fill (w, s) = (.error .outsideChunk, (w, s)) := by
  rw [seek_fill_eq m isOpen placed aimed, if_pos outside, fill_throw]

variable {s} {s' : σ} (low : 0 ≤ t) (high : t ≤ w.head.size)
include low high

theorem seek_fill (moved : (m.seek (offset + t) .start).fill s = (.ok (), s')) :
    (seek m n whence).fill (w, s) = (.ok (), ({ w with position := t }, s')) := by
  rw [seek_fill_eq m isOpen placed aimed, if_neg (by omega), fill_bind_of_ok (onSecond_fill moved), setPosition_fill]

theorem seek_fill_of_error {f : Fault} (failed : (m.seek (offset + t) .start).fill s = (.error f, s')) :
    (seek m n whence).fill (w, s) = (.error f, (w, s')) := by
  rw [seek_fill_eq m isOpen placed aimed, if_neg (by omega), fill_bind_of_error (onSecond_fill failed)]

end Seek

section Skip

variable {m : Medium σ} (isOpen : w.closed = false) (known : w.offset ≠ none)
include isOpen known

theorem skip_fill (moved : (m.seek (w.head.next - w.position) .here).fill s = (.ok (), t)) :
    (skip m).fill (w, s) = (.ok (), ({ w with position := w.head.next }, t)) := by
  obtain ⟨start, placed⟩ := Option.ne_none_iff_exists'.mp known
  have sought : (onSecond (m.seek (w.head.next - w.position) .here) >>= fun _ => pure true :
      Filling (Window × σ) Bool).fill (w, s) = (.ok true, (w, t)) := fill_bind_of_ok (onSecond_fill moved) _
  have there : w.position + (w.head.next - w.position) = w.head.next := by omega
  rw [skip, whenOpen_fill isOpen]
  simp only [placed]
  rw [fill_bind_of_ok (fill_tryCatch_of_ok sought _), if_pos rfl, setPosition_fill, there, placed]

theorem skip_fill_of_error {f : Fault} (failed : (m.seek (w.head.next - w.position) .here).fill s = (.error f, t))
    (other : ∀ e, f ≠ .system e) : (skip m).fill (w, s) = (.error f, (w, t)) := by
  obtain ⟨start, placed⟩ := Option.ne_none_iff_exists'.mp known
  have sought : (onSecond (m.seek (w.head.next - w.position) .here) >>= fun _ => pure true :
      Filling (Window × σ) Bool).fill (w, s) = (.error f, (w, t)) := fill_bind_of_error (onSecond_fill failed) _
  rw [skip, whenOpen_fill isOpen]
  simp only [placed]
  refine fill_bind_of_error ?_ _
  rw [fill_tryCatch_of_error sought]
  cases f with
  | system e => exact absurd rfl (other e)
  | _ => rfl

/-- A medium that cannot be moved leaves the window where it is, and that is no fault. -/
theorem skip_fill_of_system {e : SystemFault}
    (failed : (m.seek (w.head.next - w.position) .here).fill s = (.error (.system e), t)) :
    (skip m).fill (w, s) = (.ok (), (w, t)) := by
  obtain ⟨start, placed⟩ := Option.ne_none_iff_exists'.mp known
  have sought : (onSecond (m.seek (w.head.next - w.position) .here) >>= fun _ => pure true :
      Filling (Window × σ) Bool).fill (w, s) = (.error (.system e), (w, t)) :=
    fill_bind_of_error (onSecond_fill failed) _
  have caught : ∀ handle : Fault → Filling (Window × σ) Bool, handle (.system e) = pure false →
      (tryCatch (onSecond (m.seek (w.head.next - w.position) .here) >>= fun _ => pure true) handle).fill (w, s) =
        (.ok false, (w, t)) := by
    intro handle passed
    rw [fill_tryCatch_of_error sought, passed]
    rfl
  rw [skip, whenOpen_fill isOpen]
  simp only [placed]
  rw [fill_bind_of_ok (caught _ rfl)]
  rfl

end Skip

end Window

end GameData.Container
