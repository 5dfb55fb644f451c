import GameData.Container.Walk
import GameData.Proofs.Container.Window
import GameData.Proofs.Keeping

/-!
What is left to be read, and how far a medium is moved.

A read gives the front of what is left on a medium and leaves the rest of it. A window on such a medium is one too, with
as much left as fits into the window: a filler is taken only when nothing is left. A window of even size takes no filler
and so moves by what it gives (`Medium.Exact`); a window on it, whatever its own size, keeps its distance from it.
-/
namespace GameData

open Filling

namespace Medium

variable {σ : Type}

/-- A read gives the front of what is left and leaves the rest. -/
def Gives (m : Medium σ) (ready : σ → Prop) (left : σ → Bytes) : Prop :=
  ∀ s (n : Nat), ready s → n ≤ Bytes.readLimit →
    ∃ t, (m.read n).fill s = (.ok ((left s).take n), t) ∧ ready t ∧ left t = (left s).drop n

/-- A read moves the medium by the bytes that it gives, and a move from the start leads to where it says; what fails
leaves the medium at its place. -/
structure Exact (m : Medium σ) (P : σ → Prop) (place : σ → Int) : Prop where
  read : ∀ n s, P s → (∃ f t, (m.read n).fill s = (.error f, t) ∧ P t ∧ place t = place s) ∨
    ∃ (b : Bytes) (t : σ), (m.read n).fill s = (.ok b, t) ∧ P t ∧ place t = place s + b.length
  seek : ∀ n s, P s → (∃ f t, (m.seek n .start).fill s = (.error f, t) ∧ P t ∧ place t = place s) ∨
    ∃ t, (m.seek n .start).fill s = (.ok (), t) ∧ P t ∧ place t = n

structure Keeps (m : Medium σ) (P : σ → Prop) : Prop where
  read : ∀ n, Filling.Keeps P (m.read n)
  seek : ∀ n whence, Filling.Keeps P (m.seek n whence)
  tell : Filling.Keeps P m.tell

end Medium

/-- What is left of the first `room` bytes when `n` of them have been taken off the front. -/
theorem Bytes.take_drop_min (b : Bytes) (room n : Nat) :
    (b.drop (min n room)).take (room - ((b.take room).take n).length) = (b.take room).drop n := by
  rw [List.length_take, List.length_take, List.drop_take]
  rcases Nat.le_total n room with within | beyond
  · rw [Nat.min_eq_left within, List.take_eq_take_iff, List.length_drop]
    omega
  · have none : ((b.drop room).take (room - min n (min room b.length))).length = 0 := by
      rw [List.length_take, List.length_drop]
      omega
    rw [Nat.min_eq_right beyond, Nat.sub_eq_zero_of_le beyond, List.take_zero, List.length_eq_zero_iff.mp none]

theorem Bytes.drop_length_take (b : Bytes) (n : Nat) : b.drop (b.take n).length = b.drop n := by
  rw [List.drop_eq_drop_iff, List.length_take]
  omega

namespace Stream

def Moved (s t : Stream) : Prop := ∃ p, t = { s with position := p }

variable {s : Stream}

theorem gives (isOpen : s.closed = false) : medium.Gives s.Moved rest := by
  rintro _ n ⟨p, rfl⟩ small
  refine ⟨_, read_fill { s with position := p } isOpen small, ⟨_, rfl⟩, ?_⟩
  rw [rest, ← List.drop_drop]
  exact Bytes.drop_length_take _ n

theorem keeps : medium.Keeps s.Moved where
  read n := by
    rintro _ ⟨p, rfl⟩
    obtain ⟨r, q, run⟩ := read_fill_position { s with position := p } n
    exact ⟨q, congrArg Prod.snd run⟩
  seek n whence := by
    rintro _ ⟨p, rfl⟩
    obtain ⟨r, q, run⟩ := seek_fill_position { s with position := p } n whence
    exact ⟨q, congrArg Prod.snd run⟩
  tell := by
    refine Filling.Keeps.get.bind fun t => ?_
    split
    · exact .throw _
    · exact .pure _

end Stream

namespace Container

namespace Window

variable {σ : Type} {m : Medium σ} {w : Window} {s : σ}

def Moved (w x : Window) : Prop := ∃ p, x = { w with position := p }

def room (w : Window) : Nat := (w.head.size - w.position).toNat

/-- How many bytes the window asks its medium for. -/
def wanted (w : Window) (n : Int) : Nat := if n < 0 then w.room else min n.toNat w.room

theorem read_fill_wanted (isOpen : w.closed = false) (n : Int) :
    (read m n).fill (w, s) = (read m (w.wanted n)).fill (w, s) := by
  by_cases full : (w.head.size : Int) ≤ w.position
  · rw [read_fill_of_full m isOpen n full, read_fill_of_full m isOpen _ full]
  · have same : (if n < 0 ∨ w.head.size - w.position < n then (w.head.size : Int) - w.position else n) =
        if (w.wanted n : Int) < 0 ∨ w.head.size - w.position < w.wanted n then (w.head.size : Int) - w.position
          else w.wanted n := by
      unfold wanted room
      split <;> split <;> omega
    rw [read, read, whenOpen_fill isOpen, whenOpen_fill isOpen]
    simp only [if_neg full, same]

/-- A read that ends with the last of an odd number of bytes takes a filler with it. -/
theorem read_fill_filler (isOpen : w.closed = false) {n wanted : Int} {b f : Bytes} {t u : σ}
    (inside : w.position < w.head.size)
    (asked : (if n < 0 ∨ w.head.size - w.position < n then w.head.size - w.position else n) = wanted)
    (taken : (m.read wanted).fill s = (.ok b, t)) (last : w.position + b.length = w.head.size ∧ w.head.size % 2 = 1)
    (filled : (m.read 1).fill t = (.ok f, u)) :
    (read m n).fill (w, s) = (.ok b, ({ w with position := w.position + b.length + f.length }, u)) := by
  rw [read, whenOpen_fill isOpen]
  simp only [if_neg (Int.not_le.mpr inside), asked]
  rw [fill_bind_of_ok (onSecond_fill taken), fill_bind_of_ok (setPosition_fill _)]
  simp only [if_pos last]
  rw [fill_bind_of_ok (onSecond_fill filled), fill_bind_of_ok (setPosition_fill _)]
  rfl

/-- What a window gives: the front of what is left on its medium, as far as the window goes. Only a window of odd size
moves by more than it gives. -/
theorem read_gives {ready : σ → Prop} {left : σ → Bytes} (inner : m.Gives ready left) (isOpen : w.closed = false)
    (holds : ready s) {n : Nat} (small : n ≤ Bytes.readLimit) :
    ∃ p t, (read m n).fill (w, s) = (.ok (((left s).take w.room).take n), ({ w with position := p }, t)) ∧ ready t ∧
      (left t).take (w.head.size - p).toNat = ((left s).take w.room).drop n ∧ w.position ≤ p ∧
      (w.head.size % 2 = 0 → p = w.position + (((left s).take w.room).take n).length) := by
  by_cases full : (w.head.size : Int) ≤ w.position
  · have none : w.room = 0 := by
      unfold room
      omega
    have empty : (w.head.size - w.position : Int).toNat = 0 := none
    refine ⟨w.position, s, ?_, holds, ?_, Int.le_refl _, fun _ => ?_⟩
    · rw [read_fill_of_full m isOpen n full, none, List.take_zero, List.take_nil]
    · rw [empty, none, List.take_zero, List.drop_nil]
    · rw [none, List.take_zero, List.take_nil, List.length_nil]
      exact (Int.add_zero _).symm
  · have room_eq : (w.room : Int) = w.head.size - w.position := by
      unfold room
      omega
    have asked : (if (n : Int) < 0 ∨ (w.head.size : Int) - w.position < n then (w.head.size : Int) - w.position else n) =
        (min n w.room : Nat) := by
      split <;> omega
    obtain ⟨t, taken, ready', left'⟩ := inner s (min n w.room) holds (Nat.le_trans (Nat.min_le_left _ _) small)
    rw [← List.take_take] at taken
    have length : (((left s).take w.room).take n).length = min n (min w.room (left s).length) := by
      rw [List.length_take, List.length_take]
    by_cases filler : w.position + (((left s).take w.room).take n).length = w.head.size ∧ w.head.size % 2 = 1
    · -- The window is full: nothing of the filler is left in it.
      obtain ⟨u, run, ready'', -⟩ := inner t 1 ready' (by decide)
      have filled : (m.read 1).fill t = (.ok ((left t).take 1), u) := run
      refine ⟨_, u, read_fill_filler isOpen (by omega) asked taken filler filled, ready'', ?_, by omega, ?_⟩
      · have none : (w.head.size - (w.position + (((left s).take w.room).take n).length + ((left t).take 1).length) :
            Int).toNat = 0 := by omega
        have all : w.room ≤ n := by omega
        rw [none, List.take_zero, List.drop_eq_nil_of_le]
        rw [List.length_take]
        omega
      · intro even
        omega
    · refine ⟨_, t, read_fill m isOpen (by omega) asked taken filler, ready', ?_, by omega, fun _ => rfl⟩
      have still : (w.head.size - (w.position + (((left s).take w.room).take n).length) : Int).toNat =
          w.room - (((left s).take w.room).take n).length := by
        omega
      rw [still, left', Bytes.take_drop_min]

/-- A window on a medium gives what is left on it, as far as the window goes. -/
theorem gives {ready : σ → Prop} {left : σ → Bytes} (inner : m.Gives ready left) (isOpen : w.closed = false) :
    (medium m).Gives (fun x => w.Moved x.1 ∧ ready x.2) fun x => (left x.2).take x.1.room := by
  rintro ⟨_, s⟩ n ⟨⟨p, rfl⟩, holds⟩ small
  obtain ⟨q, t, run, ready', left', -, -⟩ := read_gives (w := { w with position := p }) inner isOpen holds small
  exact ⟨_, run, ⟨⟨q, rfl⟩, ready'⟩, left'⟩

section Keeps

variable {P : σ → Prop}

theorem keeps_setPosition (p : Int) :
    Filling.Keeps (fun x : Window × σ => w.Moved x.1 ∧ P x.2) (setPosition p) := by
  rintro ⟨_, s⟩ ⟨⟨q, rfl⟩, holds⟩
  exact ⟨⟨p, rfl⟩, holds⟩

theorem keeps_whenOpen {α : Type} {action : Window → Filling (Window × σ) α}
    (each : ∀ x, Filling.Keeps (fun x : Window × σ => w.Moved x.1 ∧ P x.2) (action x)) :
    Filling.Keeps (fun x : Window × σ => w.Moved x.1 ∧ P x.2) (whenOpen action) := by
  refine Filling.Keeps.get.bind fun x => ?_
  obtain ⟨x, _⟩ := x
  dsimp only
  split
  · exact .throw _
  · exact each x

theorem keeps (inner : m.Keeps P) (w : Window) : (medium m).Keeps fun x => w.Moved x.1 ∧ P x.2 where
  read n := by
    refine keeps_whenOpen fun x => ?_
    dsimp only
    split
    · exact .pure _
    · refine ((inner.read _).onSecond _).bind fun b => (keeps_setPosition _).bind fun _ => ?_
      split
      · exact ((inner.read _).onSecond _).bind fun _ => (keeps_setPosition _).bind fun _ => .pure _
      · exact .pure _
  seek n whence := by
    refine keeps_whenOpen fun x => ?_
    split
    · exact .throw _
    · cases whence
      all_goals
        dsimp only
        split
        · exact .throw _
        · exact ((inner.seek _ _).onSecond _).bind fun _ => keeps_setPosition _
  tell := by
    refine keeps_whenOpen fun x => ?_
    exact .pure _

end Keeps

section Distance

variable {P : σ → Prop}

theorem read_fill_even (inner : m.Keeps P) (isOpen : w.closed = false) (even : w.head.size % 2 = 0) (n : Int)
    (holds : P s) : (∃ f t, (read m n).fill (w, s) = (.error f, (w, t)) ∧ P t) ∨
      ∃ (b : Bytes) (t : σ), (read m n).fill (w, s) = (.ok b, ({ w with position := w.position + b.length }, t)) ∧ P t := by
  by_cases full : (w.head.size : Int) ≤ w.position
  · refine .inr ⟨[], s, ?_, holds⟩
    rw [read_fill_of_full m isOpen n full, List.length_nil, Int.natCast_zero, Int.add_zero]
  · generalize asked :
      (if n < 0 ∨ w.head.size - w.position < n then (w.head.size : Int) - w.position else n) = wanted
    have kept := inner.read wanted s holds
    rcases run : (m.read wanted).fill s with ⟨f | b, t⟩
    · rw [run] at kept
      exact .inl ⟨f, t, read_fill_of_error m isOpen (Int.not_le.mp full) asked run, kept⟩
    · rw [run] at kept
      have noFiller : ¬ (w.position + b.length = w.head.size ∧ w.head.size % 2 = 1) := by omega
      exact .inr ⟨b, t, read_fill m isOpen (Int.not_le.mp full) asked run noFiller, kept⟩

theorem seek_fill_start (inner : m.Keeps P) (isOpen : w.closed = false) (n : Int) (holds : P s) :
    (∃ f t, (seek m n .start).fill (w, s) = (.error f, (w, t)) ∧ P t) ∨
      ∃ t, (seek m n .start).fill (w, s) = (.ok (), ({ w with position := n }, t)) ∧ P t := by
  cases placed : w.offset with
  | none =>
      refine .inl ⟨.system .cannotSeek, s, ?_, holds⟩
      rw [seek, whenOpen_fill isOpen]
      simp only [placed]
      rfl
  | some offset =>
      have aimed : w.target n .start = n := rfl
      by_cases outside : n < 0 ∨ (w.head.size : Int) < n
      · exact .inl ⟨_, s, seek_fill_outside m isOpen placed aimed s outside, holds⟩
      · have kept := inner.seek (offset + n) .start s holds
        rcases run : (m.seek (offset + n) .start).fill s with ⟨f | _, t⟩
        · rw [run] at kept
          exact .inl ⟨f, t, seek_fill_of_error m isOpen placed aimed (by omega) (by omega) run, kept⟩
        · rw [run] at kept
          exact .inr ⟨t, (seek_fill m isOpen placed aimed (by omega) (by omega) run).trans (by rw [placed]), kept⟩

/-- A window of even size is moved by what it gives. -/
theorem exact (inner : m.Keeps P) (isOpen : w.closed = false) (even : w.head.size % 2 = 0) :
    (medium m).Exact (fun x => w.Moved x.1 ∧ P x.2) fun x => x.1.position where
  read n := by
    rintro ⟨_, s⟩ ⟨⟨p, rfl⟩, holds⟩
    rcases read_fill_even (w := { w with position := p }) inner isOpen even n holds with
      ⟨f, t, failed, holds⟩ | ⟨b, t, given, holds⟩
    · exact .inl ⟨f, _, failed, ⟨⟨p, rfl⟩, holds⟩, rfl⟩
    · exact .inr ⟨b, _, given, ⟨⟨_, rfl⟩, holds⟩, rfl⟩
  seek n := by
    rintro ⟨_, s⟩ ⟨⟨p, rfl⟩, holds⟩
    rcases seek_fill_start (w := { w with position := p }) inner isOpen n holds with
      ⟨f, t, failed, holds⟩ | ⟨t, moved, holds⟩
    · exact .inl ⟨f, _, failed, ⟨⟨p, rfl⟩, holds⟩, rfl⟩
    · exact .inr ⟨_, moved, ⟨⟨n, rfl⟩, holds⟩, rfl⟩

/-- The window on the data that start at `start` of a medium, and how far both have come: the medium is as far behind that
start as the window says. -/
def Level (h : Head) (start : Int) (P : σ → Prop) (place : σ → Int) (x : Window × σ) : Prop :=
  ∃ p, x.1 = { head := h, offset := some start, position := p } ∧ P x.2 ∧ place x.2 = start + p

/-- Whatever is done with a window, it and its medium move alike, filler included. -/
theorem keeps_level {place : σ → Int} (inner : m.Exact P place) (h : Head) (start : Int) :
    (medium m).Keeps (Level h start P place) where
  read n := by
    rintro ⟨_, s⟩ ⟨p, rfl, holds, level⟩
    dsimp only at level
    change Level h start P place ((read m n).fill _).2
    by_cases full : (h.size : Int) ≤ p
    · rw [read_fill_of_full m rfl n full]
      exact ⟨p, rfl, holds, level⟩
    · rw [read, whenOpen_fill rfl]
      simp only [if_neg full]
      rcases inner.read (if n < 0 ∨ h.size - p < n then h.size - p else n) s holds with
        ⟨f, t, failed, holds, same⟩ | ⟨b, t, given, holds, moved⟩
      · rw [fill_bind_of_error (onSecond_fill failed)]
        exact ⟨p, rfl, holds, same.trans level⟩
      · rw [fill_bind_of_ok (onSecond_fill given), fill_bind_of_ok (setPosition_fill _)]
        have level : place t = start + (p + b.length) := by omega
        by_cases last : p + b.length = h.size ∧ h.size % 2 = 1
        · simp only [if_pos last]
          rcases inner.read 1 t holds with ⟨f, u, failed, holds, same⟩ | ⟨filler, u, given, holds, moved⟩
          · rw [fill_bind_of_error (onSecond_fill failed)]
            exact ⟨p + b.length, rfl, holds, same.trans level⟩
          · rw [fill_bind_of_ok (onSecond_fill given), fill_bind_of_ok (setPosition_fill _)]
            have level : place u = start + (p + b.length + filler.length) := by omega
            exact ⟨p + b.length + filler.length, rfl, holds, level⟩
        · simp only [if_neg last]
          exact ⟨p + b.length, rfl, holds, level⟩
  seek n whence := by
    rintro ⟨_, s⟩ ⟨p, rfl, holds, level⟩
    change Level h start P place ((seek m n whence).fill _).2
    generalize aimed : ({ head := h, offset := some start, position := p } : Window).target n whence = t
    by_cases outside : t < 0 ∨ (h.size : Int) < t
    · rw [seek_fill_outside m rfl rfl aimed _ outside]
      exact ⟨p, rfl, holds, level⟩
    · rcases inner.seek (start + t) s holds with ⟨f, u, failed, holds, same⟩ | ⟨u, moved, holds, there⟩
      · rw [seek_fill_of_error m rfl rfl aimed (by omega) (show t ≤ h.size by omega) failed]
        exact ⟨p, rfl, holds, same.trans level⟩
      · rw [seek_fill m rfl rfl aimed (by omega) (show t ≤ h.size by omega) moved]
        exact ⟨t, rfl, holds, there⟩
  tell := by
    rintro ⟨_, s⟩ ⟨p, rfl, holds, level⟩
    exact ⟨p, rfl, holds, level⟩

end Distance

end Window

end Container

end GameData
