import GameData.Bytes.Stream

/-!
Laws of computations that may fail.

A chain of steps succeeds when each of them does, which `bind_eq_ok` and its companions take apart. For a
`Filling` the laws of `fill` follow the record through the steps; the laws of `Stream` do so for an open stream.
-/
namespace GameData

section Except

variable {α β : Type}

theorem ok_bind (a : α) (f : α → Except Fault β) : ((.ok a : Except Fault α) >>= f) = f a := rfl

theorem bind_eq_ok {x : Except Fault α} {f : α → Except Fault β} {b : β} :
    (x >>= f) = .ok b ↔ ∃ a, x = .ok a ∧ f a = .ok b := by
  cases x with
  | error e =>
      constructor
      · intro h
        cases h
      · rintro ⟨a, h, _⟩
        cases h
  | ok a =>
      constructor
      · intro h
        exact ⟨a, rfl, h⟩
      · rintro ⟨_, h, k⟩
        cases h
        exact k

theorem map_eq_ok {x : Except Fault α} {f : α → β} {b : β} : x.map f = .ok b ↔ ∃ a, x = .ok a ∧ f a = b := by
  cases x <;> simp [Except.map]

theorem ensure_eq_ok {holds : Bool} {f : Fault} {u : Unit} : ensure holds f = .ok u ↔ holds = true := by
  cases holds <;> simp [ensure]

theorem demand_eq_ok {owner field : String} {o : Option α} {a : α} : demand owner field o = .ok a ↔ o = some a := by
  cases o <;> simp [demand]

theorem exactly_eq_ok {n : Nat} {b c : Bytes} : Bytes.exactly n b = .ok c ↔ b.length = n ∧ b = c := by
  unfold Bytes.exactly
  split <;> simp_all

theorem mapM_cons_eq_ok {f : α → Except Fault β} {x : α} {xs : List α} {ys : List β} :
    (x :: xs).mapM f = .ok ys ↔ ∃ y rest, f x = .ok y ∧ xs.mapM f = .ok rest ∧ ys = y :: rest := by
  rw [List.mapM_cons, bind_eq_ok]
  constructor
  · rintro ⟨y, hy, h⟩
    obtain ⟨rest, hr, h⟩ := bind_eq_ok.mp h
    cases h
    exact ⟨y, rest, hy, hr, rfl⟩
  · rintro ⟨y, rest, hy, hr, rfl⟩
    exact ⟨y, hy, bind_eq_ok.mpr ⟨rest, hr, rfl⟩⟩

theorem mapM_singleton_eq_ok {f : α → Except Fault β} {x : α} {ys : List β} :
    [x].mapM f = .ok ys ↔ ∃ y, f x = .ok y ∧ ys = [y] := by
  rw [mapM_cons_eq_ok]
  constructor
  · rintro ⟨y, rest, hy, hr, rfl⟩
    cases hr
    exact ⟨y, hy, rfl⟩
  · rintro ⟨y, hy, rfl⟩
    exact ⟨y, [], hy, rfl, rfl⟩

theorem mapM_append_eq_ok {f : α → Except Fault β} {xs xs' : List α} {ys : List β} :
    (xs ++ xs').mapM f = .ok ys ↔ ∃ zs zs', xs.mapM f = .ok zs ∧ xs'.mapM f = .ok zs' ∧ ys = zs ++ zs' := by
  rw [List.mapM_append, bind_eq_ok]
  constructor
  · rintro ⟨zs, first, h⟩
    obtain ⟨zs', second, joined⟩ := bind_eq_ok.mp h
    exact ⟨zs, zs', first, second, (Except.ok.inj joined).symm⟩
  · rintro ⟨zs, zs', first, second, rfl⟩
    exact ⟨zs, first, bind_eq_ok.mpr ⟨zs', second, rfl⟩⟩

theorem mapM_eq_ok_map {f : α → Except Fault β} {g : α → β} {xs : List α} (h : ∀ x ∈ xs, f x = .ok (g x)) :
    xs.mapM f = .ok (xs.map g) := by
  induction xs with
  | nil => rfl
  | cons x xs ih =>
      have rest := ih fun y mem => h y (List.mem_cons_of_mem x mem)
      exact mapM_cons_eq_ok.mpr ⟨_, _, h x List.mem_cons_self, rest, rfl⟩

theorem length_of_mapM_eq_ok {f : α → Except Fault β} {xs : List α} {ys : List β} (h : xs.mapM f = .ok ys) :
    ys.length = xs.length := by
  induction xs generalizing ys with
  | nil =>
      cases h
      rfl
  | cons x xs ih =>
      obtain ⟨y, rest, _, hr, rfl⟩ := mapM_cons_eq_ok.mp h
      exact congrArg Nat.succ (ih hr)

/-- The computation succeeds or fails because of a record. -/
def RecordsOnly (x : Except Fault α) : Prop := ∀ f, x = .error f → ∃ r, f = .record r

theorem RecordsOnly.ok (a : α) : RecordsOnly (.ok a) := by
  intro f h
  cases h

theorem RecordsOnly.bind {x : Except Fault α} {f : α → Except Fault β} (first : RecordsOnly x)
    (second : ∀ a, RecordsOnly (f a)) : RecordsOnly (x >>= f) := by
  intro e h
  cases x with
  | error e' =>
      cases h
      exact first _ rfl
  | ok a => exact second a e h

theorem RecordsOnly.map {x : Except Fault α} (h : RecordsOnly x) (f : α → β) : RecordsOnly (x.map f) := by
  intro e failed
  cases x with
  | error e' =>
      cases failed
      exact h _ rfl
  | ok a => cases failed

theorem RecordsOnly.mapM {f : α → Except Fault β} {xs : List α} (each : ∀ x ∈ xs, RecordsOnly (f x)) :
    RecordsOnly (xs.mapM f) := by
  induction xs with
  | nil => exact .ok []
  | cons x xs ih =>
      obtain ⟨first, others⟩ := List.forall_mem_cons.mp each
      rw [List.mapM_cons]
      exact first.bind fun y => (ih others).bind fun ys => .ok (y :: ys)

end Except

namespace Filling

variable {σ τ α β : Type} (s t : σ)

@[simp] theorem fill_pure (a : α) : (pure a : Filling σ α).fill s = (.ok a, s) := rfl

@[simp] theorem fill_throw (f : Fault) : (throw f : Filling σ α).fill s = (.error f, s) := rfl

@[simp] theorem fill_attempt (x : Except Fault α) : (attempt x : Filling σ α).fill s = (x, s) := by
  cases x <;> rfl

@[simp] theorem fill_modify (f : σ → σ) : (modify f : Filling σ PUnit).fill s = (.ok ⟨⟩, f s) := rfl

@[simp] theorem fill_get : (get : Filling σ σ).fill s = (.ok s, s) := rfl

@[simp] theorem fill_set : (set t : Filling σ PUnit).fill s = (.ok ⟨⟩, t) := rfl

@[simp] theorem fill_require (holds : Bool) (f : Fault) :
    (require holds f : Filling σ Unit).fill s = (ensure holds f, s) := by
  cases holds <;> rfl

variable {s t} {m : Filling σ α}

theorem fill_bind_of_ok {a : α} (h : m.fill s = (.ok a, t)) (f : α → Filling σ β) :
    (m >>= f).fill s = (f a).fill t := by
  change (ExceptT.bindCont f (m.fill s).1).run (m.fill s).2 = _
  rw [h]
  rfl

theorem fill_bind_of_fst {a : α} (h : (m.fill s).1 = .ok a) (f : α → Filling σ β) :
    (m >>= f).fill s = (f a).fill (m.fill s).2 :=
  fill_bind_of_ok (Prod.ext h rfl) f

theorem fill_bind_of_error {e : Fault} (h : m.fill s = (.error e, t)) (f : α → Filling σ β) :
    (m >>= f).fill s = (.error e, t) := by
  change (ExceptT.bindCont f (m.fill s).1).run (m.fill s).2 = _
  rw [h]
  rfl

theorem fill_bind_pure {r : Except Fault α} (h : m.fill s = (r, t)) (g : α → β) :
    (m >>= fun a => pure (g a)).fill s = (r.map g, t) := by
  cases r with
  | ok a => rw [fill_bind_of_ok h, fill_pure, Except.map]
  | error f => rw [fill_bind_of_error h, Except.map]

/-- A chain of two steps succeeds when the first one does and the second one does from there. -/
theorem fill_bind_eq_ok {f : α → Filling σ β} {b : β} :
    (m >>= f).fill s = (.ok b, t) ↔ ∃ a r, m.fill s = (.ok a, r) ∧ (f a).fill r = (.ok b, t) := by
  rcases hm : m.fill s with ⟨e | a, r⟩
  · rw [fill_bind_of_error hm]
    simp
  · rw [fill_bind_of_ok hm]
    constructor
    · intro h
      exact ⟨a, r, rfl, h⟩
    · rintro ⟨a', r', same, h⟩
      cases same
      exact h

theorem fill_tryCatch_of_ok {a : α} (h : m.fill s = (.ok a, t)) (handle : Fault → Filling σ α) :
    (tryCatch m handle).fill s = (.ok a, t) := by
  simp only [fill, ExceptT.run, tryCatch, tryCatchThe, MonadExceptOf.tryCatch, ExceptT.tryCatch, ExceptT.mk,
    StateT.run_bind] at h ⊢
  rw [h]
  rfl

theorem fill_tryCatch_of_error {e : Fault} (h : m.fill s = (.error e, t)) (handle : Fault → Filling σ α) :
    (tryCatch m handle).fill s = (handle e).fill t := by
  simp only [fill, ExceptT.run, tryCatch, tryCatchThe, MonadExceptOf.tryCatch, ExceptT.tryCatch, ExceptT.mk,
    StateT.run_bind] at h ⊢
  rw [h]
  rfl

theorem onSecond_fill {m : Filling τ α} {a : σ} {b c : τ} {r : Except Fault α} (h : m.fill b = (r, c)) :
    (onSecond m : Filling (σ × τ) α).fill (a, b) = (r, (a, c)) := by
  have step : (onSecond m : Filling (σ × τ) α).fill (a, b) = ((m.fill b).1, (a, (m.fill b).2)) := rfl
  rw [step, h]

end Filling

namespace Bytes

theorem length_slice (b : Bytes) (start n : Nat) : (b.slice start n).length = min n (b.length - start) := by
  rw [slice, List.length_take, List.length_drop]

theorem length_slice_of_le {b : Bytes} {start n : Nat} (inside : start + n ≤ b.length) :
    (b.slice start n).length = n := by
  rw [length_slice]
  omega

theorem eq_take_of_read {n : Nat} {rest b : Bytes} (h : Bytes.read n rest = .ok b) : b = rest.take n := by
  unfold read at h
  split at h <;> cases h
  rfl

theorem slice_append {front : Bytes} {k : Nat} (length : front.length = k) (rest : Bytes) (n : Nat) :
    (front ++ rest).slice k n = rest.take n := by
  rw [slice, List.drop_left' length]

theorem slice_take {b : Bytes} {start n k : Nat} (inside : start + n ≤ k) : slice (b.take k) start n = b.slice start n := by
  rw [slice, slice, List.drop_take, List.take_take, Nat.min_eq_left (by omega)]

end Bytes

namespace Stream

open Filling

variable (s : Stream)

theorem countable_of_le {n : Nat} (small : n ≤ Bytes.readLimit) : Countable n := by
  unfold Countable
  omega

/-- A read that a stream does not refuse. -/
theorem read_fill_of_countable (isOpen : s.closed = false) {n : Int} (countable : Countable n)
    (allowed : ¬ (s.kind = .disk ∧ n < -1)) :
    (read n).fill s = (.ok (s.rest.upTo n), { s with position := s.position + (s.rest.upTo n).length }) := by
  rw [read, fill_bind_of_ok (fill_get s)]
  simp only [not_true_eq_false, countable, allowed, isOpen, Bool.false_eq_true, if_false]
  rfl

theorem read_fill (isOpen : s.closed = false) {n : Nat} (small : n ≤ Bytes.readLimit) :
    (read n).fill s = (.ok (s.rest.take n), { s with position := s.position + (s.rest.take n).length }) := by
  have given : s.rest.upTo n = s.rest.take n := if_neg (by omega)
  rw [read_fill_of_countable s isOpen (countable_of_le small) (by omega), given]

theorem read_fill_of_closed (closed : s.closed = true) {n : Nat} (small : n ≤ Bytes.readLimit) :
    (read n).fill s = (.error s.readFault, s) := by
  have allowed : ¬ (s.kind = .disk ∧ (n : Int) < -1) := by omega
  rw [read, fill_bind_of_ok (fill_get s)]
  simp only [not_true_eq_false, countable_of_le small, allowed, closed, if_true, if_false]
  rfl

theorem seek_fill_of_ok {n : Int} {w : Whence} {t : Nat} (lands : s.landing n w = .ok t) :
    (seek n w).fill s = (.ok (), { s with position := t }) := by
  rw [seek, fill_bind_of_ok (fill_get s), lands]
  rfl

theorem seek_fill_of_error {n : Int} {w : Whence} {f : Fault} (failed : s.landing n w = .error f) :
    (seek n w).fill s = (.error f, s) := by
  rw [seek, fill_bind_of_ok (fill_get s), failed]
  rfl

/-- A move to a place of the stream or not too far behind it. -/
theorem seek_fill (isOpen : s.closed = false) {n : Int} {w : Whence} {t : Nat} (lands : s.target n w = t)
    (movable : s.Movable n) (near : t ≤ s.reach) : (seek n w).fill s = (.ok (), { s with position := t }) := by
  have memory : s.seekMemory n w = .ok t := by
    have forward : ¬ (w = .start ∧ n < 0) := by
      rintro ⟨rfl, back⟩
      have : n = t := lands
      omega
    simp only [seekMemory, not_true_eq_false, movable, isOpen, Bool.false_eq_true, if_false, forward, lands]
    rw [if_neg (by omega), Int.toNat_natCast]
  have disk : s.seekDisk n w = .ok t := by
    simp only [seekDisk, not_true_eq_false, movable, isOpen, Bool.false_eq_true, if_false, lands]
    rw [if_neg (by omega), Int.toNat_natCast]
  exact s.seek_fill_of_ok (by rw [landing, memory, disk, ite_self])

/-- A move by the distance from the start. -/
theorem seek_fill_start (isOpen : s.closed = false) {t : Nat} (near : t ≤ s.data.length + 0x4000000000000000) :
    (seek t .start).fill s = (.ok (), { s with position := t }) := by
  have high : t ≤ s.reach := Nat.le_trans near (Nat.le_max_right _ _)
  refine seek_fill s isOpen rfl ?_ high
  unfold Movable
  omega

theorem tell_fill (isOpen : s.closed = false) :
    tell.fill s = (.ok (if s.kind = .sequential then none else some (s.position : Int)), s) := by
  rw [tell, fill_bind_of_ok (fill_get s)]
  simp only [isOpen, Bool.false_eq_true, if_false]
  rfl

/-- Reading moves a stream and does nothing else to it. -/
theorem read_fill_position (n : Int) : ∃ r p, (read n).fill s = (r, { s with position := p }) := by
  rw [read, fill_bind_of_ok (fill_get s)]
  split
  · exact ⟨_, _, rfl⟩
  · split
    · exact ⟨_, _, rfl⟩
    · split
      · exact ⟨_, _, rfl⟩
      · exact ⟨_, _, rfl⟩

theorem seek_fill_position (n : Int) (w : Whence) : ∃ r p, (seek n w).fill s = (r, { s with position := p }) := by
  cases landed : s.landing n w with
  | error f => exact ⟨_, s.position, s.seek_fill_of_error landed⟩
  | ok p => exact ⟨_, p, s.seek_fill_of_ok landed⟩

end Stream

end GameData
