import GameData.Proofs.Loading

/-!
What a computation leaves alone.

A condition on the record that every step keeps is kept by a chain of steps, by a step on a part of the record, and when
a fault is caught. It holds afterwards also when the computation has failed.
-/
namespace GameData.Filling

variable {σ τ α β : Type}

/-- The condition holds of the record afterwards if it did before. -/
def Keeps (P : σ → Prop) (c : Filling σ α) : Prop := ∀ s, P s → P (c.fill s).2

namespace Keeps

variable {P : σ → Prop}

theorem pure (a : α) : Keeps P (Pure.pure a : Filling σ α) := fun _ holds => holds

theorem throw (f : Fault) : Keeps P (MonadExcept.throw f : Filling σ α) := fun _ holds => holds

theorem get : Keeps P (MonadState.get : Filling σ σ) := fun _ holds => holds

theorem updating {f : σ → σ} (kept : ∀ s, P s → P (f s)) : Keeps P (modify f : Filling σ PUnit) := kept

theorem attempt (x : Except Fault α) : Keeps P (Filling.attempt x : Filling σ α) := by
  intro s holds
  rw [fill_attempt]
  exact holds

theorem require (condition : Bool) (f : Fault) : Keeps P (Filling.require condition f : Filling σ Unit) := by
  intro s holds
  rw [fill_require]
  exact holds

theorem bind {c : Filling σ α} {f : α → Filling σ β} (first : Keeps P c) (second : ∀ a, Keeps P (f a)) :
    Keeps P (c >>= f) := by
  intro s holds
  have kept := first s holds
  rcases run : c.fill s with ⟨e | a, t⟩
  · rw [run] at kept
    rw [fill_bind_of_error run]
    exact kept
  · rw [run] at kept
    rw [fill_bind_of_ok run]
    exact second a t kept

theorem tryCatch {c : Filling σ α} {handle : Fault → Filling σ α} (first : Keeps P c)
    (second : ∀ f, Keeps P (handle f)) : Keeps P (MonadExcept.tryCatch c handle) := by
  intro s holds
  have kept := first s holds
  rcases run : c.fill s with ⟨e | a, t⟩
  · rw [run] at kept
    have caught : (MonadExcept.tryCatch c handle).fill s = (handle e).fill t := fill_tryCatch_of_error run handle
    rw [caught]
    exact second e t kept
  · rw [run] at kept
    have passed : (MonadExcept.tryCatch c handle).fill s = (.ok a, t) := fill_tryCatch_of_ok run handle
    rw [passed]
    exact kept

theorem forM {f : α → Filling σ PUnit} {xs : List α} (each : ∀ x ∈ xs, Keeps P (f x)) : Keeps P (xs.forM f) := by
  induction xs with
  | nil => exact .pure PUnit.unit
  | cons x xs ih =>
      obtain ⟨first, others⟩ := List.forall_mem_cons.mp each
      exact first.bind fun _ => ih others

theorem onSecond {Q : τ → Prop} {c : Filling τ α} (kept : Keeps Q c) (R : σ → Prop) :
    Keeps (fun x : σ × τ => R x.1 ∧ Q x.2) (Filling.onSecond c) := by
  rintro ⟨a, b⟩ ⟨first, second⟩
  exact ⟨first, kept b second⟩

/-- A step on the second part keeps what concerns that part alone. -/
theorem right {Q : τ → Prop} {c : Filling τ α} (kept : Keeps Q c) :
    Keeps (fun x : σ × τ => Q x.2) (Filling.onSecond c) := by
  rintro ⟨a, b⟩ second
  exact kept b second

end Keeps

end GameData.Filling
