import GameData.Container.Walk
import GameData.Proofs.Loading

/-!
Two walks over one file.

The chunks that a walk visits depend on the walk alone. Two actions that keep a relation between what they gather, and
leave the walk at the same place, therefore keep it over all chunks; an action and the same action with a note of each
chunk are the first example.
-/
namespace GameData.Container.Walk

open Filling

variable {ρ ρ' : Type}

/-- Where the first action succeeds, the second one succeeds from a related state, leads the walk to the same place and
keeps the states related. -/
def Follows (R : ρ → ρ' → Prop) (first : Filling (ρ × Walk) Unit) (second : Filling (ρ' × Walk) Unit) : Prop :=
  ∀ r r' w s w₁, R r r' → first.fill (r, w) = (.ok (), (s, w₁)) →
    ∃ s', second.fill (r', w) = (.ok (), (s', w₁)) ∧ R s s'

theorem Follows.forEachFrom {R : ρ → ρ' → Prop} {first : Head → Filling (ρ × Walk) Unit}
    {second : Head → Filling (ρ' × Walk) Unit} (step : ∀ h, Follows R (first h) (second h)) (fuel : Nat) :
    Follows R (Walk.forEachFrom first fuel) (Walk.forEachFrom second fuel) := by
  induction fuel with
  | zero =>
      intro r r' w s w₁ _ run
      cases run
  | succ fuel ih =>
      intro r r' w s w₁ related run
      rcases moved : advance.fill w with ⟨f | next, w'⟩
      · rw [Walk.forEachFrom, fill_bind_of_error (onSecond_fill moved)] at run
        cases run
      -- The walk goes on alike for both, as nothing of what they gathered is part of it.
      · rw [Walk.forEachFrom, fill_bind_of_ok (onSecond_fill moved)] at run ⊢
        cases next with
        | none =>
            cases run
            exact ⟨r', rfl, related⟩
        | some h =>
            obtain ⟨_, ⟨m, v⟩, here, later⟩ := fill_bind_eq_ok.mp run
            obtain ⟨m', here', related'⟩ := step h r r' w' m v related here
            obtain ⟨s', later', related''⟩ := ih m m' v s w₁ related' later
            exact ⟨s', fill_bind_eq_ok.mpr ⟨(), (m', v), here', later'⟩, related''⟩

theorem Follows.forEach {R : ρ → ρ' → Prop} {first : Head → Filling (ρ × Walk) Unit}
    {second : Head → Filling (ρ' × Walk) Unit} (step : ∀ h, Follows R (first h) (second h)) :
    Follows R (Walk.forEach first) (Walk.forEach second) := by
  intro r r' w s w₁ related run
  exact Follows.forEachFrom step _ r r' w s w₁ related run

def noting (action : Head → Filling (ρ × Walk) Unit) (h : Head) : Filling ((ρ × List Head) × Walk) Unit :=
  ExceptT.mk do
    let ((r, heads), w) ← get
    let (result, (r, w)) := (action h).fill (r, w)
    set ((r, heads ++ [h]), w)
    pure result

theorem noting_fill {action : Head → Filling (ρ × Walk) Unit} {h : Head} {r s : ρ} {w w₁ : Walk}
    {result : Except Fault Unit} (heads : List Head) (run : (action h).fill (r, w) = (result, (s, w₁))) :
    (noting action h).fill ((r, heads), w) = (result, ((s, heads ++ [h]), w₁)) := by
  have step : (noting action h).fill ((r, heads), w) = (((action h).fill (r, w)).1,
      ((((action h).fill (r, w)).2.1, heads ++ [h]), ((action h).fill (r, w)).2.2)) := rfl
  rw [step, run]

theorem follows_noting (action : Head → Filling (ρ × Walk) Unit) (h : Head) :
    Follows (fun r noted => noted.1 = r) (action h) (noting action h) := by
  rintro r ⟨_, heads⟩ w s w₁ rfl run
  exact ⟨_, noting_fill heads run, rfl⟩

end GameData.Container.Walk
