import GameData.Fault

/-!
Step-by-step filling of a record. A step may fail; what the steps before it have set stays set, so that the
record after a failed load shows how far the load came.
-/
namespace GameData

/-- A computation that fills a record of type `σ`. -/
abbrev Filling (σ α : Type) := ExceptT Fault (StateM σ) α

namespace Filling

/-- The outcome and the record afterwards. -/
def fill {σ α : Type} (m : Filling σ α) (s : σ) : Except Fault α × σ := (ExceptT.run m).run s

/-- A result that was computed aside. -/
def attempt {σ α : Type} : Except Fault α → Filling σ α
  | .ok a => pure a
  | .error f => throw f

/-- Fails with a fault unless the condition holds. -/
def require {σ : Type} (holds : Bool) (f : Fault) : Filling σ Unit := if holds then pure () else throw f

end Filling

/-- Fails with a fault unless the condition holds. -/
def ensure (holds : Bool) (f : Fault) : Except Fault Unit := if holds then .ok () else .error f

/-- The set value of a field, or the fault that it was never set. -/
def demand {α : Type} (owner field : String) : Option α → Except Fault α
  | some a => .ok a
  | none => .error (.unset owner field)

end GameData
