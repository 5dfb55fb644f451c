import GameData.Mesh.Model
import GameData.Proofs.Container.Visits

/-!
Meshes loaded into a model that was loaded before.

A chunk replaces its table, except that the tables of collision chunks are added to those there are. A load therefore
lays what the file alone would give over what the model held (`Model.overlay`), and which of the old tables remain
depends on the kinds of chunks that the file has.
-/
namespace GameData.Mesh.Model

open Filling Container

/-- The model with its tables replaced by those of the kinds that were met, and with the collision tables added. -/
def overlay (old new : Model) (met : List Kind) : Model where
  hsem := if .hsem ∈ met then new.hsem else old.hsem
  atta := if .atta ∈ met then new.atta else old.atta
  xtvm := if .xtvm ∈ met then new.xtvm else old.xtvm
  trop := if .trop ∈ met then new.trop else old.trop
  xvtp := if .xvtp ∈ met then new.xvtp else old.xvtp
  cftp := if .cftp ∈ met then new.cftp else old.cftp
  d3dr := if .d3dr ∈ met then new.d3dr else old.d3dr
  dner := if .dner ∈ met then new.dner else old.dner
  xtrv := if .xtrv ∈ met then new.xtrv else old.xtrv
  pmtl := if .pmtl ∈ met then new.pmtl else old.pmtl
  hsmc := if .hsmc ∈ met then new.hsmc else old.hsmc
  xtvc := old.xtvc ++ new.xtvc
  ecfc := old.ecfc ++ new.ecfc
  tamc := old.tamc ++ new.tamc
  hpsc := old.hpsc ++ new.hpsc
  txan := if .txan ∈ met then new.txan else old.txan

/-- A head was read only if its chunk was met. -/
def Led (m : Model) (met : List Kind) : Prop := m.hsem ≠ none → Kind.hsem ∈ met

/-- A successful step from a model is also one from the old model with the new one laid over it, while the kinds that
were met grow from the first list to the second. -/
def Reloads (old : Model) (met met' : List Kind) {α : Type} (c : Loading α) : Prop :=
  ∀ m w a m' w', Led m met → c.fill (m, w) = (.ok a, (m', w')) →
    Led m' met' ∧ c.fill (overlay old m met, w) = (.ok a, (overlay old m' met', w'))

namespace Reloads

variable {old : Model} {met met' met'' : List Kind} {α β : Type}

theorem bind {c : Loading α} {f : α → Loading β} (first : Reloads old met met' c)
    (second : ∀ a, Reloads old met' met'' (f a)) : Reloads old met met'' (c >>= f) := by
  intro m w b m' w' led run
  obtain ⟨a, ⟨n, v⟩, here, later⟩ := fill_bind_eq_ok.mp run
  obtain ⟨led', here'⟩ := first m w a n v led here
  obtain ⟨led'', later'⟩ := second a n v b m' w' led' later
  exact ⟨led'', fill_bind_eq_ok.mpr ⟨a, _, here', later'⟩⟩

theorem pure (a : α) : Reloads old met met (Pure.pure a : Loading α) := by
  intro m w b m' w' led run
  cases run
  exact ⟨led, rfl⟩

theorem throw (f : Fault) : Reloads old met met' (MonadExcept.throw f : Loading α) := by
  intro m w b m' w' _ run
  cases run

theorem attempt (x : Except Fault α) : Reloads old met met (Filling.attempt x : Loading α) := by
  cases x with
  | ok a => exact pure a
  | error f => exact throw f

theorem require (holds : Bool) (f : Fault) : Reloads old met met (Filling.require holds f : Loading Unit) := by
  cases holds with
  | true => exact pure ()
  | false => exact throw f

theorem onSecond (c : Filling Walk α) : Reloads old met met (Filling.onSecond c : Loading α) := by
  intro m w a m' w' led run
  rcases moved : c.fill w with ⟨r, v⟩
  rw [onSecond_fill moved] at run
  cases run
  exact ⟨led, onSecond_fill moved⟩

/-- What follows may look at the walk, not at the model. -/
theorem get {f : Model × Walk → Loading β} (blind : ∀ m n w, f (m, w) = f (n, w))
    (each : ∀ p, Reloads old met met' (f p)) : Reloads old met met' (MonadState.get >>= f) := by
  intro m w b m' w' led run
  rw [fill_bind_of_ok (fill_get _)] at run ⊢
  obtain ⟨led', again⟩ := each (m, w) m w b m' w' led run
  exact ⟨led', (blind (overlay old m met) m w).symm ▸ again⟩

theorem readChunk (n : Int) : Reloads old met met (Model.readChunk n) := onSecond _

/-- The model type comes from a head that was met, and is the same under the old model. -/
theorem layoutFor (shapes : Nat → Option Table.Shape) : Reloads old met met (Model.layoutFor shapes) := by
  intro m w s m' w' led run
  rw [Model.layoutFor, fill_bind_of_ok (fill_get _)] at run ⊢
  obtain ⟨type, _, found, picked⟩ := fill_bind_eq_ok.mp run
  rw [fill_attempt] at found
  obtain ⟨known, rfl⟩ := Prod.mk.inj found
  have same : (overlay old m met).modelType = .ok type := by
    -- A head that was not met would leave no model type to ask for.
    have seen : Kind.hsem ∈ met := by
      refine led fun none => ?_
      rw [modelType, none] at known
      cases known
    simp only [modelType, overlay, if_pos seen] at known ⊢
    exact known
  have again : (Filling.attempt (overlay old m met).modelType : Loading Nat).fill (overlay old m met, w) =
      (.ok type, (overlay old m met, w)) := by rw [fill_attempt, same]
  cases shape : shapes type with
  | none =>
      simp only [shape] at picked
      cases picked
  | some s' =>
      simp only [shape] at picked
      cases picked
      refine ⟨led, (fill_bind_of_ok again _).trans ?_⟩
      simp only [shape]
      rfl

theorem tableOf (s : Table.Shape) : Reloads old met met (Model.tableOf s) :=
  (readChunk _).bind fun _ => attempt _

theorem readParts (size fuel : Nat) : Reloads old met met (Model.readParts size fuel) := by
  induction fuel with
  | zero => exact throw _
  | succ fuel ih =>
      refine (onSecond _).bind fun position => ?_
      simp only
      split
      case isTrue => exact pure _
      case isFalse =>
        refine (layoutFor _).bind fun shape => (readChunk _).bind fun b => (attempt _).bind fun rows => ?_
        split
        case h_1 row =>
          refine (readChunk _).bind fun b => (attempt _).bind fun faces => ?_
          split
          case isTrue => exact pure _
          case isFalse => exact ih.bind fun more => pure _
        case h_2 => exact throw _

theorem update {k : Kind} {f : Model → Model} (laid : ∀ m, overlay old (f m) (met ++ [k]) = f (overlay old m met))
    (led : ∀ m, Led m met → Led (f m) (met ++ [k])) : Reloads old met (met ++ [k]) (Model.update f) := by
  intro m w a m' w' seen run
  cases run
  refine ⟨led m seen, ?_⟩
  rw [laid]
  rfl

/-- A chunk ends with an update, after which nothing of it may be left. -/
theorem stored {k : Kind} {f : Model → Model} (laid : ∀ m, overlay old (f m) (met ++ [k]) = f (overlay old m met))
    (led : ∀ m, Led m met → Led (f m) (met ++ [k])) : Reloads old met (met ++ [k]) (do
      Model.update f
      let rest ← Model.readChunk (-1)
      Filling.require rest.isEmpty (.check .endOfChunk)) :=
  (update laid led).bind fun _ => (readChunk _).bind fun _ => require _ _

end Reloads

theorem Led.concat {m n : Model} {met : List Kind} (led : Led m met) (same : n.hsem = m.hsem) (k : Kind) :
    Led n (met ++ [k]) :=
  fun some => List.mem_append_left _ (led (same ▸ some))

def kindsOf (heads : List Head) : List Kind := heads.filterMap fun h => Kind.ofFourcc? h.fourcc

theorem kindsOf_concat {h : Head} {k : Kind} (kind : Kind.ofFourcc? h.fourcc = some k) (heads : List Head) :
    kindsOf (heads ++ [h]) = kindsOf heads ++ [k] := by
  rw [kindsOf, List.filterMap_append, List.filterMap_cons, kind]
  rfl

theorem reloads_loadChunk (old : Model) (met : List Kind) {h : Head} {k : Kind}
    (kind : Kind.ofFourcc? h.fourcc = some k) : Reloads old met (met ++ [k]) (loadChunk h) := by
  unfold loadChunk
  simp only [kind]
  cases k with
  | hsem =>
      exact (Reloads.tableOf _).bind fun t => .stored (fun m => by simp [overlay])
        fun _ _ _ => List.mem_append_right _ (List.mem_singleton_self _)
  | atta | xtvm | trop | xvtp | cftp | pmtl | hsmc | xtvc | ecfc | tamc | hpsc =>
      exact (Reloads.tableOf _).bind fun t => .stored (fun m => by simp [overlay]) fun _ led => led.concat rfl _
  | d3dr | xtrv =>
      exact (Reloads.readChunk _).bind fun b => (Reloads.layoutFor _).bind fun s => (Reloads.attempt _).bind fun t =>
        .stored (fun m => by simp [overlay]) fun _ led => led.concat rfl _
  | dner =>
      exact Reloads.get (fun _ _ _ => rfl) fun p => (Reloads.readParts _ _).bind fun parts =>
        .stored (fun m => by simp [overlay]) fun _ led => led.concat rfl _
  | txan =>
      exact (Reloads.readChunk _).bind fun b => .stored (fun m => by simp [overlay]) fun _ led => led.concat rfl _
  | reih | manb | wolg | ecaf | hprm | sems | xtvs | cafs | egde =>
      intro m w a m' w' _ run
      cases run

def kinds (stream : Stream) : List Kind :=
  match Walk.openFile stream with
  | .error _ => []
  | .ok walk =>
    let noted : Model × List Head := ({}, [])
    kindsOf ((Walk.forEach (Walk.noting loadChunk)).fill (noted, walk)).2.1.2

theorem follows_loadChunk (old : Model) (h : Head) : Walk.Follows
    (fun noted m => Led noted.1 (kindsOf noted.2) ∧ m = overlay old noted.1 (kindsOf noted.2))
    (Walk.noting loadChunk h) (loadChunk h) := by
  rintro ⟨m, heads⟩ _ w ⟨n, heads'⟩ w' ⟨led, rfl⟩ run
  rcases step : (loadChunk h).fill (m, w) with ⟨r, n', v⟩
  rw [Walk.noting_fill heads step] at run
  cases run
  cases kind : Kind.ofFourcc? h.fourcc with
  | none =>
      unfold loadChunk at step
      simp only [kind] at step
      cases step
  | some k =>
      obtain ⟨led', again⟩ := reloads_loadChunk old (kindsOf heads) kind m w () n w' led step
      rw [← kindsOf_concat kind] at led' again
      exact ⟨_, again, led', rfl⟩

theorem overlay_empty (old : Model) : overlay old {} [] = old := by
  simp [overlay]

/-- A file that can be loaded into an empty model can be loaded into any, and lays its model over the old one. -/
theorem load_overlay {stream : Stream} {new : Model} (loaded : load stream {} = (.ok (), new)) (old : Model) :
    load stream old = (.ok (), overlay old new (kinds stream)) := by
  unfold load kinds at *
  cases opened : Walk.openFile stream with
  | error f =>
      simp only [opened] at loaded
      cases loaded
  | ok walk =>
      simp only [opened] at loaded ⊢
      rcases run : (Walk.forEach loadChunk).fill (({} : Model), walk) with ⟨r, m, w⟩
      rw [run] at loaded
      cases loaded
      -- From the plain load to one that notes the chunks, and from there to the load into the old model.
      obtain ⟨⟨_, heads⟩, noted, rfl⟩ :=
        Walk.Follows.forEach (Walk.follows_noting loadChunk) {} ({}, []) walk m w rfl run
      have start : Led ({} : Model) (kindsOf []) ∧ old = overlay old {} (kindsOf []) :=
        ⟨fun some => absurd rfl some, (overlay_empty old).symm⟩
      obtain ⟨_, again, _, rfl⟩ :=
        Walk.Follows.forEach (follows_loadChunk old) ({}, []) old walk _ w start noted
      rw [again, noted]

/-- The model holds nothing of the kinds that were not met, and no collision tables. -/
structure Spare (old : Model) (met : List Kind) : Prop where
  hsem : .hsem ∉ met → old.hsem = none
  atta : .atta ∉ met → old.atta = []
  xtvm : .xtvm ∉ met → old.xtvm = []
  trop : .trop ∉ met → old.trop = []
  xvtp : .xvtp ∉ met → old.xvtp = []
  cftp : .cftp ∉ met → old.cftp = []
  d3dr : .d3dr ∉ met → old.d3dr = []
  dner : .dner ∉ met → old.dner = []
  xtrv : .xtrv ∉ met → old.xtrv = []
  pmtl : .pmtl ∉ met → old.pmtl = []
  hsmc : .hsmc ∉ met → old.hsmc = []
  xtvc : old.xtvc = []
  ecfc : old.ecfc = []
  tamc : old.tamc = []
  hpsc : old.hpsc = []
  txan : .txan ∉ met → old.txan = none

theorem overlay_eq_iff (old new : Model) (met : List Kind) :
    overlay old new met = overlay {} new met ↔ Spare old met := by
  have table {α : Type} {c : Prop} [Decidable c] {a b b' : α} :
      (if c then a else b) = (if c then a else b') ↔ (¬c → b = b') := by
    split <;> simp [*]
  simp only [overlay, mk.injEq, table, List.nil_append, List.append_left_eq_self]
  exact ⟨fun ⟨h₁, h₂, h₃, h₄, h₅, h₆, h₇, h₈, h₉, h₁₀, h₁₁, h₁₂, h₁₃, h₁₄, h₁₅, h₁₆⟩ =>
      ⟨h₁, h₂, h₃, h₄, h₅, h₆, h₇, h₈, h₉, h₁₀, h₁₁, h₁₂, h₁₃, h₁₄, h₁₅, h₁₆⟩,
    fun ⟨h₁, h₂, h₃, h₄, h₅, h₆, h₇, h₈, h₉, h₁₀, h₁₁, h₁₂, h₁₃, h₁₄, h₁₅, h₁₆⟩ =>
      ⟨h₁, h₂, h₃, h₄, h₅, h₆, h₇, h₈, h₉, h₁₀, h₁₁, h₁₂, h₁₃, h₁₄, h₁₅, h₁₆⟩⟩

/-- Loading does not show what the model held exactly when nothing of it could remain. -/
theorem load_eq_iff {stream : Stream} {new : Model} (loaded : load stream {} = (.ok (), new)) (old : Model) :
    load stream old = (.ok (), new) ↔ Spare old (kinds stream) := by
  have fresh : overlay {} new (kinds stream) = new := (Prod.mk.inj ((load_overlay loaded {}).symm.trans loaded)).2
  rw [load_overlay loaded old, Prod.mk.injEq, ← overlay_eq_iff old new, fresh]
  exact ⟨And.right, fun same => ⟨rfl, same⟩⟩

end GameData.Mesh.Model
