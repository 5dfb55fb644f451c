import Mathlib
import GameData.Terrain.Controls
import GameData.Proofs.Mesh.Reload
import GameData.Proofs.Script.Canonical
import GameData.Proofs.Terrain.Commands
import GameData.Proofs.Terrain.Squares

/-!
Objects that are loaded twice.

A second load replaces what it sets and leaves the rest. Masks and control points are replaced as a whole, heights,
lights and commands are added to those there are, a program keeps the tail of edition seven, and a mesh keeps the
tables that the second file does not have. For each loader this says exactly when the second file could as well have
been loaded into a fresh object.
-/
namespace GameData

/-- Where both files can be loaded into a fresh object, loading one after the other leaves what the second one alone
would leave, exactly under the condition on what the two leave. -/
def ForgetsWhen {σ : Type} (load : Bytes → σ → Except Fault Unit × σ) (fresh : σ) (f g : Bytes)
    (condition : σ → σ → Prop) : Prop :=
  ∀ s t, load f fresh = (.ok (), s) → load g fresh = (.ok (), t) → (load g s = (.ok (), t) ↔ condition s t)

theorem ForgetsWhen.of_adds {σ : Type} {load : Bytes → List σ → Except Fault Unit × List σ} {f g : Bytes}
    {condition : Prop} (adds : ∀ {new}, load g [] = (.ok (), new) → ∀ old, load g old = (.ok (), old ++ new))
    (none : ∀ {s}, load f [] = (.ok (), s) → (s = [] ↔ condition)) : ForgetsWhen load [] f g fun _ _ => condition := by
  intro s t first second
  rw [adds second, ← none first, Prod.mk.injEq, List.append_left_eq_self]
  exact ⟨And.right, fun empty => ⟨rfl, empty⟩⟩

namespace Terrain

theorem Masks.load_of_load {data : Bytes} {old new : Option (List Square)} (h : load data old = (.ok (), new))
    (other : Option (List Square)) : load data other = (.ok (), new) := by
  unfold load at *
  split at h
  case h_1 => cases h
  case h_2 => exact h

theorem Controls.load_of_load {data : Bytes} {old new : Option (List Row)} (h : load data old = (.ok (), new))
    (other : Option (List Row)) : load data other = (.ok (), new) := by
  unfold load at *
  split at h
  case h_1 => exact h
  case h_2 => cases h

theorem Heights.load_of_load {data : Bytes} {new : List Square} (h : load data [] = (.ok (), new))
    (old : List Square) : load data old = (.ok (), old ++ new) := by
  obtain ⟨words, added, table, run, rfl⟩ := load_eq_ok h
  simp only [load, table, run]
  rfl

theorem Heights.ne_nil_of_load {data : Bytes} {new : List Square} (h : load data [] = (.ok (), new)) : new ≠ [] := by
  obtain ⟨words, added, table, run, rfl⟩ := load_eq_ok h
  obtain ⟨length, -⟩ := readSquares_eq_ok run
  rintro rfl
  cases length

theorem Lights.load_of_load {data : Bytes} {new : List LightSquare} (h : load data [] = (.ok (), new))
    (old : List LightSquare) : load data old = (.ok (), old ++ new) := by
  obtain ⟨outcome, rfl⟩ := Prod.mk.inj h
  exact Prod.ext outcome rfl

theorem Lights.eq_nil_iff {data : Bytes} {new : List LightSquare} (h : load data [] = (.ok (), new)) :
    new = [] ↔ data = [] := by
  obtain ⟨outcome, rfl⟩ := Prod.mk.inj h
  rcases readAll_inv (Prod.ext rfl outcome) with ⟨none, squares⟩ | ⟨long, side, more, _, squares, _⟩
  · exact ⟨fun _ => none, fun _ => squares⟩
  · constructor
    · intro none
      exact absurd (squares.symm.trans none) (List.cons_ne_nil _ _)
    · rintro rfl
      exact absurd long (by decide)

theorem Command.load_of_load {data : Bytes} {new : List Command} (h : load data [] = (.ok (), new))
    (old : List Command) : load data old = (.ok (), old ++ new) := by
  obtain ⟨outcome, rfl⟩ := Prod.mk.inj h
  exact Prod.ext outcome rfl

theorem Command.eq_nil_iff {data : Bytes} {new : List Command} (h : load data [] = (.ok (), new)) :
    new = [] ↔ data = [] := by
  obtain ⟨ks, rfl, rfl⟩ := load_eq_ok h
  have length := length_le_fileOf ks
  rw [List.nil_append, List.map_eq_nil_iff]
  constructor
  · rintro rfl
    rfl
  · intro none
    rw [none] at length
    exact List.eq_nil_of_length_eq_zero (Nat.le_zero.mp length)

end Terrain

namespace Script

/-- A program keeps its tail when a file of edition five is loaded after one of edition seven. -/
theorem Program.forgetsWhen_load (f g : Bytes) : ForgetsWhen (fun data p => (load data).fill p) {} f g fun p q =>
    ¬ (p.header.map Header.minorVersion = some 7 ∧ q.header.map Header.minorVersion = some 5) := by
  intro p q first second
  obtain ⟨e, s, reads, rfl⟩ := load_fill_eq_ok.mp first
  obtain ⟨e', s', reads', rfl⟩ := load_fill_eq_ok.mp second
  have again := reads'.load_fill (filled {} f e s)
  have old : (filled {} f e s).header.map Header.minorVersion = some e.number :=
    congrArg some (Header.checked_of_check reads.checked).minorVersion
  have new : (filled {} g e' s').header.map Header.minorVersion = some e'.number :=
    congrArg some (Header.checked_of_check reads'.checked).minorVersion
  simp only [again, old, new]
  cases e' with
  | seven => exact ⟨fun _ both => absurd both.2 (by decide), fun _ => rfl⟩
  | five =>
      cases e with
      | five => exact ⟨fun _ both => absurd both.1 (by decide), fun _ => rfl⟩
      | seven => exact ⟨fun same => (by cases congrArg (·.2.tail) same), fun other => absurd ⟨rfl, rfl⟩ other⟩

end Script

/-- When a file leaves the same as in a fresh object, for each of the seven loaders and any file before it: always for
masks and control points, never for heights, for lights and commands if the file before was empty, for programs unless
edition five follows edition seven, and for meshes if the model before held nothing that the file does not replace. -/
theorem reload_eq_fresh_iff (f g : Bytes) (kind : StreamKind) :
    ForgetsWhen Terrain.Masks.load none f g (fun _ _ => True) ∧
    ForgetsWhen Terrain.Controls.load none f g (fun _ _ => True) ∧
    ForgetsWhen Terrain.Heights.load [] f g (fun _ _ => False) ∧
    ForgetsWhen Terrain.Lights.load [] f g (fun _ _ => f = []) ∧
    ForgetsWhen Terrain.Command.load [] f g (fun _ _ => f = []) ∧
    ForgetsWhen (fun data p => (Script.Program.load data).fill p) {} f g (fun p q =>
      ¬ (p.header.map Script.Header.minorVersion = some 7 ∧ q.header.map Script.Header.minorVersion = some 5)) ∧
    ForgetsWhen (fun data m => Mesh.Model.load { data, kind } m) {} f g (fun m _ =>
      m.Spare (Mesh.Model.kinds { data := g, kind })) := by
  refine ⟨fun s t _ second => ?_, fun s t _ second => ?_, ?_, ?_, ?_, Script.Program.forgetsWhen_load f g,
    fun s t _ second => Mesh.Model.load_eq_iff second s⟩
  · exact ⟨fun _ => trivial, fun _ => Terrain.Masks.load_of_load second s⟩
  · exact ⟨fun _ => trivial, fun _ => Terrain.Controls.load_of_load second s⟩
  · exact .of_adds Terrain.Heights.load_of_load fun first => iff_of_false (Terrain.Heights.ne_nil_of_load first) id
  · exact .of_adds Terrain.Lights.load_of_load Terrain.Lights.eq_nil_iff
  · exact .of_adds Terrain.Command.load_of_load Terrain.Command.eq_nil_iff

/-- Files that leave more in an object that was loaded before: a light map of one square, loaded twice, and a program of
edition five after one of edition seven. -/
theorem reload_ne_fresh :
    (Terrain.Lights.load [0, 0, 0, 0] [] = (.ok (), [⟨0, []⟩]) ∧
      Terrain.Lights.load [0, 0, 0, 0] [⟨0, []⟩] = (.ok (), [⟨0, []⟩, ⟨0, []⟩])) ∧
    ∃ p q r, (Script.Program.load Script.Program.sevenSample).fill {} = (.ok (), p) ∧
      (Script.Program.load Script.Program.fiveSample).fill {} = (.ok (), q) ∧
      (Script.Program.load Script.Program.fiveSample).fill p = (.ok (), r) ∧ q.tail = none ∧ r.tail = some [1, 2] := by
  have seven := Script.Program.reads_sevenSample.load_fill
  have five := Script.Program.reads_fiveSample.load_fill
  exact ⟨⟨by decide +kernel, by decide +kernel⟩, _, _, _, seven {}, five {}, five _, rfl, rfl⟩

end GameData
