import Mathlib
import GameData.Terrain.Controls
import GameData.Proofs.Bytes.Blocks
import GameData.Proofs.Terrain.Commands
import GameData.Proofs.Terrain.Squares

/-!
Terrain files that survive editing.

What is loaded from a file of squares, commands or control points is written as the same file, short squares at its end
included, and commands that can be written are loaded as they were.
-/
namespace GameData

namespace Terrain

namespace Controls

theorem writeRow_readRow {fs : List Field} {b : Bytes} (length : b.length = (fs.map Field.width).sum) :
    writeRow fs (readRow fs b) = b := by
  induction fs generalizing b with
  | nil => exact (List.length_eq_zero_iff.mp length).symm
  | cons f fs ih =>
      rw [List.map_cons, List.sum_cons] at length
      have head : (b.take f.width).length = f.width := by rw [List.length_take]; omega
      rw [readRow, writeRow, Field.ofInt_unpackInt head, ih (by rw [List.length_drop]; omega), List.take_append_drop]

theorem save_of_load {data : Bytes} {rows : Option (List Row)} (h : load data none = (.ok (), rows)) :
    save rows = .ok data := by
  unfold load decode at h
  split at h
  case h_2 => cases h
  case h_1 read accepted =>
    cases h
    split at accepted
    case isFalse => cases accepted
    case isTrue whole =>
      cases accepted
      have again : ((Bytes.chunks rowSize data).map (readRow columns)).map (writeRow columns) =
          Bytes.chunks rowSize data := by
        rw [List.map_map]
        refine (List.map_congr_left fun row mem => ?_).trans (List.map_id _)
        exact writeRow_readRow (Bytes.length_of_mem_chunks whole mem)
      have encoded : encode ((Bytes.chunks rowSize data).map (readRow columns)) = data := by
        rw [encode, again, Bytes.flatten_chunks (by decide)]
      exact congrArg Except.ok encoded

end Controls

/-- Loading into a fresh object and writing gives back the file that was loaded, for each of the four editing formats.
The other way round, writing commands fails because of a record or gives a file that is loaded as the same commands. -/
theorem terrain_files_survive (data : Bytes) (commands : List Command) (counted : ∀ c ∈ commands, c.Counted) :
    (∀ squares, Heights.load data [] = (.ok (), squares) → Heights.save squares = .ok data) ∧
    (∀ squares, Lights.load data [] = (.ok (), squares) → Lights.save squares = .ok data) ∧
    (∀ cs, Command.load data [] = (.ok (), cs) → Command.save cs = .ok data) ∧
    (∀ rows, Controls.load data none = (.ok (), rows) → Controls.save rows = .ok data) ∧
    ((∃ r, Command.save commands = .error (.record r)) ∨
      ∃ b, Command.save commands = .ok b ∧ Command.load b [] = (.ok (), commands.map Command.plain)) := by
  refine ⟨fun _ => Heights.save_of_load, fun _ => Lights.save_of_load, fun _ => Command.save_of_load,
    fun _ => Controls.save_of_load, ?_⟩
  cases saved : Command.save commands with
  | error f =>
      obtain ⟨r, rfl⟩ := Command.recordsOnly_save commands f saved
      exact .inl ⟨r, rfl⟩
  | ok b => exact .inr ⟨b, rfl, Command.load_of_save counted saved⟩

/-- A command with a group, a word and a truth value among its numbers. -/
def truthSample : Command where
  groupCount := .int 1
  label := .int 7
  firstCount := .bool true
  secondCount := .int 0
  groups := [[.int 1, .int 2, .bool true, .int 255]]
  first := [.int 5]
  second := []

theorem counted_truthSample : ∀ c ∈ [truthSample], c.Counted := by
  intro c mem n count
  cases List.mem_singleton.mp mem
  exact (Value.int.inj count).symm

theorem terrain_files_survive_samples :
    Heights.save (Heights.load (Bytes.zeros 3072) []).2 = .ok (Bytes.zeros 3072) ∧
    Lights.save [⟨3, [1, 2]⟩] = .ok [3, 0, 0, 0, 1, 2] ∧
    Controls.save (Controls.load (Bytes.zeros 64) none).2 = .ok (Bytes.zeros 64) ∧
    ∃ b, Command.save [truthSample] = .ok b ∧ Command.load b [] = (.ok (), [truthSample.plain]) := by
  have loaded {σ : Type} {p : Except Fault Unit × σ} (accepted : p.1 = .ok ()) : p = (.ok (), p.2) := by rw [← accepted]
  have survive := fun data => terrain_files_survive data [truthSample] counted_truthSample
  refine ⟨?_, ?_, ?_, ?_⟩
  · exact (survive _).1 _ (loaded (by decide +kernel))
  · exact (survive _).2.1 _ (by decide +kernel)
  · exact (survive _).2.2.2.1 _ (loaded (by decide +kernel))
  · rcases (survive []).2.2.2.2 with ⟨r, failed⟩ | written
    · have written : Command.save [truthSample] =
          .ok [1, 0, 7, 0, 1, 0, 0, 0, 1, 2, 1, 255, 5, 0, 0, 0] := by decide +kernel
      cases written.symm.trans failed
    · exact written

end Terrain

end GameData
