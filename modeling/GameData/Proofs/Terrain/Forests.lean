import GameData.Proofs.Table.Records
import GameData.Proofs.Terrain.MapFile
import GameData.Proofs.Text.Utf8
import GameData.Terrain.Forest

/-!
Forests written and read back.

The size in front of the version counts characters, while the version is written and read as bytes. A version with a
character that takes several bytes is therefore cut short, wherever the cut falls, and what was cut off is taken for
trees. Main statement: a forest is read back exactly when its version is ASCII.
-/
namespace GameData.Terrain.Forest

open Table

theorem save_eq {f : Forest} (short : (Utf8.encode f.version).length < 2 ^ 32) : f.save =
    .ok (Bytes.ofInt 4 f.version.length ++ (Utf8.encode f.version ++ (f.trees.map tree.encode).flatten)) := by
  have low : Field.u32.least ≤ f.version.length := Int.natCast_nonneg _
  have high : (f.version.length : Int) < Field.u32.limit := by
    have := Utf8.length_le_encode f.version
    change (f.version.length : Int) < 4294967296
    omega
  rw [save, Field.packInt_eq_ok low high, ← List.append_assoc]
  rfl

/-- A file is read as a version of as many bytes as its first word says, and trees. -/
theorem load_eq_ok {n : Nat} (small : n < 2 ^ 32) {body : Bytes} {f : Forest} :
    load (Bytes.ofInt 4 n ++ body) = .ok f ↔
      Utf8.decode (body.take n) = .ok f.version ∧ tree.table (body.drop n) = .ok f.trees := by
  have length := Bytes.length_ofInt 4 n
  have size : Bytes.ofLE (Bytes.ofInt 4 n) = n := Bytes.ofLE_ofInt_ofNat small
  have head : Bytes.exactly 4 ((Bytes.ofInt 4 n ++ body).take 4) = .ok (Bytes.ofInt 4 n) := by
    rw [List.take_left' length]
    exact exactly_eq_ok.mpr ⟨length, rfl⟩
  rw [load, head, ok_bind]
  simp only [size, ← List.drop_drop, List.drop_left' length]
  cases Utf8.decode (body.take n) with
  | error m =>
      constructor
      · intro h
        cases h
      · rintro ⟨h, _⟩
        cases h
  | ok version =>
      simp only [ok_bind]
      constructor
      · intro h
        obtain ⟨trees, cut, made⟩ := bind_eq_ok.mp h
        cases made
        exact ⟨rfl, cut⟩
      · rintro ⟨same, cut⟩
        cases same
        exact bind_eq_ok.mpr ⟨f.trees, cut, rfl⟩

/-- A forest whose trees are records of numbers can be written, and is read back from what was written exactly when its
version is ASCII. -/
theorem load_save_iff_ascii (f : Forest) (short : (Utf8.encode f.version).length < 2 ^ 32)
    (records : ∀ t ∈ f.trees, tree.Holds t) :
    ∃ file, f.save = .ok file ∧ (load file = .ok f ↔ Utf8.IsAscii f.version) := by
  refine ⟨_, save_eq short, ?_⟩
  have atLeast := Utf8.length_le_encode f.version
  rw [load_eq_ok (Nat.lt_of_le_of_lt atLeast short), ← Utf8.length_encode_eq_iff]
  constructor
  · rintro ⟨decoded, -⟩
    -- the version was spelled with no more bytes than it has characters
    have spelled := congrArg List.length (Utf8.encode_of_decode decoded)
    rw [List.length_take] at spelled
    omega
  · intro ascii
    rw [List.take_left' ascii, List.drop_left' ascii]
    exact ⟨Utf8.decode_encode f.version, Shape.table_encode (by decide) records⟩

section Samples

/-- A tree with a NaN and a negative zero in its position. -/
def treeSample : Datum :=
  .list [.list [.real ⟨0x7fc00001⟩, .real ⟨0x80000000⟩, .real ⟨0x3f800000⟩],
    .list [.real ⟨0⟩, .real ⟨0⟩, .real ⟨0⟩], .list [.real ⟨0⟩, .real ⟨0⟩, .real ⟨0⟩], .int 0xffffffff]

theorem holds_treeSample : tree.Holds treeSample := by
  have vector (x y z : Single) : vector.Holds (.list [.real x, .real y, .real z]) :=
    .groupCons (.real x) (.groupCons (.real y) (.groupCons (.real z) .groupNil))
  exact .groupCons (vector _ _ _) (.groupCons (vector _ _ _) (.groupCons (vector _ _ _)
    (.groupCons (.int (by decide) (by decide) (by decide)) .groupNil)))

def plainSample : Forest := ⟨"v1.0", [treeSample]⟩

/-- Forty characters of two bytes each: half of the version is read as one more tree. -/
def shiftedSample : Forest := ⟨String.ofList (List.replicate 40 'é'), [treeSample]⟩

theorem load_save_iff_ascii_samples :
    (∃ file, plainSample.save = .ok file ∧ load file = .ok plainSample) ∧
    ∃ file, shiftedSample.save = .ok file ∧ (load file).isOk = true ∧ load file ≠ .ok shiftedSample := by
  have plainRecords : ∀ t ∈ plainSample.trees, tree.Holds t := List.forall_mem_singleton.mpr holds_treeSample
  have shiftedRecords : ∀ t ∈ shiftedSample.trees, tree.Holds t := List.forall_mem_singleton.mpr holds_treeSample
  have foreign : ¬ Utf8.IsAscii shiftedSample.version := by decide +kernel
  have read : (shiftedSample.save.bind load).isOk = true := by decide +kernel
  obtain ⟨plainFile, plainSaved, plain⟩ := load_save_iff_ascii plainSample (by decide +kernel) plainRecords
  obtain ⟨file, saved, shifted⟩ := load_save_iff_ascii shiftedSample (by decide +kernel) shiftedRecords
  rw [saved] at read
  refine ⟨⟨plainFile, plainSaved, plain.mpr (by decide +kernel)⟩, file, saved, read, ?_⟩
  intro same
  exact foreign (shifted.mp same)

end Samples

end GameData.Terrain.Forest
