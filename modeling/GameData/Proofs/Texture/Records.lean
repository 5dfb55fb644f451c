import GameData.Texture.Terrain
import GameData.Proofs.Bytes.Blocks
import GameData.Proofs.Bytes.Words

/-!
Records with named fields, written and read back.

A written record consists of one piece for each field of its layout, in their order. A field is found again at the
size of the fields before it, and a record whose values are of the kinds of their fields is read back as it was.
-/
namespace GameData.Texture

namespace Slot

/-- The values that are read from a field: four bytes, or a whole number. -/
def Takes : Slot → Value → Prop
  | .mark, .blob b => b.length = 4
  | .number f, .int _ => f ≠ .f32
  | _, _ => False

theorem of_encode {s : Slot} {v : Value} {b : Bytes} (takes : s.Takes v) (h : s.encode v = .ok b) :
    b.length = s.width ∧ s.decode b = v := by
  cases s with
  | mark =>
      cases v with
      | blob c =>
          have length : c.length = 4 := takes
          cases h
          rw [decode, List.take_left' length]
          exact ⟨length, rfl⟩
      | _ => cases takes
  | number f =>
      cases v with
      | int n =>
          have integer : f ≠ .f32 := takes
          rw [encode, Field.pack_int integer] at h
          obtain ⟨⟨low, high⟩, rfl⟩ := Field.packInt_inv h
          rw [decode, Field.unpack_int integer, Field.unpackInt_ofInt low high]
          exact ⟨Bytes.length_ofInt f.width n, rfl⟩
      | _ => cases takes

end Slot

namespace Layout

theorem foldl_width (l : Layout) (n : Nat) : l.foldl (fun n (_, s) => n + s.width) n = n + size l := by
  induction l generalizing n with
  | nil => rfl
  | cons p l ih =>
      rw [size, List.foldl_cons, List.foldl_cons, ih, ih (0 + p.2.width), Nat.zero_add, Nat.add_assoc]

theorem size_cons (p : String × Slot) (l : Layout) : size (p :: l) = p.2.width + size l := by
  rw [size, List.foldl_cons, foldl_width]
  exact congrArg (· + size l) (Nat.zero_add p.2.width)

def arrange (l : Layout) (fields : Fields) : Fields := l.map fun p => (p.1, (fields.lookup p.1).getD .null)

theorem arrange_cons (p : String × Slot) (l : Layout) (fields : Fields) :
    arrange (p :: l) fields = (p.1, (fields.lookup p.1).getD .null) :: arrange l fields := rfl

/-- The fields are those of a layout in its order, with values of their kinds. -/
structure Fits (l : Layout) (fields : Fields) : Prop where
  arranged : l.arrange fields = fields
  takes : ∀ p ∈ l, ∀ v, fields.lookup p.1 = some v → p.2.Takes v

/-- The bytes of a record: a piece for each field, with a value of its kind. -/
inductive Written (fields : Fields) : Layout → Bytes → Prop
  | nil : Written fields [] []
  | cons {name : String} {s : Slot} {v : Value} {piece : Bytes} {l : Layout} {rest : Bytes}
      (value : fields.lookup name = some v) (takes : s.Takes v) (encoded : s.encode v = .ok piece)
      (others : Written fields l rest) : Written fields ((name, s) :: l) (piece ++ rest)

theorem Fits.written {l : Layout} {owner : String} {fields : Fields} {b : Bytes} (fits : l.Fits fields)
    (h : l.write owner fields = .ok b) : Written fields l b := by
  have takes := fits.takes
  obtain ⟨values, demanded, encoding⟩ := bind_eq_ok.mp h
  obtain ⟨pieces, encoded, joined⟩ := bind_eq_ok.mp encoding
  cases joined
  clear h encoding fits
  induction l generalizing values pieces with
  | nil =>
      cases demanded
      cases encoded
      exact .nil
  | cons p l ih =>
      obtain ⟨_, later, found, others, rfl⟩ := mapM_cons_eq_ok.mp demanded
      obtain ⟨v, present, rfl⟩ := map_eq_ok.mp found
      obtain ⟨piece, rest, packed, remaining, rfl⟩ := mapM_cons_eq_ok.mp encoded
      obtain ⟨first, following⟩ := List.forall_mem_cons.mp takes
      have value := demand_eq_ok.mp present
      exact .cons value (first v value) packed (ih following later others rest remaining)

namespace Written

variable {fields : Fields} {l : Layout} {b : Bytes} (h : Written fields l b)
include h

theorem length : b.length = l.size := by
  induction h with
  | nil => rfl
  | cons value takes encoded others ih => rw [List.length_append, ih, (Slot.of_encode takes encoded).1, size_cons]

theorem decode : l.decode b = l.arrange fields := by
  induction h with
  | nil => rfl
  | cons value takes encoded others ih =>
      obtain ⟨width, read⟩ := Slot.of_encode takes encoded
      rw [Layout.decode, List.take_left' width, List.drop_left' width, ih, read, arrange_cons, value, Option.getD_some]

/-- A field stands behind the fields in front of it. -/
theorem slice_field {k : Nat} {name : String} {s : Slot} {v : Value} (field : l[k]? = some (name, s))
    (value : fields.lookup name = some v) : s.encode v = .ok (b.slice (size (l.take k)) s.width) := by
  induction h generalizing k with
  | nil => cases field
  | cons present takes encoded others ih =>
      have width := (Slot.of_encode takes encoded).1
      cases k with
      | zero =>
          cases field
          cases value.symm.trans present
          rw [encoded, List.take_zero, Bytes.slice, show size [] = 0 from rfl, List.drop_zero, List.take_left' width]
      | succ k =>
          rw [ih field, List.take_succ_cons, size_cons, Bytes.slice, Bytes.slice, ← List.drop_drop,
            List.drop_left' width]

theorem u32_field {k n : Nat} {name : String} (field : l[k]? = some (name, .number .u32))
    (value : fields.lookup name = some (.int n)) : b.u32 (size (l.take k)) = n := by
  have packed := h.slice_field field value
  rw [Slot.encode, Field.pack_int (by decide)] at packed
  obtain ⟨⟨low, high⟩, bytes⟩ := Field.packInt_inv packed
  have read := Field.unpackInt_ofInt low high
  rw [← bytes] at read
  exact Int.ofNat.inj read

end Written

theorem read_append {l : Layout} {record : Bytes} (length : record.length = l.size) (rest : Bytes) :
    l.read (record ++ rest) = .ok (l.decode record, rest) := by
  rw [read, List.take_left' length, List.drop_left' length]
  exact bind_eq_ok.mpr ⟨record, exactly_eq_ok.mpr ⟨length, rfl⟩, rfl⟩

end Layout

end GameData.Texture
