import GameData.Proofs.Bytes.Blocks
import GameData.Proofs.Bytes.Field
import GameData.Table.Layout

/-!
Records and their bytes.

A record without texts holds all the bytes it was read from, and a table of such records holds the whole string. A text
does not, since the zero bytes at its end are not kept. In the other direction a record is read back from its bytes
when its numbers lie in the ranges of their fields and its texts fit and end with no zero byte.
-/
namespace GameData.Table.Shape

mutual

def plain : Shape → Bool
  | .field _ => true
  | .text _ => false
  | .many _ s => s.plain
  | .group parts => plains parts

def plains : List Shape → Bool
  | [] => true
  | s :: ss => s.plain && plains ss

end

theorem flatten_slices (b : Bytes) (n count : Nat) :
    ((List.range count).map fun i => (b.drop (i * n)).take n).flatten = b.take (count * n) := by
  induction count with
  | zero => rw [Nat.zero_mul, List.take_zero, List.range_zero, List.map_nil, List.flatten_nil]
  | succ count ih =>
      rw [List.range_succ, List.map_append, List.flatten_append, ih, Nat.succ_mul, List.take_add]
      simp only [List.map_cons, List.map_nil, List.flatten_cons, List.flatten_nil, List.append_nil]

theorem encode_decode_field (f : Field) {b : Bytes} (enough : f.width ≤ b.length) :
    (Shape.field f).encode ((Shape.field f).decode b) = b.take f.width := by
  have length : (b.take f.width).length = f.width := by
    rw [List.length_take]
    omega
  cases f
  case f32 => exact Single.toBytes_ofBytes length
  all_goals exact Field.ofInt_unpackInt length

mutual

/-- The bytes of a record are those that it was read from. -/
theorem encode_decode (s : Shape) {b : Bytes} (known : s.plain = true) (enough : s.size ≤ b.length) :
    s.encode (s.decode b) = b.take s.size := by
  cases s with
  | field f => exact encode_decode_field f enough
  | text n => cases known
  | many count s =>
      rw [size] at enough
      rw [size, ← flatten_slices, decode, encode]
      refine congrArg List.flatten (List.map_congr_left fun i mem => ?_)
      have before := List.mem_range.mp mem
      have room : i * s.size + s.size ≤ count * s.size := by
        rw [← Nat.succ_mul]
        exact Nat.mul_le_mul_right _ before
      rw [List.getD_eq_getElem?_getD, List.getElem?_map, List.getElem?_range before]
      exact encode_decode s known (by rw [List.length_drop]; omega)
  | group parts => exact encodeParts_decodeParts parts known enough

theorem encodeParts_decodeParts (parts : List Shape) {b : Bytes} (known : plains parts = true)
    (enough : sizes parts ≤ b.length) : encodeParts parts (decodeParts parts b) = b.take (sizes parts) := by
  cases parts with
  | nil => rfl
  | cons s ss =>
      obtain ⟨first, others⟩ := (Bool.and_eq_true _ _).mp known
      rw [sizes] at enough
      have rest := encodeParts_decodeParts ss (b := b.drop s.size) others (by rw [List.length_drop]; omega)
      rw [sizes, List.take_add, decodeParts, encodeParts, rest, encode_decode s first (by omega)]

end

/-- A table holds the bytes it was cut from. -/
theorem flatten_encode_table {s : Shape} (known : s.plain = true) (positive : 0 < s.size) {b : Bytes} {rows : List Datum}
    (cut : s.table b = .ok rows) : (rows.map s.encode).flatten = b := by
  unfold table at cut
  split at cut
  case isTrue whole =>
    cases cut
    have same : ∀ c ∈ Bytes.chunks s.size b, (s.encode ∘ s.decode) c = id c := by
      intro c mem
      have length := Bytes.length_of_mem_chunks whole mem
      rw [Function.comp_apply, encode_decode s known (Nat.le_of_eq length.symm),
        List.take_of_length_le (Nat.le_of_eq length), id]
    rw [List.map_map, List.map_congr_left same, List.map_id, Bytes.flatten_chunks positive]
  case isFalse => cases cut

section Reading

theorem trimZeros_append_zeros (b : Bytes) (n : Nat) : Bytes.trimZeros (b ++ Bytes.zeros n) = Bytes.trimZeros b := by
  induction n with
  | zero => rw [Bytes.zeros, List.replicate_zero, List.append_nil]
  | succ n ih =>
      rw [← ih]
      simp [Bytes.trimZeros, Bytes.zeros, List.replicate_succ]

theorem encode_many_succ (n : Nat) (s : Shape) (d : Datum) (items : List Datum) :
    (Shape.many (n + 1) s).encode (.list (d :: items)) = s.encode d ++ (Shape.many n s).encode (.list items) := by
  simp only [encode, List.range_succ_eq_map, List.map_cons, List.map_map, List.flatten_cons, List.getD_cons_zero]
  rfl

theorem decode_many_succ (n : Nat) (s : Shape) (b : Bytes) : (Shape.many (n + 1) s).decode b =
    .list (s.decode b :: ((Shape.many n s).decode (b.drop s.size)).items) := by
  simp only [decode, Datum.items, List.range_succ_eq_map, List.map_cons, List.map_map, Nat.zero_mul, List.drop_zero]
  refine congrArg (fun rest => Datum.list (s.decode b :: rest)) (List.map_congr_left ?_)
  intro i _
  rw [Function.comp_apply, List.drop_drop, Nat.succ_mul, Nat.add_comm]

/-- The contents that a record of a shape can have. -/
inductive Holds : Shape → Datum → Prop
  | real (x : Single) : Holds (.field .f32) (.real x)
  | int {f : Field} {n : Int} (integer : f ≠ .f32) (low : f.least ≤ n) (high : n < f.limit) : Holds (.field f) (.int n)
  | text {n : Nat} {b : Bytes} (fits : b.length ≤ n) (trimmed : b.trimZeros = b) : Holds (.text n) (.text b)
  | manyZero (s : Shape) : Holds (.many 0 s) (.list [])
  | manySucc {n : Nat} {s : Shape} {d : Datum} {items : List Datum} (first : Holds s d)
      (others : Holds (.many n s) (.list items)) : Holds (.many (n + 1) s) (.list (d :: items))
  | groupNil : Holds (.group []) (.list [])
  | groupCons {s : Shape} {parts : List Shape} {d : Datum} {items : List Datum} (first : Holds s d)
      (others : Holds (.group parts) (.list items)) : Holds (.group (s :: parts)) (.list (d :: items))

namespace Holds

variable {s : Shape} {d : Datum} (holds : s.Holds d)
include holds

theorem length_encode : (s.encode d).length = s.size := by
  induction holds with
  | real x => exact Bytes.length_toLE 4 _
  | @int f n integer low high =>
      cases f with
      | f32 => exact absurd rfl integer
      | _ => exact Bytes.length_ofInt _ n
  | @text n b fits trimmed =>
      rw [encode, size, Bytes.zeros, List.length_append, List.length_replicate]
      omega
  | manyZero s => exact (Nat.zero_mul s.size).symm
  | manySucc first others ihFirst ihOthers =>
      rw [size] at ihOthers
      rw [encode_many_succ, List.length_append, ihFirst, ihOthers, size, Nat.succ_mul, Nat.add_comm]
  | groupNil => rfl
  | groupCons first others ihFirst ihOthers =>
      exact List.length_append.trans (congr (congrArg Nat.add ihFirst) ihOthers)

theorem decode_encode (rest : Bytes) : s.decode (s.encode d ++ rest) = d := by
  induction holds generalizing rest with
  | real x =>
      have length : x.toBytes.length = 4 := Bytes.length_toLE 4 _
      rw [encode, decode, List.take_left' length, Single.ofBytes_toBytes]
  | @int f n integer low high =>
      have read : f.unpackInt ((Bytes.ofInt f.width n ++ rest).take f.width) = n := by
        rw [List.take_left' (Bytes.length_ofInt _ n), Field.unpackInt_ofInt low high]
      cases f with
      | f32 => exact absurd rfl integer
      | _ => exact congrArg Datum.int read
  | @text n b fits trimmed =>
      have length : (b ++ Bytes.zeros (n - b.length)).length = n := by
        rw [Bytes.zeros, List.length_append, List.length_replicate]
        omega
      rw [encode, decode, List.take_left' length, trimZeros_append_zeros, trimmed]
  | manyZero s => rfl
  | manySucc first others ihFirst ihOthers =>
      rw [encode_many_succ, List.append_assoc, decode_many_succ, ihFirst, List.drop_left' first.length_encode, ihOthers]
      rfl
  | groupNil => rfl
  | @groupCons s parts d items first others ihFirst ihOthers =>
      have later : decodeParts parts ((Shape.group parts).encode (.list items) ++ rest) = items :=
        Datum.list.inj (ihOthers rest)
      change Datum.list (decodeParts (s :: parts) (s.encode d ++ (Shape.group parts).encode (.list items) ++ rest)) = _
      rw [List.append_assoc, decodeParts, ihFirst, List.drop_left' first.length_encode, later]

end Holds

/-- A table is read back from the bytes of its records. -/
theorem table_encode {s : Shape} (positive : 0 < s.size) {rows : List Datum} (holds : ∀ d ∈ rows, s.Holds d) :
    s.table (rows.map s.encode).flatten = .ok rows := by
  have size : ∀ c ∈ rows.map s.encode, c.length = s.size := by
    intro c mem
    obtain ⟨d, inside, rfl⟩ := List.mem_map.mp mem
    exact (holds d inside).length_encode
  have back : ∀ d ∈ rows, (s.decode ∘ s.encode) d = id d := by
    intro d mem
    have read := (holds d mem).decode_encode []
    rwa [List.append_nil] at read
  rw [table, Bytes.chunks_flatten positive size, if_pos, List.map_map, List.map_congr_left back, List.map_id]
  rw [Bytes.length_flatten_blocks size, Nat.mul_mod_right]

end Reading

theorem table_nil (s : Shape) : s.table [] = .ok [] := by
  rw [table, if_pos (by rw [List.length_nil, Nat.zero_mod]), Bytes.chunks, dif_neg (fun more => more.2 rfl)]
  rfl

theorem ne_tooDeep_of_table {s : Shape} {b : Bytes} {f : Fault} (cut : s.table b = .error f) : f ≠ .tooDeep := by
  unfold table at cut
  split at cut
  case isTrue => cases cut
  case isFalse =>
    cases cut
    decide

end GameData.Table.Shape
