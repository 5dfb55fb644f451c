import GameData.Proofs.Bytes.Field

/-!
Runs of words.

A run of packed words is read back word by word, and a run of whole words is written again from the words in it.
-/
namespace GameData

namespace Bytes

theorem words_append {w : Nat} (pos : 0 < w) {first : Bytes} (length : first.length = w) (rest : Bytes) :
    words w (first ++ rest) = ofLE first :: words w rest := by
  rw [words, dif_pos ⟨pos, by rw [List.length_append]; omega⟩, List.take_left' length, List.drop_left' length]

theorem words_flatMap_ofInt {w : Nat} (pos : 0 < w) (ns : List Int) :
    words w (ns.flatMap (ofInt w)) = ns.map fun n => ofLE (ofInt w n) := by
  induction ns with
  | nil =>
      rw [words, dif_neg]
      · rfl
      · simp only [List.flatMap_nil, List.length_nil]
        omega
  | cons n ns ih => rw [List.flatMap_cons, words_append pos (length_ofInt w n), ih, List.map_cons]

theorem length_words {w : Nat} (pos : 0 < w) {b : Bytes} {n : Nat} (length : b.length = w * n) :
    (words w b).length = n := by
  induction n generalizing b with
  | zero =>
      rw [words, dif_neg (by omega)]
      rfl
  | succ n ih =>
      have enough : w ≤ b.length := by rw [length]; exact Nat.le_mul_of_pos_right w (Nat.succ_pos n)
      have rest : (b.drop w).length = w * n := by rw [List.length_drop, length, Nat.mul_succ, Nat.add_sub_cancel]
      rw [words, dif_pos ⟨pos, enough⟩, List.length_cons, ih rest]

/-- The words of a run one by one. -/
theorem words_eq_map_range {w : Nat} (pos : 0 < w) {b : Bytes} {n : Nat} (length : b.length = w * n) :
    words w b = (List.range n).map fun i => ofLE (slice b (w * i) w) := by
  induction n generalizing b with
  | zero =>
      rw [words, dif_neg (by omega)]
      rfl
  | succ n ih =>
      have enough : w ≤ b.length := by rw [length]; exact Nat.le_mul_of_pos_right w (Nat.succ_pos n)
      have rest : (b.drop w).length = w * n := by rw [List.length_drop, length, Nat.mul_succ, Nat.add_sub_cancel]
      rw [words, dif_pos ⟨pos, enough⟩, ih rest, List.range_succ_eq_map, List.map_cons, List.map_map]
      refine congrArg (_ :: ·) (List.map_congr_left fun i _ => ?_)
      rw [slice, List.drop_drop, Function.comp, slice, Nat.mul_succ, Nat.add_comm w]

theorem words_lt {w : Nat} {b : Bytes} {n : Nat} (mem : n ∈ words w b) : n < Nat.pow 256 w := by
  fun_induction words w b with
  | case1 b h ih =>
      rcases List.mem_cons.mp mem with rfl | later
      · have := ofLE_lt (b.take w)
        rwa [List.length_take, Nat.min_eq_left h.2] at this
      · exact ih later
  | case2 => cases mem

theorem length_flatMap_ofInt (w : Nat) (ns : List Int) : (ns.flatMap (ofInt w)).length = w * ns.length := by
  induction ns with
  | nil => rfl
  | cons n ns ih =>
      rw [List.flatMap_cons, List.length_append, length_ofInt, ih, List.length_cons, Nat.mul_succ]
      omega

theorem slice_flatMap_ofInt (w : Nat) {ns : List Int} {i : Nat} {n : Int} (word : ns[i]? = some n) :
    slice (ns.flatMap (ofInt w)) (w * i) w = ofInt w n := by
  induction ns generalizing i with
  | nil => cases word
  | cons m ns ih =>
      cases i with
      | zero =>
          cases word
          rw [slice, Nat.mul_zero, List.drop_zero, List.flatMap_cons, List.take_left' (length_ofInt w n)]
      | succ i =>
          rw [slice, Nat.mul_succ, Nat.add_comm, ← List.drop_drop, List.flatMap_cons,
            List.drop_left' (length_ofInt w m)]
          exact ih word

/-- A run of whole words is written again from the words in it. -/
theorem flatMap_ofInt_words {w : Nat} (pos : 0 < w) {b : Bytes} (whole : b.length % w = 0) :
    ((words w b).map Int.ofNat).flatMap (ofInt w) = b := by
  fun_induction words w b with
  | case1 b h ih =>
      have length : (b.take w).length = w := by rw [List.length_take, Nat.min_eq_left h.2]
      have first : ofInt w (Int.ofNat (ofLE (b.take w))) = b.take w := by
        have small := ofLE_lt (b.take w)
        have word := toLE_ofLE (b.take w)
        rw [length] at small word
        exact (ofInt_natCast w _).trans (by rw [Nat.mod_eq_of_lt small, word])
      have rest : (b.drop w).length % w = 0 := by
        rw [List.length_drop, ← Nat.mod_eq_sub_mod h.2]
        exact whole
      rw [List.map_cons, List.flatMap_cons, first, ih rest, List.take_append_drop]
  | case2 b h =>
      have short : b.length < w := Nat.not_le.mp fun long => h ⟨pos, long⟩
      rw [Nat.mod_eq_of_lt short] at whole
      rw [List.eq_nil_of_length_eq_zero whole]
      rfl

theorem flatMap_ofInt_signed_words {w : Nat} (pos : 0 < w) {b : Bytes} (whole : b.length % w = 0) :
    ((words w b).map (signed w)).flatMap (ofInt w) = b := by
  have each : (words w b).map (ofInt w ∘ signed w) = (words w b).map (ofInt w ∘ Int.ofNat) := by
    refine List.map_congr_left fun n mem => ?_
    have small := words_lt mem
    exact (ofInt_signed small).trans (((ofInt_natCast w n).trans (by rw [Nat.mod_eq_of_lt small])).symm)
  rw [List.flatMap_def, List.map_map, each, ← List.map_map, ← List.flatMap_def, flatMap_ofInt_words pos whole]

end Bytes

/-- Integers within the range of a field are packed one after another. -/
theorem Field.mapM_packInt {f : Field} {ns : List Int} (inside : ∀ n ∈ ns, f.least ≤ n ∧ n < f.limit) :
    (ns.mapM f.packInt).map List.flatten = .ok (ns.flatMap (Bytes.ofInt f.width)) := by
  rw [mapM_eq_ok_map fun n mem => packInt_eq_ok (inside n mem).1 (inside n mem).2]
  rfl

/-- The value with its truth values as the numbers one and zero, which an integer field takes them for. -/
def Value.plain : Value → Value
  | .bool b => .int (if b then 1 else 0)
  | v => v

namespace Field

theorem packInt_inv {f : Field} {i : Int} {b : Bytes} (h : f.packInt i = .ok b) :
    (f.least ≤ i ∧ i < f.limit) ∧ b = Bytes.ofInt f.width i := by
  unfold packInt at h
  split at h
  case isTrue inside =>
    cases h
    exact ⟨inside, rfl⟩
  case isFalse => split at h <;> cases h

theorem recordsOnly_packInt (f : Field) (i : Int) : RecordsOnly (f.packInt i) := by
  unfold packInt
  split
  · exact .ok _
  · split
    · rintro _ ⟨⟩
      exact ⟨_, rfl⟩
    · rintro _ ⟨⟩
      exact ⟨_, rfl⟩

variable {f : Field} (integer : f ≠ .f32)
include integer

theorem pack_plain (v : Value) : f.pack v.plain = f.pack v := by
  cases v with
  | bool b => cases f <;> first | exact absurd rfl integer | rfl
  | _ => rfl

theorem pack_inv {v : Value} {b : Bytes} (h : f.pack v = .ok b) :
    ∃ i, v.plain = .int i ∧ (f.least ≤ i ∧ i < f.limit) ∧ b = Bytes.ofInt f.width i := by
  rw [← pack_plain integer] at h
  cases v with
  | int i => exact ⟨i, rfl, packInt_inv ((pack_int integer i).symm.trans h)⟩
  | bool c => exact ⟨_, rfl, packInt_inv ((pack_int integer _).symm.trans h)⟩
  | _ => cases f <;> first | exact absurd rfl integer | cases h

theorem recordsOnly_pack (v : Value) : RecordsOnly (f.pack v) := by
  rw [← pack_plain integer]
  cases v with
  | int i => exact (pack_int integer i).symm ▸ f.recordsOnly_packInt i
  | bool c => exact (pack_int integer _).symm ▸ f.recordsOnly_packInt _
  | _ =>
      rintro e h
      cases f <;> first | exact absurd rfl integer | (cases h; exact ⟨_, rfl⟩)

/-- Packing a run succeeds on the stated number of integers of the field only, and writes them one after another. -/
theorem packMany_inv {count : Nat} {vs : List Value} {b : Bytes} (h : f.packMany count vs = .ok b) :
    ∃ ns : List Int, vs.map Value.plain = ns.map .int ∧ ns.length = count ∧
      (∀ n ∈ ns, f.least ≤ n ∧ n < f.limit) ∧ b = ns.flatMap (Bytes.ofInt f.width) := by
  unfold packMany at h
  split at h
  case isFalse => cases h
  case isTrue counted =>
    subst counted
    obtain ⟨pieces, packed, rfl⟩ := map_eq_ok.mp h
    clear h
    induction vs generalizing pieces with
    | nil =>
        cases packed
        exact ⟨[], rfl, rfl, List.forall_mem_nil _, rfl⟩
    | cons v vs ih =>
        obtain ⟨piece, rest, first, others, rfl⟩ := mapM_cons_eq_ok.mp packed
        obtain ⟨i, plain, inside, rfl⟩ := pack_inv integer first
        obtain ⟨ns, plains, length, insides, flat⟩ := ih rest others
        refine ⟨i :: ns, ?_, ?_, List.forall_mem_cons.mpr ⟨inside, insides⟩, ?_⟩
        · rw [List.map_cons, plain, plains, List.map_cons]
        · rw [List.length_cons, length, List.length_cons]
        · rw [List.flatten_cons, flat, List.flatMap_cons]

theorem packMany_ints {ns : List Int} {count : Nat} (counted : ns.length = count)
    (inside : ∀ n ∈ ns, f.least ≤ n ∧ n < f.limit) :
    f.packMany count (ns.map .int) = .ok (ns.flatMap (Bytes.ofInt f.width)) := by
  have packed : (ns.map Value.int).mapM f.pack = ns.mapM f.packInt := by
    rw [List.mapM_map]
    exact congrArg (fun pack => ns.mapM pack) (funext fun n => pack_int integer n)
  rw [packMany, List.length_map, if_pos counted, packed, mapM_packInt inside]

theorem recordsOnly_packMany (count : Nat) (vs : List Value) : RecordsOnly (f.packMany count vs) := by
  unfold packMany
  split
  · exact (RecordsOnly.mapM fun v _ => recordsOnly_pack integer v).map _
  · rintro _ ⟨⟩
    exact ⟨_, rfl⟩

end Field

end GameData
