import GameData.Proofs.Bytes.Words
import GameData.Proofs.Script.Tiling

/-!
Instructions written and read back.

`Carries m v n` says that the instruction can carry the operand, in `n` bytes. What is decoded from a code segment
carries its operands in the bytes it was read from, and what carries its operands is decoded from its encoding.
-/
namespace GameData

namespace Script

theorem Edition.mnemonic?_code (e : Edition) (m : Mnemonic) : e.mnemonic? (e.code m) = some m := by
  cases e <;> cases m <;> rfl

theorem Edition.nodup_table (e : Edition) : e.table.Nodup := by
  cases e <;> decide

theorem Edition.code_of_mnemonic? {e : Edition} {b : UInt8} {m : Mnemonic} (h : e.mnemonic? b = some m) :
    e.code m = b := by
  obtain ⟨inside, found⟩ := List.getElem?_eq_some_iff.mp h
  rw [code, ← found, e.nodup_table.idxOf_getElem, UInt8.ofNat_toNat]

/-- The operand is one that the instruction can carry, and takes so many bytes. -/
inductive Carries : Mnemonic → Value → Nat → Prop
  | none {m : Mnemonic} (bare : m.field? = none) : Carries m .null 0
  | integer {m : Mnemonic} (f : Field) (i : Int) (field : m.field? = some f) (whole : f ≠ .f32) (single : m ≠ .call)
      (low : f.least ≤ i) (high : i < f.limit) : Carries m (.int i) f.width
  | real (x : Single) : Carries .pushf (.real x.widen) 4
  | call (targets : List Int) (count : (targets.length : Int) < Field.u32.limit)
      (inside : ∀ t ∈ targets, Field.i32.least ≤ t ∧ t < Field.i32.limit) :
      Carries .call (.list (targets.map .int)) (4 + 4 * targets.length)

namespace Opcode

def encodeOperand (m : Mnemonic) (v : Value) : Except Fault Bytes :=
  match m, m.field? with
  | .call, _ => encodeTargets v
  | _, some f => f.pack v
  | _, none => .ok []

theorem encode_eq (e : Edition) (op : Opcode) :
    op.encode e = (encodeOperand op.mnemonic op.operand).map (e.code op.mnemonic :: ·) := by
  obtain ⟨m, v, size, addr⟩ := op
  cases m <;> rfl

theorem encodeOperand_of_none {m : Mnemonic} (bare : m.field? = none) (v : Value) : encodeOperand m v = .ok [] := by
  cases m <;> first | rfl | cases bare

theorem decodeOperand_of_none {m : Mnemonic} (bare : m.field? = none) (rest : Bytes) :
    decodeOperand m rest = .ok (.null, 0) := by
  cases m <;> first | rfl | cases bare

theorem encodeOperand_of_field {m : Mnemonic} {f : Field} (field : m.field? = some f) (single : m ≠ .call) (v : Value) :
    encodeOperand m v = f.pack v := by
  cases m <;> first | exact absurd rfl single | (cases field; rfl) | cases field

theorem decodeOperand_of_field {m : Mnemonic} {f : Field} (field : m.field? = some f) (single : m ≠ .call)
    (rest : Bytes) : decodeOperand m rest =
      (Bytes.exactly f.width (rest.take f.width)).map fun head => (f.unpack head, f.width) := by
  cases m <;> first | exact absurd rfl single | (cases field; rfl) | cases field

theorem encodeTargets_ints {targets : List Int} (count : (targets.length : Int) < Field.u32.limit)
    (inside : ∀ t ∈ targets, Field.i32.least ≤ t ∧ t < Field.i32.limit) :
    encodeTargets (.list (targets.map .int)) =
      .ok (Bytes.ofInt 4 targets.length ++ targets.flatMap (Bytes.ofInt 4)) := by
  have head : Field.u32.packInt ((targets.map Value.int).length) = .ok (Bytes.ofInt 4 targets.length) := by
    rw [List.length_map]
    exact Field.packInt_eq_ok (Int.natCast_nonneg _) count
  have packed : (targets.map Value.int).mapM Field.i32.pack = targets.mapM Field.i32.packInt := List.mapM_map
  have body := Field.mapM_packInt inside
  rw [← packed] at body
  simp only [encodeTargets, head, ok_bind, Field.packMany, if_true, body]
  rfl

theorem decodeOperand_call (head targets rest : Bytes) (four : head.length = 4)
    (length : targets.length = 4 * Bytes.ofLE head) : decodeOperand .call (head ++ (targets ++ rest)) =
      .ok (.list ((Bytes.words 4 targets).map fun n => .int (Bytes.signed 4 n)), 4 + 4 * Bytes.ofLE head) := by
  have first : Bytes.exactly 4 ((head ++ (targets ++ rest)).take 4) = .ok head :=
    exactly_eq_ok.mpr ⟨by rw [List.take_left' four, four], List.take_left' four⟩
  have second : Bytes.exactly (4 * Bytes.ofLE head)
      (((head ++ (targets ++ rest)).drop 4).take (4 * Bytes.ofLE head)) = .ok targets := by
    rw [List.drop_left' four, List.take_left' length]
    exact exactly_eq_ok.mpr ⟨length, rfl⟩
  have unfolded : decodeOperand .call (head ++ (targets ++ rest)) =
      (Bytes.exactly 4 ((head ++ (targets ++ rest)).take 4) >>= fun head' =>
        Bytes.exactly (4 * Bytes.ofLE head')
          (((head ++ (targets ++ rest)).drop 4).take (4 * Bytes.ofLE head')) >>= fun targets' =>
        .ok (.list ((Bytes.words 4 targets').map fun n => .int (Bytes.signed 4 n)), 4 + 4 * Bytes.ofLE head')) := rfl
  rw [unfolded, first, ok_bind, second, ok_bind]

/-- What is decoded as the operand of a call are its targets, and they are written as the bytes they were read from. -/
theorem decodeOperand_call_inv {rest : Bytes} {v : Value} {n : Nat} (h : decodeOperand .call rest = .ok (v, n)) :
    ∃ targets : List Int, v = .list (targets.map .int) ∧ n = 4 + 4 * targets.length ∧
      (targets.length : Int) < Field.u32.limit ∧ (∀ t ∈ targets, Field.i32.least ≤ t ∧ t < Field.i32.limit) ∧
      rest.take n = Bytes.ofInt 4 targets.length ++ targets.flatMap (Bytes.ofInt 4) := by
  obtain ⟨head, read, h⟩ := bind_eq_ok.mp h
  obtain ⟨four, taken⟩ := exactly_eq_ok.mp read
  rw [taken] at four
  obtain ⟨run, read, h⟩ := bind_eq_ok.mp h
  obtain ⟨length, taken'⟩ := exactly_eq_ok.mp read
  rw [taken'] at length
  cases h
  have count : ((Bytes.words 4 run).map (Bytes.signed 4)).length = Bytes.ofLE head := by
    rw [List.length_map, Bytes.length_words (by decide) length]
  refine ⟨(Bytes.words 4 run).map (Bytes.signed 4), by rw [List.map_map]; rfl, by rw [count], ?_, ?_, ?_⟩
  · rw [count]
    exact (Field.unpackInt_range four).2
  · intro t mem
    obtain ⟨w, word, rfl⟩ := List.mem_map.mp mem
    exact Bytes.signed_range (Bytes.words_lt word)
  · have number : Bytes.ofInt 4 (Bytes.ofLE head) = head := Field.ofInt_unpackInt (f := .u32) four
    have first : rest.take 4 = head := taken
    rw [List.take_add, taken', first, count, number,
      Bytes.flatMap_ofInt_signed_words (by decide) (by rw [length, Nat.mul_mod_right])]

end Opcode

namespace Carries

open Opcode

theorem encoded {m : Mnemonic} {v : Value} {n : Nat} (h : Carries m v n) :
    ∃ b, encodeOperand m v = .ok b ∧ b.length = n := by
  cases h with
  | none bare => exact ⟨[], encodeOperand_of_none bare _, rfl⟩
  | integer f i field whole single low high =>
      refine ⟨Bytes.ofInt f.width i, ?_, Bytes.length_ofInt _ _⟩
      rw [encodeOperand_of_field field single, Field.pack_int whole, Field.packInt_eq_ok low high]
  | real x =>
      obtain ⟨y, narrow⟩ := x.isSome_narrow_widen
      refine ⟨y.toBytes, ?_, Bytes.length_toLE _ _⟩
      rw [encodeOperand_of_field rfl (by decide), Field.pack_real, Field.packReal, narrow]
  | call targets count inside =>
      refine ⟨_, encodeTargets_ints count inside, ?_⟩
      rw [List.length_append, Bytes.length_ofInt, Bytes.length_flatMap_ofInt]

/-- An operand is read back from its bytes, whatever follows them; a NaN may come back as another one. -/
theorem decoded {m : Mnemonic} {v : Value} {n : Nat} (h : Carries m v n) (number : v.IsNumber) {b : Bytes}
    (bytes : encodeOperand m v = .ok b) (rest : Bytes) : decodeOperand m (b ++ rest) = .ok (v, n) := by
  cases h with
  | none bare => exact decodeOperand_of_none bare _
  | integer f i field whole single low high =>
      rw [encodeOperand_of_field field single, Field.pack_int whole, Field.packInt_eq_ok low high] at bytes
      cases bytes
      rw [decodeOperand_of_field field single, List.take_left' (Bytes.length_ofInt _ _),
        exactly_eq_ok.mpr ⟨Bytes.length_ofInt _ _, rfl⟩, Except.map, Field.unpack_int whole,
        Field.unpackInt_ofInt low high]
  | real x =>
      have finite : x.reading ≠ .nan := by
        intro nan
        have absent : x.widen.isNaN = false := number
        rw [(Single.isNaN_widen x).mpr nan] at absent
        cases absent
      rw [encodeOperand_of_field rfl (by decide), Field.pack_real, Field.packReal_widen finite] at bytes
      cases bytes
      have four : x.toBytes.length = Field.f32.width := Bytes.length_toLE _ _
      rw [decodeOperand_of_field rfl (by decide), List.take_left' four, exactly_eq_ok.mpr ⟨four, rfl⟩, Except.map,
        show Field.f32.unpack x.toBytes = .real (Single.ofBytes x.toBytes).widen from rfl, Single.ofBytes_toBytes]
      rfl
  | call targets count inside =>
      have bytes' := (encodeTargets_ints count inside).symm.trans bytes
      cases bytes'
      have counted : Bytes.ofLE (Bytes.ofInt 4 targets.length) = targets.length := by
        exact Int.natCast_inj.mp (Field.unpackInt_ofInt (Int.natCast_nonneg _) count)
      rw [List.append_assoc, decodeOperand_call _ _ _ (Bytes.length_ofInt _ _)
        (by rw [Bytes.length_flatMap_ofInt, counted]), counted, Bytes.words_flatMap_ofInt (by decide), List.map_map]
      have each : targets.map ((fun n => Value.int (Bytes.signed 4 n)) ∘ fun n => Bytes.ofLE (Bytes.ofInt 4 n)) =
          targets.map Value.int :=
        List.map_congr_left fun t mem => congrArg Value.int (Field.unpackInt_ofInt (inside t mem).1 (inside t mem).2)
      rw [each]

/-- What is decoded as an operand is one that the instruction can carry. -/
theorem of_decodeOperand {m : Mnemonic} {rest : Bytes} {v : Value} {n : Nat} (h : decodeOperand m rest = .ok (v, n)) :
    Carries m v n := by
  by_cases single : m = .call
  · subst single
    obtain ⟨targets, rfl, rfl, count, inside, _⟩ := decodeOperand_call_inv h
    exact .call targets count inside
  · cases field : m.field? with
    | none =>
        rw [decodeOperand_of_none field] at h
        cases h
        exact .none field
    | some f =>
        rw [decodeOperand_of_field field single] at h
        obtain ⟨head, read, h⟩ := map_eq_ok.mp h
        obtain ⟨length, rfl⟩ := exactly_eq_ok.mp read
        cases h
        by_cases whole : f = .f32
        · subst whole
          have : m = .pushf := by cases m <;> first | rfl | cases field
          subst this
          exact .real _
        · rw [Field.unpack_int whole]
          exact .integer f _ field whole single (Field.unpackInt_range length).1 (Field.unpackInt_range length).2

end Carries

namespace Opcode

/-- An operand is written as the bytes it was read from; a NaN may be written as another one. -/
theorem encodeOperand_of_decodeOperand {m : Mnemonic} {rest : Bytes} {v : Value} {n : Nat}
    (h : decodeOperand m rest = .ok (v, n)) (number : v.IsNumber) : encodeOperand m v = .ok (rest.take n) := by
  by_cases single : m = .call
  · subst single
    obtain ⟨targets, rfl, _, count, inside, written⟩ := decodeOperand_call_inv h
    rw [written]
    exact encodeTargets_ints count inside
  · cases field : m.field? with
    | none =>
        rw [decodeOperand_of_none field] at h
        cases h
        exact encodeOperand_of_none field _
    | some f =>
        rw [decodeOperand_of_field field single] at h
        obtain ⟨head, read, h⟩ := map_eq_ok.mp h
        obtain ⟨length, rfl⟩ := exactly_eq_ok.mp read
        cases h
        rw [encodeOperand_of_field field single, Field.pack_unpack length number]

/-- The instruction is one that can be loaded, and its size is that of its encoding. -/
structure Coded (op : Opcode) : Prop where
  supported : op.mnemonic.isSupported = true
  carries : ∃ n : Nat, op.size = n + 1 ∧ Carries op.mnemonic op.operand n

theorem Coded.encode {op : Opcode} (h : op.Coded) (e : Edition) :
    ∃ b, op.encode e = .ok b ∧ (b.length : Int) = op.size := by
  obtain ⟨n, size, carries⟩ := h.carries
  obtain ⟨b, bytes, length⟩ := carries.encoded
  refine ⟨e.code op.mnemonic :: b, by rw [encode_eq, bytes]; rfl, ?_⟩
  rw [List.length_cons, size, length]
  rfl

theorem Coded.decode {op : Opcode} (h : op.Coded) (number : op.operand.IsNumber) (e : Edition) :
    ∃ b, op.encode e = .ok (e.code op.mnemonic :: b) ∧ op.size = b.length + 1 ∧
      ∀ rest, Opcode.decode e (e.code op.mnemonic) (b ++ rest) = .ok (op.mnemonic, op.operand, b.length) := by
  obtain ⟨n, size, carries⟩ := h.carries
  obtain ⟨b, bytes, length⟩ := carries.encoded
  refine ⟨b, by rw [encode_eq, bytes]; rfl, by rw [size, length], fun rest => ?_⟩
  simp only [Opcode.decode, e.mnemonic?_code, h.supported, if_true, carries.decoded number bytes rest, length]
  rfl

theorem decode_eq_ok {e : Edition} {b : UInt8} {rest : Bytes} {m : Mnemonic} {v : Value} {n : Nat}
    (h : decode e b rest = .ok (m, v, n)) :
    e.mnemonic? b = some m ∧ m.isSupported = true ∧ decodeOperand m rest = .ok (v, n) := by
  unfold decode at h
  split at h
  case h_1 => cases h
  case h_2 found number =>
    split at h
    case isTrue supported =>
      obtain ⟨⟨_, _⟩, operand, same⟩ := map_eq_ok.mp h
      cases same
      exact ⟨number, supported, operand⟩
    case isFalse => cases h

/-- What is decoded from a segment fills it without gaps. -/
theorem of_decodeAll {e : Edition} {size addr : Nat} {rest tail : Bytes} {ops : List Opcode}
    (h : decodeAll e size addr rest = .ok (ops, tail)) :
    (∀ op ∈ ops, op.Coded) ∧ ∃ stop : Nat, Tiled addr ops stop := by
  fun_induction decodeAll e size addr rest generalizing ops tail with
  | case1 addr inside => cases h
  | case2 addr inside b bs ih =>
      obtain ⟨⟨m, v, n⟩, read, h⟩ := bind_eq_ok.mp h
      obtain ⟨⟨more, tail'⟩, later, h⟩ := bind_eq_ok.mp h
      cases h
      obtain ⟨coded, stop, tiled⟩ := ih n later
      obtain ⟨_, supported, operand⟩ := decode_eq_ok read
      have first : Coded ⟨m, v, n + 1, addr⟩ := ⟨supported, n, rfl, .of_decodeOperand operand⟩
      exact ⟨List.forall_mem_cons.mpr ⟨first, coded⟩, stop, rfl, Int.natCast_succ_pos n, tiled⟩
  | case3 addr =>
      cases h
      exact ⟨fun _ mem => (List.not_mem_nil mem).elim, addr, rfl⟩

/-- The instructions of a segment are written as the bytes they were read from. -/
theorem encodeAll_of_decodeAll {e : Edition} {size addr : Nat} {rest tail : Bytes} {ops : List Opcode}
    (h : decodeAll e size addr rest = .ok (ops, tail)) (numbers : ∀ op ∈ ops, op.operand.IsNumber) :
    ∃ b, encodeAll e ops = .ok b ∧ rest = b ++ tail := by
  fun_induction decodeAll e size addr rest generalizing ops tail with
  | case1 addr inside => cases h
  | case2 addr inside b bs ih =>
      obtain ⟨⟨m, v, n⟩, read, h⟩ := bind_eq_ok.mp h
      obtain ⟨⟨more, tail'⟩, later, h⟩ := bind_eq_ok.mp h
      cases h
      obtain ⟨number, numbers⟩ := List.forall_mem_cons.mp numbers
      obtain ⟨others, encoded, rest⟩ := ih n later numbers
      obtain ⟨pieces, mapped, rfl⟩ := map_eq_ok.mp encoded
      obtain ⟨known, _, operand⟩ := decode_eq_ok read
      have first : encode e ⟨m, v, n + 1, addr⟩ = .ok (b :: bs.take n) := by
        rw [encode_eq, encodeOperand_of_decodeOperand operand number, Edition.code_of_mnemonic? known]
        rfl
      refine ⟨(b :: bs.take n) ++ pieces.flatten,
        map_eq_ok.mpr ⟨_, mapM_cons_eq_ok.mpr ⟨_, _, first, mapped, rfl⟩, rfl⟩, ?_⟩
      rw [List.append_assoc, ← rest, List.cons_append, List.take_append_drop]
  | case3 addr =>
      cases h
      exact ⟨[], rfl, rfl⟩

/-- The code of a list of instructions is the same in two editions exactly when their numbers are. -/
theorem encodeAll_eq_iff {e e' : Edition} {ops : List Opcode} {b b' : Bytes} (h : encodeAll e ops = .ok b)
    (h' : encodeAll e' ops = .ok b') : b = b' ↔ ∀ op ∈ ops, e.code op.mnemonic = e'.code op.mnemonic := by
  induction ops generalizing b b' with
  | nil =>
      cases h
      cases h'
      exact ⟨fun _ => List.forall_mem_nil _, fun _ => rfl⟩
  | cons op ops ih =>
      obtain ⟨_, mapped, rfl⟩ := map_eq_ok.mp h
      obtain ⟨_, mapped', rfl⟩ := map_eq_ok.mp h'
      obtain ⟨_, rest, first, others, rfl⟩ := mapM_cons_eq_ok.mp mapped
      obtain ⟨_, rest', first', others', rfl⟩ := mapM_cons_eq_ok.mp mapped'
      obtain ⟨operand, packed, rfl⟩ := map_eq_ok.mp (encode_eq e op ▸ first)
      obtain ⟨_, packed', rfl⟩ := map_eq_ok.mp (encode_eq e' op ▸ first')
      cases packed.symm.trans packed'
      have later := ih (map_eq_ok.mpr ⟨rest, others, rfl⟩) (map_eq_ok.mpr ⟨rest', others', rfl⟩)
      rw [List.forall_mem_cons, ← later, List.flatten_cons, List.flatten_cons, List.cons_append, List.cons_append,
        List.cons.injEq, List.append_cancel_left_eq]

theorem decodeAll_cons {e : Edition} {size addr : Nat} {b : UInt8} {bs tail : Bytes} {m : Mnemonic} {v : Value}
    {n : Nat} {ops : List Opcode} (inside : addr < size) (read : decode e b bs = .ok (m, v, n))
    (later : decodeAll e size (addr + (n + 1)) (bs.drop n) = .ok (ops, tail)) :
    decodeAll e size addr (b :: bs) = .ok (⟨m, v, n + 1, addr⟩ :: ops, tail) := by
  rw [decodeAll, if_pos inside, read, ok_bind]
  simp only [later, ok_bind]

theorem decodeAll_end {e : Edition} {size addr : Nat} (full : size ≤ addr) (rest : Bytes) :
    decodeAll e size addr rest = .ok ([], rest) := by
  rw [decodeAll.eq_def, if_neg (Nat.not_lt.mpr full)]

/-- Instructions without gaps are decoded from their encoding, in either edition. -/
theorem decodeAll_encodeAll (e : Edition) {ops : List Opcode} {addr stop : Nat} (tiled : Tiled addr ops stop)
    (coded : ∀ op ∈ ops, op.Coded) (numbers : ∀ op ∈ ops, op.operand.IsNumber) :
    ∃ b, encodeAll e ops = .ok b ∧ addr + b.length = stop ∧
      ∀ rest, decodeAll e stop addr (b ++ rest) = .ok (ops, rest) := by
  induction ops generalizing addr with
  | nil =>
      have : addr = stop := Int.natCast_inj.mp tiled
      exact ⟨[], rfl, this, fun rest => decodeAll_end (Nat.le_of_eq this.symm) rest⟩
  | cons op ops ih =>
      obtain ⟨first, coded⟩ := List.forall_mem_cons.mp coded
      obtain ⟨number, numbers⟩ := List.forall_mem_cons.mp numbers
      obtain ⟨b, encoded, size, decoded⟩ := first.decode number e
      obtain ⟨address, _, tiled⟩ := tiled
      have next : Tiled (addr + (b.length + 1) : Nat) ops stop := by
        rw [size] at tiled
        exact tiled
      obtain ⟨more, encodedMore, length, decodedMore⟩ := ih next coded numbers
      obtain ⟨pieces, mapped, rfl⟩ := map_eq_ok.mp encodedMore
      refine ⟨(e.code op.mnemonic :: b) ++ pieces.flatten,
        map_eq_ok.mpr ⟨_, mapM_cons_eq_ok.mpr ⟨_, _, encoded, mapped, rfl⟩, rfl⟩, ?_, fun rest => ?_⟩
      · rw [List.length_append, List.length_cons]
        omega
      · have later : decodeAll e stop (addr + (b.length + 1)) ((b ++ (pieces.flatten ++ rest)).drop b.length) =
            .ok (ops, rest) := by
          rw [List.drop_left, decodedMore]
        have all := decodeAll_cons (by omega) (decoded (pieces.flatten ++ rest)) later
        rw [← size, ← address] at all
        rw [List.append_assoc]
        exact all

end Opcode

theorem Tiled.foldl_size {ops : List Opcode} {start stop : Int} (h : Tiled start ops stop) :
    ops.foldl (fun n op => n + op.size) start = stop := by
  induction ops generalizing start with
  | nil => exact h
  | cons op ops ih => exact ih h.2.2

end Script

end GameData
