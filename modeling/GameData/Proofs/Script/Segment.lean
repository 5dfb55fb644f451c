import GameData.Proofs.Script.Canonical

/-!
The code segment of a file.

Decoding goes on while an instruction starts inside the segment, so that the last one may end behind it. What was
decoded is written again, in the same edition, as the bytes from the start of the segment to the end of the last
instruction.
-/
namespace GameData

namespace Script

open Bytes

namespace Opcode

theorem decodeAll_covers {e : Edition} {size addr : Nat} {rest tail : Bytes} {ops : List Opcode} {stop : Int}
    (h : decodeAll e size addr rest = .ok (ops, tail)) (tiled : Tiled addr ops stop) :
    (size : Int) ≤ stop ∧ ∀ op ∈ ops, op.addr < size := by
  fun_induction decodeAll e size addr rest generalizing ops tail with
  | case1 addr inside => cases h
  | case2 addr inside b bs ih =>
      obtain ⟨⟨m, v, n⟩, read, h⟩ := bind_eq_ok.mp h
      obtain ⟨⟨more, tail'⟩, later, h⟩ := bind_eq_ok.mp h
      cases h
      obtain ⟨reached, starts⟩ := ih n later tiled.2.2
      refine ⟨reached, ?_⟩
      intro op mem
      rcases List.mem_cons.mp mem with rfl | others
      · exact Int.ofNat_lt.mpr inside
      · exact starts op others
  | case3 addr outside =>
      cases h
      have ends : (addr : Int) = stop := tiled
      refine ⟨by omega, ?_⟩
      intro op mem
      cases mem

/-- A decoded segment is written as its own bytes, which end where the last instruction does. -/
theorem encodeAll_decoded {e : Edition} {size : Nat} {rest tail : Bytes} {ops : List Opcode} {stop : Nat}
    (h : decodeAll e size 0 rest = .ok (ops, tail)) (tiled : Tiled 0 ops stop)
    (numbers : ∀ op ∈ ops, op.operand.IsNumber) :
    encodeAll e ops = .ok (rest.take stop) ∧ (rest.take stop).length = stop := by
  obtain ⟨b, encoded, whole⟩ := encodeAll_of_decodeAll h numbers
  obtain ⟨b', again, length, -⟩ := decodeAll_encodeAll e tiled (of_decodeAll h).1 numbers
  cases encoded.symm.trans again
  rw [Nat.zero_add] at length
  rw [whole, List.take_left' length]
  exact ⟨encoded, length⟩

end Opcode

namespace Program

/-- The instructions of a loaded program without NaN fill the addresses from zero on without gaps. Each starts inside
the code segment, together they reach its end, and written in the edition of the file they are the bytes of the file
from the start of the segment on, as many as their sizes add up to. -/
theorem code_fills_segment {data : Bytes} {old p : Program} (loaded : (load data).fill old = (.ok (), p))
    (numbers : ∀ code, p.code = some code → ∀ op ∈ code, op.mnemonic = .pushf → op.operand.IsNumber) :
    ∃ h e code, ∃ total : Nat, p.header = some h ∧ Edition.ofNumber? h.minorVersion = some e ∧ p.code = some code ∧
      Tiled 0 code total ∧ code.foldl (fun n op => n + op.size) 0 = (total : Int) ∧
      (∀ op ∈ code, op.addr < h.codeSize) ∧ h.codeSize ≤ total ∧
      Opcode.encodeAll e code = .ok (data.slice h.codeAt total) ∧ (data.slice h.codeAt total).length = total := by
  obtain ⟨e, s, reads, rfl⟩ := load_fill_eq_ok.mp loaded
  obtain ⟨-, total, tiled⟩ := Opcode.of_decodeAll reads.located.code
  obtain ⟨reached, starts⟩ := Opcode.decodeAll_covers reads.located.code tiled
  have written := Opcode.encodeAll_decoded reads.located.code tiled (reads.numeric (numbers _ rfl))
  exact ⟨headerOf data, e, s.code, total, rfl, Header.edition_of_check reads.checked, rfl, tiled, tiled.foldl_size,
    starts, Int.ofNat_le.mp reached, written⟩

/-- A file of edition five whose segment of ten bytes holds a call and the start of a jump that ends behind it. -/
def overrunSample : Bytes :=
  [0x4c, 0x4f, 0x4f, 0x50, 8, 0, 0, 0, 5, 0, 0, 0, 60, 0, 0, 0, 60, 0, 0, 0, 0, 0, 0, 0, 0, 0, 0, 0, 60, 0, 0, 0,
   60, 0, 0, 0, 0, 0, 0, 0, 0, 0, 0, 0, 60, 0, 0, 0, 10, 0, 0, 0, 0, 0, 0, 0, 0, 0, 0, 0,
   24, 1, 0, 0, 0, 14, 0, 0, 0, 20, 0xf7, 0xff, 0xff, 0xff]

def overrunSegments : Segments :=
  { fiveSegments with code := [⟨.call, .list [.int 14], 9, 0⟩, ⟨.bra, .int (-9), 5, 9⟩] }

theorem reads_overrunSample : Reads overrunSample .five overrunSegments := by
  have size : (headerOf overrunSample).codeSize = 10 := by decide +kernel
  have bytes : overrunSample.drop (headerOf overrunSample).codeAt =
      [24, 1, 0, 0, 0, 14, 0, 0, 0, 20, 0xf7, 0xff, 0xff, 0xff] := by
    decide +kernel
  have words : Bytes.words 4 [14, 0, 0, 0] = [14] := by decide +kernel
  have operand := Opcode.decodeOperand_call [1, 0, 0, 0] [14, 0, 0, 0] [20, 0xf7, 0xff, 0xff, 0xff] rfl (by decide)
  rw [words] at operand
  have call : Opcode.decode .five 24 [1, 0, 0, 0, 14, 0, 0, 0, 20, 0xf7, 0xff, 0xff, 0xff] =
      .ok (.call, .list [.int 14], 8) := congrArg (Except.map _) operand
  have code : Opcode.decodeAll .five 10 0 [24, 1, 0, 0, 0, 14, 0, 0, 0, 20, 0xf7, 0xff, 0xff, 0xff] =
      .ok (overrunSegments.code, overrunSegments.tail) :=
    Opcode.decodeAll_cons (by decide) call (Opcode.decodeAll_cons (by decide) rfl
      (Opcode.decodeAll_end (by decide) _))
  rw [← size, ← bytes] at code
  refine ⟨by decide +kernel, by cbv, (fun seven => by cases seven), ?_, ?_, ?_, ?_, code, fun _ => rfl⟩
  · show _ = Except.ok []
    cbv
  · show _ = Except.ok []
    cbv
  · show _ = Except.ok []
    cbv
  · show _ = Except.ok []
    cbv

theorem code_fills_segment_overrunSample :
    (load overrunSample).fill {} = (.ok (), filled {} overrunSample .five overrunSegments) ∧
      ∃ total : Nat, Tiled 0 overrunSegments.code total ∧ 10 ≤ total ∧
        Opcode.encodeAll .five overrunSegments.code = .ok (overrunSample.slice 60 total) := by
  have loaded := reads_overrunSample.load_fill {}
  obtain ⟨h, e, code, total, header, edition, held, tiled, -, -, reached, written, -⟩ :=
    code_fills_segment loaded (by rintro code ⟨⟩; decide +kernel)
  cases header
  cases held
  have start : (headerOf overrunSample).codeAt = 60 := by decide +kernel
  have size : (headerOf overrunSample).codeSize = 10 := by decide +kernel
  have five : Edition.ofNumber? (headerOf overrunSample).minorVersion = some .five := by decide +kernel
  cases five.symm.trans edition
  rw [start] at written
  rw [size] at reached
  exact ⟨loaded, total, tiled, reached, written⟩

end Program

end Script

end GameData
