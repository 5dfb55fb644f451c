import GameData.Proofs.Script.Editions

/-!
Programs saved in the edition they were loaded from.

A file is canonical when its segments stand where saving would put them, with their own sizes. Such a file is taken
apart into the bytes of its header, its tables, its code and its tail, and saving writes the same bytes in the same places,
except that it numbers the instructions as in edition five.
-/
namespace GameData

namespace Bytes

theorem slice_append_drop (b : Bytes) (off n : Nat) : b.slice off n ++ b.drop (off + n) = b.drop off := by
  rw [slice, ← List.drop_drop, List.take_append_drop]

end Bytes

namespace Script

open Bytes

/-- The size of the header, which in edition seven ends with the offset of the tail. -/
def Edition.headerSize : Edition → Nat
  | .five => 60
  | .seven => 64

namespace Header

theorem words_decode {b : Bytes} (length : b.length = size) : Bytes.words 4 (b.drop 4) = (decode b).words := by
  have each : ∀ i, ofLE (slice (b.drop 4) (4 * i) 4) = b.u32 (4 + 4 * i) := by
    intro i
    rw [slice, List.drop_drop]
    rfl
  rw [words_eq_map_range (n := 14) (by decide) (by rw [List.length_drop, length]; rfl),
    List.map_congr_left fun i _ => each i]
  rfl

end Header

namespace Program

/-- The segments of a file of the edition are ASCII and free of NaN, stand back to back in the order in which they are
saved, and take as many bytes as the header says. -/
structure Canonical (data : Bytes) (e : Edition) (s : Segments) : Prop where
  reads : Reads data e s
  identifierOffsetsAt : (headerOf data).identifierOffsetsAt = e.headerSize
  identifiersAt : (headerOf data).identifiersAt =
    (headerOf data).identifierOffsetsAt + (headerOf data).identifierOffsetsSize
  stringOffsetsAt : (headerOf data).stringOffsetsAt = (headerOf data).identifiersAt + (headerOf data).identifiersSize
  stringsAt : (headerOf data).stringsAt = (headerOf data).stringOffsetsAt + (headerOf data).stringOffsetsSize
  codeAt : (headerOf data).codeAt = (headerOf data).stringsAt + (headerOf data).stringsSize
  identifierOffsetsSize : (headerOf data).identifierOffsetsSize = 4 * s.identifierOffsets.length
  identifiersSize : (headerOf data).identifiersSize = (encodeStrings s.identifiers).length
  stringOffsetsSize : (headerOf data).stringOffsetsSize = 4 * s.stringOffsets.length
  stringsSize : (headerOf data).stringsSize = (encodeStrings s.strings).length
  codeSize : s.code.foldl (fun n op => n + op.size) 0 = ((headerOf data).codeSize : Int)
  tailAt : e = .seven →
    ofLE (data.slice 60 4) = if s.tail = [] then 0 else (headerOf data).codeAt + (headerOf data).codeSize
  asciiIdentifiers : ∀ i ∈ s.identifiers, Utf8.IsAscii i
  asciiStrings : ∀ t ∈ s.strings, Utf8.IsAscii t
  numbers : ∀ op ∈ s.code, op.mnemonic = .pushf → op.operand.IsNumber

namespace Canonical

variable {data : Bytes} {e : Edition} {s : Segments} (canonical : Canonical data e s)
include canonical

/-- The words of the header are those that saving computes. -/
theorem headerWords : s.headerWords e = ((headerOf data).words ++
    if e = .seven then [ofLE (data.slice 60 4)] else []).map Int.ofNat := by
  obtain ⟨-, majorVersion, minorVersion, firstReserved, secondReserved⟩ :=
    Header.checked_of_check canonical.reads.checked
  obtain ⟨-, h₁, h₂, h₃, h₄, h₅, h₆, h₇, h₈, h₉, h₁₀, tailAt, asciiIdentifiers, asciiStrings, -⟩ := canonical
  rw [(length_encodeStrings_eq_iff _).mpr asciiIdentifiers] at h₇
  rw [(length_encodeStrings_eq_iff _).mpr asciiStrings] at h₉
  simp only [Segments.headerWords, Header.words, majorVersion, minorVersion, firstReserved, secondReserved, h₁₀]
  cases e with
  | five =>
      simp only [Edition.headerSize] at h₁
      simp only [if_true, reduceCtorEq, if_false, List.append_nil, List.map_cons, List.map_nil, List.cons.injEq,
        and_true, true_and, Int.ofNat_eq_natCast]
      omega
  | seven =>
      simp only [Edition.headerSize] at h₁
      rw [tailAt rfl]
      simp only [if_true, reduceCtorEq, if_false, List.map_cons, List.map_nil, List.cons.injEq, and_true, true_and,
        Int.ofNat_eq_natCast, List.cons_append, List.nil_append, List.isEmpty_iff]
      by_cases none : s.tail = []
      · simp only [none, if_true]
        omega
      · simp only [none, if_false]
        omega

/-- The header is written as the bytes in front of the first segment. -/
theorem take_headerSize :
    data.take e.headerSize = ofText "LOOP" ++ (s.headerWords e).flatMap (ofInt 4) := by
  have headed := canonical.reads.headed
  have signature : (data.take Header.size).take 4 = ofText "LOOP" :=
    (Header.checked_of_check canonical.reads.checked).signature
  have words : ((headerOf data).words.map Int.ofNat).flatMap (ofInt 4) = (data.take Header.size).drop 4 := by
    rw [headerOf, ← Header.words_decode headed]
    exact flatMap_ofInt_words (by decide) (by rw [List.length_drop, headed]; rfl)
  have fixed : data.take 60 = ofText "LOOP" ++ ((headerOf data).words.map Int.ofNat).flatMap (ofInt 4) := by
    rw [words, ← signature, List.take_append_drop]
    rfl
  rw [canonical.headerWords]
  cases e with
  | five =>
      simp only [reduceCtorEq, if_false, List.append_nil]
      exact fixed
  | seven =>
      have word : ofInt 4 (Int.ofNat (ofLE (data.slice 60 4))) = data.slice 60 4 :=
        Field.ofInt_unpackInt (f := .u32) (canonical.reads.tailed rfl)
      have whole : data.take (60 + 4) = data.take 60 ++ data.slice 60 4 := List.take_add
      rw [if_pos rfl, List.map_append, List.flatMap_append, ← List.append_assoc, ← fixed]
      simp only [List.map_cons, List.map_nil, List.flatMap_cons, List.flatMap_nil, List.append_nil, word]
      exact whole

theorem fits : ∀ w ∈ s.headerWords e, IsOffset w := by
  intro w mem
  rw [canonical.headerWords] at mem
  obtain ⟨n, inside, rfl⟩ := List.mem_map.mp mem
  refine ⟨Int.natCast_nonneg n, Int.ofNat_lt.mpr ?_⟩
  rcases List.mem_append.mp inside with word | word
  · rw [headerOf, ← Header.words_decode canonical.reads.headed] at word
    exact words_lt word
  · cases e with
    | five => cases word
    | seven =>
        have small := ofLE_lt (data.slice 60 4)
        rw [canonical.reads.tailed rfl] at small
        rw [List.mem_singleton.mp word]
        exact small

/-- The tables and the code are written as the bytes they were read from. -/
theorem drop_headerSize : ∃ code, Opcode.encodeAll e s.code = .ok code ∧
    data.drop e.headerSize = s.identifierOffsets.flatMap (ofInt 4) ++ (encodeStrings s.identifiers ++
      (s.stringOffsets.flatMap (ofInt 4) ++ (encodeStrings s.strings ++ (code ++ s.tail)))) := by
  have located := canonical.reads.located
  have identifiers := eq_encodeStrings located.identifiers (canonical.identifiersSize ▸ length_slice_le _ _ _)
  have strings := eq_encodeStrings located.strings (canonical.stringsSize ▸ length_slice_le _ _ _)
  obtain ⟨code, encoded, segment⟩ :=
    Opcode.encodeAll_of_decodeAll located.code (canonical.reads.numeric canonical.numbers)
  refine ⟨code, encoded, ?_⟩
  rw [← canonical.identifierOffsetsAt, flatMap_of_decodeOffsets located.identifierOffsets,
    flatMap_of_decodeOffsets located.stringOffsets, ← identifiers, ← strings, ← segment]
  -- Each segment ends where the next one starts, so that the slices join from the last one on.
  rw [canonical.codeAt, slice_append_drop, canonical.stringsAt, slice_append_drop, canonical.stringOffsetsAt,
    slice_append_drop, canonical.identifiersAt, slice_append_drop]

/-- Saving the segments writes the file again, except that the instructions are numbered as in edition five. -/
theorem encode : ∃ front code code', data = front ++ (code ++ s.tail) ∧ Opcode.encodeAll e s.code = .ok code ∧
    Opcode.encodeAll .five s.code = .ok code' ∧ s.encode e = .ok (front ++ (code' ++ s.tail)) := by
  have located := canonical.reads.located
  obtain ⟨code, encoded, body⟩ := canonical.drop_headerSize
  have head := canonical.take_headerSize
  obtain ⟨coded, stop, tiled⟩ := Opcode.of_decodeAll located.code
  obtain ⟨code', encoded', -⟩ :=
    Opcode.decodeAll_encodeAll .five tiled coded (canonical.reads.numeric canonical.numbers)
  obtain ⟨pieces, mapped, flat⟩ := map_eq_ok.mp (encodeOffsets_eq_ok canonical.fits)
  refine ⟨data.take e.headerSize ++ (s.identifierOffsets.flatMap (ofInt 4) ++ (encodeStrings s.identifiers ++
      (s.stringOffsets.flatMap (ofInt 4) ++ encodeStrings s.strings))), code, code', ?_, encoded, encoded', ?_⟩
  · simp only [List.append_assoc]
    rw [← body, List.take_append_drop]
  · have tail : (if e = .seven then s.tail else []) = s.tail := by
      cases e with
      | five => exact (located.last rfl).symm
      | seven => rfl
    rw [Segments.encode, mapped, ok_bind, encodeOffsets_eq_ok (isOffset_of_decodeOffsets located.identifierOffsets),
      ok_bind, encodeOffsets_eq_ok (isOffset_of_decodeOffsets located.stringOffsets), ok_bind, encoded', ok_bind, flat,
      tail, head]
    simp only [List.append_assoc]

end Canonical

/-- A canonical file is loaded. Saved in its own edition, it is written again only in edition seven, and there exactly
when its instructions have the same numbers in both editions; what is written otherwise has the numbers of edition five.
In edition five there is no tail to save, and any tail would do. -/
theorem save_loaded_edition_iff {data : Bytes} {e : Edition} {s : Segments} (canonical : Canonical data e s) :
    ∃ p, (load data).fill {} = (.ok (), p) ∧
      (p.save e.number = .ok data ↔
        e = .seven ∧ ∀ op ∈ s.code, Edition.five.code op.mnemonic = Edition.seven.code op.mnemonic) ∧
      (e = .five → p.save 5 = .error (.unset "QVM" "tvalue") ∧ ∀ tail, { p with tail := some tail }.save 5 = .ok data) ∧
      (e = .seven → ∃ front code code', data = front ++ (code ++ s.tail) ∧ Opcode.encodeAll .seven s.code = .ok code ∧
        Opcode.encodeAll .five s.code = .ok code' ∧ p.save 7 = .ok (front ++ (code' ++ s.tail))) := by
  refine ⟨filled {} data e s, canonical.reads.load_fill {}, ?_⟩
  obtain ⟨front, code, code', whole, encoded, encoded', saved⟩ := canonical.encode
  cases e with
  | five =>
      have unset : (filled {} data .five s).save 5 = .error (.unset "QVM" "tvalue") := rfl
      -- The two codes are one, so that what is saved is the file, once there is a tail.
      cases encoded.symm.trans encoded'
      refine ⟨⟨fun same => ?_, fun seven => ?_⟩, fun _ => ⟨unset, fun tail => ?_⟩, fun seven => ?_⟩
      · cases unset.symm.trans same
      · cases seven.1
      · have segments : { filled {} data .five s with tail := some tail }.segments = .ok { s with tail } := rfl
        have anyTail : { s with tail }.encode .five = s.encode .five := rfl
        rw [save_eq segments rfl, anyTail, saved, ← whole]
      · cases seven
  | seven =>
      have segments : (filled {} data .seven s).segments = .ok s := rfl
      have save : (filled {} data .seven s).save 7 = .ok (front ++ (code' ++ s.tail)) :=
        (save_eq segments rfl).trans saved
      refine ⟨?_, fun five => ?_, fun _ => ⟨front, code, code', whole, encoded, encoded', save⟩⟩
      · rw [← Opcode.encodeAll_eq_iff encoded' encoded]
        constructor
        · intro same
          have written := Except.ok.inj (save.symm.trans same)
          rw [whole, List.append_cancel_left_eq, List.append_cancel_right_eq] at written
          exact ⟨rfl, written⟩
        · rintro ⟨-, rfl⟩
          rw [whole]
          exact save
      · cases five

/-- A file of edition five with the code `BRK` alone. -/
def fiveSample : Bytes :=
  [0x4c, 0x4f, 0x4f, 0x50, 8, 0, 0, 0, 5, 0, 0, 0, 60, 0, 0, 0, 60, 0, 0, 0, 0, 0, 0, 0, 0, 0, 0, 0, 60, 0, 0, 0,
   60, 0, 0, 0, 0, 0, 0, 0, 0, 0, 0, 0, 60, 0, 0, 0, 1, 0, 0, 0, 0, 0, 0, 0, 0, 0, 0, 0, 0]

def fiveSegments : Segments where
  identifierOffsets := []
  identifiers := []
  stringOffsets := []
  strings := []
  code := [⟨.brk, .null, 1, 0⟩]
  tail := []

theorem canonical_sevenSample : Canonical sevenSample .seven sevenSegments := by
  refine ⟨reads_sevenSample, ?_, ?_, ?_, ?_, ?_, ?_, ?_, ?_, ?_, ?_, ?_, ?_, ?_, ?_⟩ <;> decide +kernel

theorem reads_fiveSample : Reads fiveSample .five fiveSegments := by
  have size : (headerOf fiveSample).codeSize = 1 := by decide +kernel
  have bytes : fiveSample.drop (headerOf fiveSample).codeAt = [0] := by decide +kernel
  have code : Opcode.decodeAll .five 1 0 [0] = .ok (fiveSegments.code, fiveSegments.tail) :=
    Opcode.decodeAll_cons (by decide) rfl (Opcode.decodeAll_end (by decide) _)
  rw [← size, ← bytes] at code
  refine ⟨by decide +kernel, by cbv, (fun seven => by cases seven), ?_, ?_, ?_, ?_, code, fun _ => rfl⟩
  · show _ = Except.ok []
    cbv
  · show _ = Except.ok []
    cbv
  · show _ = Except.ok []
    cbv
  · show _ = Except.ok []
    cbv

theorem canonical_fiveSample : Canonical fiveSample .five fiveSegments := by
  refine ⟨reads_fiveSample, ?_, ?_, ?_, ?_, ?_, ?_, ?_, ?_, ?_, ?_, ?_, ?_, ?_, ?_⟩ <;> decide +kernel

theorem save_loaded_edition_samples :
    (∃ p, (load sevenSample).fill {} = (.ok (), p) ∧ p.save 7 ≠ .ok sevenSample) ∧
    ∃ p, (load fiveSample).fill {} = (.ok (), p) ∧ { p with tail := some [] }.save 5 = .ok fiveSample := by
  constructor
  · obtain ⟨p, loaded, iff, -⟩ := save_loaded_edition_iff canonical_sevenSample
    refine ⟨p, loaded, fun same => ?_⟩
    have pop := (iff.mp same).2 ⟨.pop, .null, 1, 5⟩ (List.mem_cons_of_mem _ List.mem_cons_self)
    exact absurd pop (by decide)
  · obtain ⟨p, loaded, -, five, -⟩ := save_loaded_edition_iff canonical_fiveSample
    exact ⟨p, loaded, (five rfl).2 []⟩

/-- Canonical files of both editions that are not written again. -/
theorem not_saved_again :
    (Canonical sevenSample .seven sevenSegments ∧
      (load sevenSample).fill {} = (.ok (), filled {} sevenSample .seven sevenSegments) ∧
      (filled {} sevenSample .seven sevenSegments).save 7 ≠ .ok sevenSample) ∧
    Canonical fiveSample .five fiveSegments ∧
      (load fiveSample).fill {} = (.ok (), filled {} fiveSample .five fiveSegments) ∧
      (filled {} fiveSample .five fiveSegments).save 5 = .error (.unset "QVM" "tvalue") := by
  exact ⟨⟨canonical_sevenSample, reads_sevenSample.load_fill {}, by decide +kernel⟩,
    canonical_fiveSample, reads_fiveSample.load_fill {}, rfl⟩

end Program

end Script

end GameData
