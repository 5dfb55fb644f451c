import GameData.Proofs.Script.Program

/-!
Programs of edition seven saved in edition five.

The saved file has its segments back to back, while the header places them as if every character took one byte.
Both agree when all strings are ASCII, and then the file is loaded as the same program; otherwise the table with the
first other string is cut short and loses its last string.
-/
namespace GameData

namespace Bytes

theorem u32_flatMap_toLE {ws : List Nat} {i n : Nat} (word : ws[i]? = some n) (small : n < Nat.pow 256 4)
    (head rest : Bytes) : (head ++ (ws.flatMap (toLE 4) ++ rest)).u32 (head.length + 4 * i) = n := by
  induction ws generalizing i head with
  | nil => cases word
  | cons w ws ih =>
      cases i with
      | zero =>
          cases word
          rw [u32, Nat.mul_zero, Nat.add_zero, slice_append rfl, List.flatMap_cons, List.append_assoc,
            List.take_left' (length_toLE 4 n), ofLE_toLE, Nat.mod_eq_of_lt small]
      | succ i =>
          have shifted := ih word (head ++ toLE 4 w)
          rw [List.length_append, length_toLE, List.append_assoc] at shifted
          rw [List.flatMap_cons, List.append_assoc, Nat.mul_succ, Nat.add_comm (4 * i) 4, ← Nat.add_assoc]
          exact shifted

end Bytes

namespace Script

open Bytes

namespace Header

def words (h : Header) : List Nat :=
  [h.majorVersion, h.minorVersion, h.identifierOffsetsAt, h.identifiersAt, h.identifierOffsetsSize, h.identifiersSize,
   h.stringOffsetsAt, h.stringsAt, h.stringOffsetsSize, h.stringsSize, h.codeAt, h.codeSize, h.firstReserved,
   h.secondReserved]

def encode (h : Header) : Bytes := h.signature ++ h.words.flatMap (toLE 4)

theorem length_encode {h : Header} (four : h.signature.length = 4) : h.encode.length = 60 := by
  rw [encode, List.length_append, four]
  rfl

theorem decode_encode {h : Header} (four : h.signature.length = 4) (fits : ∀ w ∈ h.words, w < Nat.pow 256 4) :
    decode h.encode = h := by
  have word : ∀ i n, h.words[i]? = some n → h.encode.u32 (4 + 4 * i) = n := by
    intro i n given
    have read := u32_flatMap_toLE given (fits n (List.mem_of_getElem? given)) h.signature []
    rw [List.append_nil, four] at read
    exact read
  have signature : h.encode.slice 0 4 = h.signature := by
    rw [slice, List.drop_zero, encode, List.take_left' four]
  rw [decode, signature, word 0 _ rfl, word 1 _ rfl, word 2 _ rfl, word 3 _ rfl, word 4 _ rfl, word 5 _ rfl,
    word 6 _ rfl, word 7 _ rfl, word 8 _ rfl, word 9 _ rfl, word 10 _ rfl, word 11 _ rfl, word 12 _ rfl, word 13 _ rfl]

end Header

namespace Program

/-- The header of a file of edition five with the segments, the code of which takes `codeSize` bytes. -/
def Segments.header (s : Segments) (codeSize : Nat) : Header where
  signature := ofText "LOOP"
  majorVersion := 8
  minorVersion := 5
  identifierOffsetsAt := 60
  identifiersAt := 60 + 4 * s.identifierOffsets.length
  identifierOffsetsSize := 4 * s.identifierOffsets.length
  identifiersSize := stringsSize s.identifiers
  stringOffsetsAt := 60 + 4 * s.identifierOffsets.length + stringsSize s.identifiers
  stringsAt := 60 + 4 * s.identifierOffsets.length + stringsSize s.identifiers + 4 * s.stringOffsets.length
  stringOffsetsSize := 4 * s.stringOffsets.length
  stringsSize := stringsSize s.strings
  codeAt := 60 + 4 * s.identifierOffsets.length + stringsSize s.identifiers + 4 * s.stringOffsets.length
    + stringsSize s.strings
  codeSize := codeSize
  firstReserved := 0
  secondReserved := 0

def Segments.file (s : Segments) (code : Bytes) : Bytes :=
  (s.header code.length).encode ++ (s.identifierOffsets.flatMap (ofInt 4) ++ (encodeStrings s.identifiers ++
    (s.stringOffsets.flatMap (ofInt 4) ++ (encodeStrings s.strings ++ code))))

theorem four_signature : (ofText "LOOP").length = 4 := by
  decide +kernel

theorem headerWords_five {s : Segments} {codeSize : Nat}
    (size : s.code.foldl (fun n op => n + op.size) 0 = (codeSize : Int)) :
    s.headerWords .five = (s.header codeSize).words.map fun (n : Nat) => (n : Int) := by
  simp only [Segments.headerWords, size, if_true, Header.words, Segments.header, List.map_cons, List.map_nil,
    Edition.number]
  simp only [List.cons.injEq, and_true, true_and]
  omega

theorem encode_five {s : Segments} {code : Bytes} (identifierOffsets : ∀ n ∈ s.identifierOffsets, IsOffset n)
    (stringOffsets : ∀ n ∈ s.stringOffsets, IsOffset n) (encoded : Opcode.encodeAll .five s.code = .ok code)
    (size : s.code.foldl (fun n op => n + op.size) 0 = (code.length : Int))
    (fits : ∀ w ∈ s.headerWords .five, w < 4294967296) : s.encode .five = .ok (s.file code) := by
  have words : (s.headerWords .five).mapM Field.u32.packInt =
      .ok ((s.headerWords .five).map (ofInt 4)) := by
    refine mapM_eq_ok_map fun w mem => Field.packInt_eq_ok ?_ (fits w mem)
    rw [headerWords_five size] at mem
    obtain ⟨n, _, rfl⟩ := List.mem_map.mp mem
    exact Int.natCast_nonneg n
  have flat : ((s.headerWords .five).map (ofInt 4)).flatten = (s.header code.length).words.flatMap (toLE 4) := by
    rw [headerWords_five size] at fits ⊢
    rw [List.map_map]
    refine congrArg List.flatten (List.map_congr_left fun n mem => ?_)
    have small : n < 4294967296 := Int.ofNat_lt.mp (fits n (List.mem_map_of_mem mem))
    exact (ofInt_natCast 4 n).trans (congrArg (toLE 4) (Nat.mod_eq_of_lt small))
  rw [Segments.encode, words, ok_bind, encodeOffsets_eq_ok identifierOffsets, ok_bind,
    encodeOffsets_eq_ok stringOffsets, ok_bind, encoded, ok_bind, flat]
  simp only [Segments.file, Header.encode, List.append_assoc, reduceCtorEq, if_false, List.append_nil]
  rfl

theorem check_header (s : Segments) (codeSize : Nat) : (s.header codeSize).check = .ok .five := by
  simp only [Header.check, Segments.header, beq_self_eq_true, ensure, if_true]
  rfl

section File

variable (s : Segments) (code : Bytes)

theorem length_header (n : Nat) : (s.header n).encode.length = 60 := Header.length_encode four_signature

theorem headerOf_file (fits : ∀ w ∈ (s.header code.length).words, w < Nat.pow 256 4) :
    headerOf (s.file code) = s.header code.length := by
  have head : (s.file code).take Header.size = (s.header code.length).encode := List.take_left' (length_header s _)
  rw [headerOf, head, Header.decode_encode four_signature fits]

theorem slice_identifierOffsets :
    (s.file code).slice 60 (4 * s.identifierOffsets.length) = s.identifierOffsets.flatMap (ofInt 4) := by
  rw [Segments.file, slice_append (length_header s _), List.take_left' (length_flatMap_ofInt 4 _)]

theorem slice_identifiers (n : Nat) :
    (s.file code).slice (60 + 4 * s.identifierOffsets.length) n = (encodeStrings s.identifiers ++
      (s.stringOffsets.flatMap (ofInt 4) ++ (encodeStrings s.strings ++ code))).take n := by
  have front : ((s.header code.length).encode ++ s.identifierOffsets.flatMap (ofInt 4)).length =
      60 + 4 * s.identifierOffsets.length := by
    rw [List.length_append, length_header, length_flatMap_ofInt]
  rw [← slice_append front, Segments.file, List.append_assoc]

variable {s} (ascii : ∀ i ∈ s.identifiers, Utf8.IsAscii i)
include ascii

/-- Where the header places the offsets of strings, if the identifiers before them are ASCII. -/
theorem length_before_stringOffsets :
    ((s.header code.length).encode ++ (s.identifierOffsets.flatMap (ofInt 4) ++ encodeStrings s.identifiers)).length =
      60 + 4 * s.identifierOffsets.length + stringsSize s.identifiers := by
  rw [List.length_append, List.length_append, length_header, length_flatMap_ofInt,
    (length_encodeStrings_eq_iff _).mpr ascii, Nat.add_assoc]

theorem slice_stringOffsets : (s.file code).slice (60 + 4 * s.identifierOffsets.length + stringsSize s.identifiers)
    (4 * s.stringOffsets.length) = s.stringOffsets.flatMap (ofInt 4) := by
  have split := slice_append (length_before_stringOffsets code ascii)
    (s.stringOffsets.flatMap (ofInt 4) ++ (encodeStrings s.strings ++ code)) (4 * s.stringOffsets.length)
  rw [List.take_left' (length_flatMap_ofInt 4 _)] at split
  simpa only [Segments.file, List.append_assoc] using split

theorem length_before_strings :
    ((s.header code.length).encode ++ (s.identifierOffsets.flatMap (ofInt 4) ++ (encodeStrings s.identifiers ++
      s.stringOffsets.flatMap (ofInt 4)))).length =
      60 + 4 * s.identifierOffsets.length + stringsSize s.identifiers + 4 * s.stringOffsets.length := by
  have before := length_before_stringOffsets code ascii
  simp only [List.length_append, length_flatMap_ofInt] at before ⊢
  omega

theorem slice_strings (n : Nat) : (s.file code).slice
    (60 + 4 * s.identifierOffsets.length + stringsSize s.identifiers + 4 * s.stringOffsets.length) n =
      (encodeStrings s.strings ++ code).take n := by
  rw [← slice_append (length_before_strings code ascii)]
  simp only [Segments.file, List.append_assoc]

theorem drop_code (asciiStrings : ∀ t ∈ s.strings, Utf8.IsAscii t) : (s.file code).drop
    (60 + 4 * s.identifierOffsets.length + stringsSize s.identifiers + 4 * s.stringOffsets.length
      + stringsSize s.strings) = code := by
  have before := length_before_strings code ascii
  rw [← (length_encodeStrings_eq_iff _).mpr asciiStrings, ← before, ← List.length_append]
  simp only [Segments.file, ← List.append_assoc, List.drop_left]

end File

theorem edition_of_reads_file {s t : Segments} {code : Bytes} {e : Edition}
    (fits : ∀ w ∈ (s.header code.length).words, w < Nat.pow 256 4) (reads : Reads (s.file code) e t) : e = .five := by
  have checked := reads.checked
  rw [headerOf_file s code fits, check_header] at checked
  cases checked
  rfl

/-- The saved file is read as the segments it was made of exactly when all their strings are ASCII. -/
theorem reads_file_iff {s : Segments} {code : Bytes} (identifierOffsets : ∀ n ∈ s.identifierOffsets, IsOffset n)
    (identifiers : ∀ i ∈ s.identifiers, Unbroken i) (stringOffsets : ∀ n ∈ s.stringOffsets, IsOffset n)
    (strings : ∀ t ∈ s.strings, Unbroken t) (fits : ∀ w ∈ (s.header code.length).words, w < Nat.pow 256 4)
    (decoded : Opcode.decodeAll .five code.length 0 code = .ok (s.code, [])) :
    Reads (s.file code) .five { s with tail := [] } ↔
      (∀ i ∈ s.identifiers, Utf8.IsAscii i) ∧ ∀ t ∈ s.strings, Utf8.IsAscii t := by
  have header := headerOf_file s code fits
  constructor
  · rintro ⟨-, -, -, located⟩
    rw [header] at located
    have read := located.identifiers
    rw [Segments.header, slice_identifiers] at read
    have asciiIdentifiers := (decodeStrings_take_iff identifiers _).mp read
    have read := located.strings
    rw [Segments.header, slice_strings code asciiIdentifiers] at read
    exact ⟨asciiIdentifiers, (decodeStrings_take_iff strings _).mp read⟩
  · rintro ⟨asciiIdentifiers, asciiStrings⟩
    refine ⟨?_, ?_, nofun, ?_⟩
    · rw [List.length_take, Segments.file, List.length_append, length_header]
      exact Nat.min_eq_left (Nat.le_add_right _ _)
    · rw [header, check_header]
    · rw [header]
      constructor
      · rw [Segments.header, slice_identifierOffsets]
        exact decodeOffsets_flatMap identifierOffsets
      · rw [Segments.header, slice_identifiers]
        exact (decodeStrings_take_iff identifiers _).mpr asciiIdentifiers
      · rw [Segments.header, slice_stringOffsets code asciiIdentifiers]
        exact decodeOffsets_flatMap stringOffsets
      · rw [Segments.header, slice_strings code asciiIdentifiers]
        exact (decodeStrings_take_iff strings _).mpr asciiStrings
      · rw [Segments.header, drop_code code asciiIdentifiers asciiStrings]
        exact decoded
      · exact fun _ => rfl

theorem isNumber_of_carries {m : Mnemonic} {v : Value} {n : Nat} (carries : Carries m v n)
    (number : m = .pushf → v.IsNumber) : v.IsNumber := by
  cases carries with
  | real x => exact number rfl
  | _ => trivial

theorem Reads.numeric {data : Bytes} {e : Edition} {s : Segments} (reads : Reads data e s)
    (numbers : ∀ op ∈ s.code, op.mnemonic = .pushf → op.operand.IsNumber) : ∀ op ∈ s.code, op.operand.IsNumber := by
  intro op mem
  obtain ⟨coded, -⟩ := Opcode.of_decodeAll reads.located.code
  obtain ⟨n, _, carries⟩ := (coded op mem).carries
  exact isNumber_of_carries carries (numbers op mem)

theorem save_eq {p : Program} {s : Segments} (segments : p.segments = .ok s) {version : Nat} {e : Edition}
    (number : Edition.ofNumber? version = some e) : p.save version = s.encode e := by
  rw [save, number]
  simp only [segments]
  exact ok_bind s _

/-- What was read from a file can be saved in edition five, and its code is decoded from the saved code. -/
theorem Reads.encode_five {data : Bytes} {e : Edition} {s : Segments} (reads : Reads data e s)
    (numbers : ∀ op ∈ s.code, op.mnemonic = .pushf → op.operand.IsNumber)
    (fits : ∀ w ∈ s.headerWords .five, w < 4294967296) :
    ∃ code, s.encode .five = .ok (s.file code) ∧ (∀ w ∈ (s.header code.length).words, w < Nat.pow 256 4) ∧
      Opcode.decodeAll .five code.length 0 code = .ok (s.code, []) := by
  obtain ⟨coded, stop, tiled⟩ := Opcode.of_decodeAll reads.located.code
  obtain ⟨code, encoded, length, decoded⟩ :=
    Opcode.decodeAll_encodeAll .five tiled coded (reads.numeric numbers)
  rw [Nat.zero_add] at length
  have size : s.code.foldl (fun n op => n + op.size) 0 = (code.length : Int) := by
    rw [length]
    exact tiled.foldl_size
  refine ⟨code, ?_, ?_, ?_⟩
  · exact Program.encode_five (isOffset_of_decodeOffsets reads.located.identifierOffsets)
      (isOffset_of_decodeOffsets reads.located.stringOffsets) encoded size fits
  · intro w mem
    rw [headerWords_five size] at fits
    exact Int.ofNat_lt.mp (fits w (List.mem_map_of_mem mem))
  · have whole := decoded []
    rw [List.append_nil, ← length] at whole
    exact whole

/-- A program of edition seven without NaN can be saved in edition five while all offsets and sizes fit, and the
saved file is loaded as the same program exactly when all strings are ASCII. -/
theorem save_five_load_iff_ascii {data : Bytes} {p : Program} (loaded : (load data).fill {} = (.ok (), p))
    (seven : p.header.map Header.minorVersion = some 7)
    (numbers : ∀ code, p.code = some code → ∀ op ∈ code, op.mnemonic = .pushf → op.operand.IsNumber)
    (fits : ∀ s, p.segments = .ok s → ∀ w ∈ s.headerWords .five, w < 4294967296) :
    ∃ out, p.save 5 = .ok out ∧
      ((∃ q, (load out).fill {} = (.ok (), q) ∧ q.identifierOffsets = p.identifierOffsets ∧
          q.identifiers = p.identifiers ∧ q.stringOffsets = p.stringOffsets ∧ q.strings = p.strings ∧
          q.code = p.code) ↔
        (∀ is, p.identifiers = some is → ∀ i ∈ is, Utf8.IsAscii i) ∧
          ∀ ts, p.strings = some ts → ∀ t ∈ ts, Utf8.IsAscii t) := by
  obtain ⟨e, s, reads, rfl⟩ := load_fill_eq_ok.mp loaded
  have edition := Header.edition_of_check reads.checked
  rw [Option.some.inj seven] at edition
  cases edition
  have segments : (filled {} data .seven s).segments = .ok s := rfl
  obtain ⟨code, encoded, headerFits, decoded⟩ := reads.encode_five (numbers _ rfl) (fits s segments)
  have iff := reads_file_iff (isOffset_of_decodeOffsets reads.located.identifierOffsets)
    (decodeStrings_eq_ok reads.located.identifiers).2 (isOffset_of_decodeOffsets reads.located.stringOffsets)
    (decodeStrings_eq_ok reads.located.strings).2 headerFits decoded
  refine ⟨s.file code, (save_eq segments rfl).trans encoded, ?_⟩
  constructor
  · rintro ⟨q, loadedAgain, h₁, h₂, h₃, h₄, h₅⟩
    obtain ⟨e', t, again, rfl⟩ := load_fill_eq_ok.mp loadedAgain
    cases edition_of_reads_file headerFits again
    have none := again.located.last rfl
    obtain ⟨identifierOffsets, identifiers, stringOffsets, strings, ops, tail⟩ := t
    cases h₁
    cases h₂
    cases h₃
    cases h₄
    cases h₅
    cases none
    obtain ⟨asciiIdentifiers, asciiStrings⟩ := iff.mp again
    constructor
    · rintro is ⟨⟩
      exact asciiIdentifiers
    · rintro ts ⟨⟩
      exact asciiStrings
  · rintro ⟨asciiIdentifiers, asciiStrings⟩
    have again := iff.mpr ⟨asciiIdentifiers _ rfl, asciiStrings _ rfl⟩
    exact ⟨_, load_fill_eq_ok.mpr ⟨.five, _, again, rfl⟩, rfl, rfl, rfl, rfl, rfl⟩

theorem save_five_load_sevenSample :
    (load sevenSample).fill {} = (.ok (), filled {} sevenSample .seven sevenSegments) ∧
      ∃ out q, (filled {} sevenSample .seven sevenSegments).save 5 = .ok out ∧ (load out).fill {} = (.ok (), q) ∧
        q.code = some sevenSegments.code ∧ q.strings = some ["on"] := by
  have loaded : (load sevenSample).fill {} = (.ok (), filled {} sevenSample .seven sevenSegments) :=
    load_fill_eq_ok.mpr ⟨_, _, reads_sevenSample, rfl⟩
  have segments : (filled {} sevenSample .seven sevenSegments).segments = .ok sevenSegments := rfl
  obtain ⟨out, saved, iff⟩ := save_five_load_iff_ascii loaded (by decide +kernel)
    (by rintro code ⟨⟩; decide +kernel) (by rw [segments]; rintro s ⟨⟩; decide)
  have names : ∀ s ∈ sevenSegments.identifiers, Utf8.IsAscii s := by decide
  have texts : ∀ s ∈ sevenSegments.strings, Utf8.IsAscii s := by decide
  obtain ⟨q, again, -, -, -, strings, code⟩ :=
    iff.mpr ⟨by rintro is ⟨⟩; exact names, by rintro ts ⟨⟩; exact texts⟩
  exact ⟨loaded, out, q, saved, again, code, strings⟩

end Program

end Script

end GameData
