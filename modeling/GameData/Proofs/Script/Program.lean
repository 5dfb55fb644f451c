import Mathlib
import GameData.Proofs.Script.Tables

/-!
What a successful load has read.

`Program.load_fill_eq_ok` takes a load apart once and for all: it succeeds exactly on the files whose header checks
and whose segments can be read where the header places them, and then the program holds these segments.
-/
namespace GameData.Script

theorem Edition.eq_number {n : Nat} {e : Edition} (h : ofNumber? n = some e) : n = e.number := by
  unfold ofNumber? at h
  split at h
  case isTrue five =>
    cases h
    exact five
  case isFalse =>
    split at h
    case isTrue seven =>
      cases h
      exact seven
    case isFalse => cases h

theorem Header.edition_of_check {h : Header} {e : Edition} (checked : h.check = .ok e) :
    Edition.ofNumber? h.minorVersion = some e := by
  obtain ⟨_, _, checked⟩ := bind_eq_ok.mp checked
  obtain ⟨_, _, checked⟩ := bind_eq_ok.mp checked
  split at checked
  case h_1 => cases checked
  case h_2 found number =>
    obtain ⟨_, _, checked⟩ := bind_eq_ok.mp checked
    obtain ⟨_, _, checked⟩ := bind_eq_ok.mp checked
    cases checked
    exact number

structure Header.Checked (h : Header) (e : Edition) : Prop where
  signature : h.signature = Bytes.ofText "LOOP"
  majorVersion : h.majorVersion = 8
  minorVersion : h.minorVersion = e.number
  firstReserved : h.firstReserved = 0
  secondReserved : h.secondReserved = 0

theorem Header.checked_of_check {h : Header} {e : Edition} (checked : h.check = .ok e) : h.Checked e := by
  have number := Edition.eq_number (edition_of_check checked)
  obtain ⟨_, signature, checked⟩ := bind_eq_ok.mp checked
  obtain ⟨_, majorVersion, checked⟩ := bind_eq_ok.mp checked
  split at checked
  case h_1 => cases checked
  case h_2 =>
    obtain ⟨_, firstReserved, checked⟩ := bind_eq_ok.mp checked
    obtain ⟨_, secondReserved, _⟩ := bind_eq_ok.mp checked
    rw [ensure_eq_ok, beq_iff_eq] at signature majorVersion firstReserved secondReserved
    exact ⟨signature, majorVersion, number, firstReserved, secondReserved⟩

namespace Program

open Filling

def headerOf (data : Bytes) : Header := Header.decode (data.take Header.size)

/-- The segments can be read where the header places them; in edition five nothing may follow the code. -/
structure Located (data : Bytes) (h : Header) (e : Edition) (s : Segments) : Prop where
  identifierOffsets : decodeOffsets (data.slice h.identifierOffsetsAt h.identifierOffsetsSize) = .ok s.identifierOffsets
  identifiers : decodeStrings (data.slice h.identifiersAt h.identifiersSize) = .ok s.identifiers
  stringOffsets : decodeOffsets (data.slice h.stringOffsetsAt h.stringOffsetsSize) = .ok s.stringOffsets
  strings : decodeStrings (data.slice h.stringsAt h.stringsSize) = .ok s.strings
  code : Opcode.decodeAll e h.codeSize 0 (data.drop h.codeAt) = .ok (s.code, s.tail)
  last : e = .five → s.tail = []

/-- The file is one of an edition and holds the segments. -/
structure Reads (data : Bytes) (e : Edition) (s : Segments) : Prop where
  headed : (data.take Header.size).length = Header.size
  checked : (headerOf data).check = .ok e
  tailed : e = .seven → (data.slice 60 4).length = 4
  located : Located data (headerOf data) e s

/-- The program with the segments of a file; a file of edition five has no tail to set. -/
def withSegments (p : Program) (e : Edition) (s : Segments) : Program :=
  { p with
    identifierOffsets := some s.identifierOffsets
    identifiers := some s.identifiers
    stringOffsets := some s.stringOffsets
    strings := some s.strings
    code := some s.code
    tail := if e = .seven then some s.tail else p.tail }

def filled (old : Program) (data : Bytes) (e : Edition) (s : Segments) : Program :=
  withSegments
    { old with
      header := some (headerOf data)
      tailAt := if e = .seven then some (Bytes.ofLE (data.slice 60 4)) else old.tailAt } e s

def loadSegments (data : Bytes) (h : Header) (e : Edition) : Filling Program Unit := do
  let identifierOffsets ← attempt (decodeOffsets (data.slice h.identifierOffsetsAt h.identifierOffsetsSize))
  modify ({ · with identifierOffsets := some identifierOffsets })
  let identifiers ← attempt (decodeStrings (data.slice h.identifiersAt h.identifiersSize))
  modify ({ · with identifiers := some identifiers })
  let stringOffsets ← attempt (decodeOffsets (data.slice h.stringOffsetsAt h.stringOffsetsSize))
  modify ({ · with stringOffsets := some stringOffsets })
  let strings ← attempt (decodeStrings (data.slice h.stringsAt h.stringsSize))
  modify ({ · with strings := some strings })
  let (code, rest) ← attempt (Opcode.decodeAll e h.codeSize 0 (data.drop h.codeAt))
  modify ({ · with code := some code })
  match e with
  | .seven => modify ({ · with tail := some rest })
  | .five => require rest.isEmpty (.check .codeIsLast)

theorem load_eq (data : Bytes) : load data = (do
    let head ← attempt (Bytes.exactly Header.size (data.take Header.size))
    modify ({ · with header := some (Header.decode head) })
    let e ← attempt (Header.decode head).check
    if e = .seven then do
      let word ← attempt (Bytes.exactly 4 (data.slice 60 4))
      modify ({ · with tailAt := some (Bytes.ofLE word) })
      loadSegments data (Header.decode head) e
    else loadSegments data (Header.decode head) e) := rfl

theorem loadSegments_fill_eq_ok {old p : Program} {data : Bytes} {h : Header} {e : Edition} :
    (loadSegments data h e).fill old = (.ok (), p) ↔ ∃ s, Located data h e s ∧ p = withSegments old e s := by
  unfold loadSegments
  constructor
  · intro run
    simp only [fill_bind_eq_ok, fill_attempt, fill_modify, Prod.mk.injEq] at run
    obtain ⟨identifierOffsets, _, ⟨h₁, rfl⟩, _, _, ⟨-, rfl⟩, identifiers, _, ⟨h₂, rfl⟩, _, _, ⟨-, rfl⟩,
      stringOffsets, _, ⟨h₃, rfl⟩, _, _, ⟨-, rfl⟩, strings, _, ⟨h₄, rfl⟩, _, _, ⟨-, rfl⟩, ⟨code, rest⟩, _, ⟨h₅, rfl⟩,
      _, _, ⟨-, rfl⟩, run⟩ := run
    refine ⟨⟨identifierOffsets, identifiers, stringOffsets, strings, code, rest⟩, ?_⟩
    cases e with
    | seven =>
        cases run
        exact ⟨⟨h₁, h₂, h₃, h₄, h₅, nofun⟩, rfl⟩
    | five =>
        simp only [fill_require, Prod.mk.injEq, ensure_eq_ok, List.isEmpty_iff] at run
        obtain ⟨none, rfl⟩ := run
        exact ⟨⟨h₁, h₂, h₃, h₄, h₅, fun _ => none⟩, rfl⟩
  · rintro ⟨s, located, rfl⟩
    simp only [located.identifierOffsets, located.identifiers, located.stringOffsets, located.strings, located.code]
    cases e with
    | seven => rfl
    | five =>
        simp only [located.last rfl]
        rfl

/-- A load succeeds exactly on the files that hold segments, and fills the program with them. -/
theorem load_fill_eq_ok {old p : Program} {data : Bytes} :
    (load data).fill old = (.ok (), p) ↔ ∃ e s, Reads data e s ∧ p = filled old data e s := by
  rw [load_eq]
  constructor
  · intro run
    simp only [fill_bind_eq_ok, fill_attempt, fill_modify, Prod.mk.injEq] at run
    obtain ⟨head, _, ⟨read, rfl⟩, _, _, ⟨-, rfl⟩, e, _, ⟨checked, rfl⟩, run⟩ := run
    obtain ⟨headed, rfl⟩ := exactly_eq_ok.mp read
    cases e with
    | seven =>
        simp only [if_true, fill_bind_eq_ok, fill_attempt, fill_modify, Prod.mk.injEq] at run
        obtain ⟨word, _, ⟨read, rfl⟩, _, _, ⟨-, rfl⟩, run⟩ := run
        obtain ⟨tailed, rfl⟩ := exactly_eq_ok.mp read
        obtain ⟨s, located, rfl⟩ := loadSegments_fill_eq_ok.mp run
        exact ⟨.seven, s, ⟨headed, checked, fun _ => tailed, located⟩, rfl⟩
    | five =>
        obtain ⟨s, located, rfl⟩ := loadSegments_fill_eq_ok.mp run
        exact ⟨.five, s, ⟨headed, checked, nofun, located⟩, rfl⟩
  · rintro ⟨e, s, reads, rfl⟩
    have head : Bytes.exactly Header.size (data.take Header.size) = .ok (data.take Header.size) :=
      exactly_eq_ok.mpr ⟨reads.headed, rfl⟩
    simp only [fill_bind_eq_ok, fill_attempt, fill_modify, Prod.mk.injEq]
    refine ⟨_, _, ⟨head, rfl⟩, ⟨⟩, _, ⟨trivial, rfl⟩, e, _, ⟨reads.checked, rfl⟩, ?_⟩
    cases e with
    | seven =>
        have word : Bytes.exactly 4 (data.slice 60 4) = .ok (data.slice 60 4) :=
          exactly_eq_ok.mpr ⟨reads.tailed rfl, rfl⟩
        simp only [if_true, fill_bind_eq_ok, fill_attempt, fill_modify, Prod.mk.injEq]
        exact ⟨_, _, ⟨word, rfl⟩, ⟨⟩, _, ⟨trivial, rfl⟩, loadSegments_fill_eq_ok.mpr ⟨s, reads.located, rfl⟩⟩
    | five => exact loadSegments_fill_eq_ok.mpr ⟨s, reads.located, rfl⟩

theorem Reads.load_fill {data : Bytes} {e : Edition} {s : Segments} (reads : Reads data e s) (old : Program) :
    (load data).fill old = (.ok (), filled old data e s) :=
  load_fill_eq_ok.mpr ⟨e, s, reads, rfl⟩

/-- A file of edition seven: the identifier `f`, the string `on`, the code `PUSHF 1.5`, `POP`, `BRK` and a tail. -/
def sevenSample : Bytes :=
  [0x4c, 0x4f, 0x4f, 0x50, 8, 0, 0, 0, 7, 0, 0, 0, 64, 0, 0, 0, 68, 0, 0, 0, 4, 0, 0, 0, 2, 0, 0, 0, 70, 0, 0, 0,
   74, 0, 0, 0, 4, 0, 0, 0, 3, 0, 0, 0, 77, 0, 0, 0, 7, 0, 0, 0, 0, 0, 0, 0, 0, 0, 0, 0, 84, 0, 0, 0,
   0, 0, 0, 0, 0x66, 0, 0, 0, 0, 0, 0x6f, 0x6e, 0, 11, 0, 0, 0xc0, 0x3f, 24, 0, 1, 2]

def sevenSegments : Segments where
  identifierOffsets := [0]
  identifiers := ["f"]
  stringOffsets := [0]
  strings := ["on"]
  code := [⟨.pushf, .real (Single.ofBytes [0, 0, 0xc0, 0x3f]).widen, 5, 0⟩, ⟨.pop, .null, 1, 5⟩, ⟨.brk, .null, 1, 6⟩]
  tail := [1, 2]

theorem reads_sevenSample : Reads sevenSample .seven sevenSegments := by
  have size : (headerOf sevenSample).codeSize = 7 := by decide +kernel
  have bytes : sevenSample.drop (headerOf sevenSample).codeAt = [11, 0, 0, 0xc0, 0x3f, 24, 0, 1, 2] := by
    decide +kernel
  have code : Opcode.decodeAll .seven 7 0 [11, 0, 0, 0xc0, 0x3f, 24, 0, 1, 2] =
      .ok (sevenSegments.code, sevenSegments.tail) :=
    Opcode.decodeAll_cons (by decide) rfl (Opcode.decodeAll_cons (by decide) rfl
      (Opcode.decodeAll_cons (by decide) rfl (Opcode.decodeAll_end (by decide) _)))
  rw [← size, ← bytes] at code
  refine ⟨by decide +kernel, by cbv, fun _ => by decide +kernel, ?_, ?_, ?_, ?_, code, nofun⟩
  · show _ = Except.ok [0]
    cbv
  · show _ = Except.ok ["f"]
    cbv
  · show _ = Except.ok [0]
    cbv
  · show _ = Except.ok ["on"]
    cbv

end Program

end GameData.Script
