import GameData.Loading
import GameData.Script.Opcode

/-!
Compiled scripts as files: a header, two tables of offsets with their strings, and the code.

`Program.load` fills a program from a file, segment by segment where the header places them; `Program.save`
writes the segments back to back in one fixed order.
-/
namespace GameData.Script

/-- The fixed part of the header. -/
structure Header where
  signature : Bytes
  majorVersion : Nat
  minorVersion : Nat
  identifierOffsetsAt : Nat
  identifiersAt : Nat
  identifierOffsetsSize : Nat
  identifiersSize : Nat
  stringOffsetsAt : Nat
  stringsAt : Nat
  stringOffsetsSize : Nat
  stringsSize : Nat
  codeAt : Nat
  codeSize : Nat
  firstReserved : Nat
  secondReserved : Nat
  deriving DecidableEq

namespace Header

def size : Nat := 60

/-- The header in a string of exactly sixty bytes. -/
def decode (b : Bytes) : Header where
  signature := b.slice 0 4
  majorVersion := b.u32 4
  minorVersion := b.u32 8
  identifierOffsetsAt := b.u32 12
  identifiersAt := b.u32 16
  identifierOffsetsSize := b.u32 20
  identifiersSize := b.u32 24
  stringOffsetsAt := b.u32 28
  stringsAt := b.u32 32
  stringOffsetsSize := b.u32 36
  stringsSize := b.u32 40
  codeAt := b.u32 44
  codeSize := b.u32 48
  firstReserved := b.u32 52
  secondReserved := b.u32 56

/-- Signature, versions and reserved words, in this order. -/
def check (h : Header) : Except Fault Edition := do
  ensure (h.signature == Bytes.ofText "LOOP") (.check .signature)
  ensure (h.majorVersion == 8) (.check .majorVersion)
  match Edition.ofNumber? h.minorVersion with
  | none => .error (.check .minorVersion)
  | some e =>
    ensure (h.firstReserved == 0) (.check .firstReserved)
    ensure (h.secondReserved == 0) (.check .secondReserved)
    .ok e

end Header

/-- A script while it is loaded or edited: what has been set so far. -/
structure Program where
  header : Option Header := none
  tailAt : Option Nat := none
  identifierOffsets : Option (List Int) := none
  identifiers : Option (List String) := none
  stringOffsets : Option (List Int) := none
  strings : Option (List String) := none
  code : Option (List Opcode) := none
  tail : Option Bytes := none
  deriving Inhabited

/-- A table of 32-bit offsets. -/
def decodeOffsets (b : Bytes) : Except Fault (List Int) :=
  if b.length % 4 = 0 then .ok ((Bytes.words 4 b).map Int.ofNat) else .error (.value .raggedWords)

/-- Strings, each ended by a zero byte; what follows the last zero byte is dropped. -/
def decodeStrings (b : Bytes) : Except Fault (List String) :=
  (Bytes.splitOn 0 b).dropLast.mapM fun s =>
    match Utf8.decode s with
    | .ok t => .ok t
    | .error m => .error (.notUtf8 m)

def encodeOffsets (offsets : List Int) : Except Fault Bytes := (offsets.mapM Field.u32.packInt).map List.flatten

def encodeStrings (strings : List String) : Bytes := strings.flatMap fun s => Utf8.encode s ++ [0]

/-- The size of a string table as the header states it: one for each character and one for each end. -/
def stringsSize (strings : List String) : Nat := strings.foldl (fun n s => n + s.length + 1) 0

namespace Program

open Filling

/-- Fills the program from a file. -/
def load (data : Bytes) : Filling Program Unit := do
  let head ← attempt (Bytes.exactly Header.size (data.take Header.size))
  let h := Header.decode head
  modify ({ · with header := some h })
  let edition ← attempt h.check
  if edition = .seven then
    let word ← attempt (Bytes.exactly 4 (data.slice 60 4))
    modify ({ · with tailAt := some (Bytes.ofLE word) })
  let identifierOffsets ← attempt (decodeOffsets (data.slice h.identifierOffsetsAt h.identifierOffsetsSize))
  modify ({ · with identifierOffsets := some identifierOffsets })
  let identifiers ← attempt (decodeStrings (data.slice h.identifiersAt h.identifiersSize))
  modify ({ · with identifiers := some identifiers })
  let stringOffsets ← attempt (decodeOffsets (data.slice h.stringOffsetsAt h.stringOffsetsSize))
  modify ({ · with stringOffsets := some stringOffsets })
  let strings ← attempt (decodeStrings (data.slice h.stringsAt h.stringsSize))
  modify ({ · with strings := some strings })
  let (code, rest) ← attempt (Opcode.decodeAll edition h.codeSize 0 (data.drop h.codeAt))
  modify ({ · with code := some code })
  match edition with
  | .seven => modify ({ · with tail := some rest })
  | .five => require rest.isEmpty (.check .codeIsLast)

/-- The segments of a saved program. -/
structure Segments where
  identifierOffsets : List Int
  identifiers : List String
  stringOffsets : List Int
  strings : List String
  code : List Opcode
  tail : Bytes

def segments (p : Program) : Except Fault Segments := do
  let identifierOffsets ← demand "QVM" "itable" p.identifierOffsets
  let identifiers ← demand "QVM" "ivalue" p.identifiers
  let stringOffsets ← demand "QVM" "stable" p.stringOffsets
  let strings ← demand "QVM" "svalue" p.strings
  let code ← demand "QVM" "ctable" p.code
  let tail ← demand "QVM" "tvalue" p.tail
  .ok ⟨identifierOffsets, identifiers, stringOffsets, strings, code, tail⟩

/-- The words of the header, and for edition seven the offset of the tail, which is zero when there is none. -/
def Segments.headerWords (s : Segments) (edition : Edition) : List Int :=
  let start : Int := if edition = .five then 60 else 64
  let identifierOffsetsSize : Int := s.identifierOffsets.length * 4
  let identifiersSize : Int := stringsSize s.identifiers
  let stringOffsetsSize : Int := s.stringOffsets.length * 4
  let stringsSize : Int := stringsSize s.strings
  let codeSize : Int := s.code.foldl (fun n op => n + op.size) 0
  let identifiersAt := start + identifierOffsetsSize
  let stringOffsetsAt := identifiersAt + identifiersSize
  let stringsAt := stringOffsetsAt + stringOffsetsSize
  let codeAt := stringsAt + stringsSize
  let fixed : List Int :=
    [8, edition.number, start, identifiersAt, identifierOffsetsSize, identifiersSize, stringOffsetsAt, stringsAt,
     stringOffsetsSize, stringsSize, codeAt, codeSize, 0, 0]
  if edition = .five then fixed
  else fixed ++ [if s.tail.isEmpty then 0 else codeAt + codeSize]

/-- The instructions are always numbered as in edition five. -/
def Segments.encode (s : Segments) (edition : Edition) : Except Fault Bytes := do
  let words ← (s.headerWords edition).mapM Field.u32.packInt
  let identifierOffsets ← encodeOffsets s.identifierOffsets
  let stringOffsets ← encodeOffsets s.stringOffsets
  let code ← Opcode.encodeAll .five s.code
  .ok (Bytes.ofText "LOOP" ++ words.flatten ++ identifierOffsets ++ encodeStrings s.identifiers
    ++ stringOffsets ++ encodeStrings s.strings ++ code ++ (if edition = .seven then s.tail else []))

/-- The file of the program in one of the two editions. -/
def save (p : Program) (version : Nat) : Except Fault Bytes := do
  match Edition.ofNumber? version with
  | none => .error (.check .version)
  | some edition =>
    let s ← p.segments
    s.encode edition

end Program

end GameData.Script
