import GameData.Bytes.Word

/-!
UTF-8 as text, with the reason and the place of the first malformed sequence.
-/
namespace GameData.Utf8

/-- Why a byte sequence is no UTF-8. -/
inductive Reason where
  | invalidStart
  | invalidContinuation
  | unexpectedEnd
  deriving DecidableEq

def Reason.text : Reason → String
  | .invalidStart => "invalid start byte"
  | .invalidContinuation => "invalid continuation byte"
  | .unexpectedEnd => "unexpected end of data"

/-- The malformed sequence: its offset, its bytes and what is wrong with it. -/
structure Malformed where
  offset : Nat
  bytes : Bytes
  reason : Reason
  deriving DecidableEq

/-- How many bytes a sequence takes that starts with `b`, and the range of its second byte. -/
def lead (b : Nat) : Option (Nat × Nat × Nat) :=
  if b < 0xc2 then none
  else if b < 0xe0 then some (2, 0x80, 0xbf)
  else if b = 0xe0 then some (3, 0xa0, 0xbf)
  else if b = 0xed then some (3, 0x80, 0x9f)
  else if b < 0xf0 then some (3, 0x80, 0xbf)
  else if b = 0xf0 then some (4, 0x90, 0xbf)
  else if b < 0xf4 then some (4, 0x80, 0xbf)
  else if b = 0xf4 then some (4, 0x80, 0x8f)
  else none

/-- Takes `need` continuation bytes, the first within `[low, high]`. The accumulator holds the code point so
far and `used` the bytes of the sequence. -/
def continuation : Nat → Nat → Nat → Nat → Bytes → Bytes → Except (Bytes × Reason) (Nat × Bytes)
  | 0, _, _, code, _, rest => .ok (code, rest)
  | _ + 1, _, _, _, used, [] => .error (used, .unexpectedEnd)
  | need + 1, low, high, code, used, b :: rest =>
    if low ≤ b.toNat ∧ b.toNat ≤ high then
      continuation need 0x80 0xbf (code * 64 + b.toNat % 64) (used ++ [b]) rest
    else .error (used, .invalidContinuation)

/-- One code point and the bytes after it. -/
def next (b : UInt8) (rest : Bytes) : Except (Bytes × Reason) (Nat × Bytes) :=
  if b.toNat < 0x80 then .ok (b.toNat, rest)
  else match lead b.toNat with
    | none => .error ([b], .invalidStart)
    | some (size, low, high) =>
      let bits := if size = 2 then 32 else if size = 3 then 16 else 8
      continuation (size - 1) low high (b.toNat % bits) [b] rest

/-- Each step takes at least one byte, so as many steps as there are bytes suffice. -/
def decodeFrom : Nat → Nat → List Char → Bytes → Except Malformed (List Char)
  | _, _, acc, [] => .ok acc.reverse
  | 0, _, acc, _ :: _ => .ok acc.reverse
  | fuel + 1, offset, acc, b :: rest =>
    match next b rest with
    | .ok (code, rest') =>
      decodeFrom fuel (offset + (rest.length + 1 - rest'.length)) (Char.ofNat code :: acc) rest'
    | .error (bytes, reason) => .error ⟨offset, bytes, reason⟩

/-- The text that the bytes spell. -/
def decode (b : Bytes) : Except Malformed String :=
  (decodeFrom b.length 0 [] b).map String.ofList

/-- The bytes of a text. -/
def encode (s : String) : Bytes := s.toUTF8.toList

end GameData.Utf8
