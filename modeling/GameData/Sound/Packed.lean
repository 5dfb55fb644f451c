import GameData.Loading
import GameData.Bytes.Field

/-!
Packed sound files: a header of twenty bytes and the frames. Of the two compressed packings only the first byte
of the frames is kept.
-/
namespace GameData.Sound

/-- The frames as they are stored, or the number that a compressed packing is reduced to. -/
inductive Frames where
  | stored (data : Bytes)
  | reduced (n : Nat)
  deriving DecidableEq

/-- The fields of a sound file that is being loaded. -/
structure Packed where
  packing : Option Nat := none
  sampleWidth : Option Nat := none
  channels : Option Nat := none
  rate : Option Nat := none
  frames : Option Frames := none
  deriving DecidableEq, Inhabited

namespace Packed

open Filling

def load (data : Bytes) : Filling Packed Unit := do
  let head ← attempt (Bytes.exactly 20 (data.take 20))
  let packing := head.u16 4
  let bits := head.u16 6
  let channels := head.u16 8
  let rate := head.u32 12
  require (head.slice 0 4 == Bytes.ofText "ILSF") (.value .soundSignature)
  require (packing < 4) (.value .soundPacking)
  require (bits == 16) (.value .soundWidth)
  require (channels == 1 || channels == 2) (.value .soundChannels)
  require (rate == 11025 || rate == 22050 || rate == 44100) (.value .soundRate)
  let frames := data.drop 20
  set ({ packing := some packing, sampleWidth := some (bits / 8), channels := some channels,
         rate := some rate, frames := some (.stored frames) } : Packed)
  if packing == 2 || packing == 3 then
    match frames with
    | [] => throw (.index .bytes)
    | b :: _ => modify ({ · with frames := some (.reduced b.toNat) })

def save (_sound : Packed) : Except Fault (Option Bytes) := Bytes.unwritten

end Packed

end GameData.Sound
