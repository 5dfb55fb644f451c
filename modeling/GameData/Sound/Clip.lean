import GameData.Loading
import GameData.Bytes.Field
import GameData.Schema.Rule

/-!
Sound clips as checked records, and wave files made from them.

No clip passes its check, because nothing satisfies the rule for the signature; wave files are made from clips
that were not checked.
-/
namespace GameData.Sound

open Schema

/-- The fields of a clip and their rules. -/
def clipRules : List (String × Rule) :=
  [("signature", .unmatchable),
   ("sound_pack", .choice "SoundPack" [⟨"RAW", 0⟩, ⟨"RAW_RESIDENT", 1⟩, ⟨"ADPCM", 2⟩, ⟨"ADPCM_RESIDENT", 3⟩]),
   ("sample_width", .choice "SampleWidth" [⟨"BITS_16", 16⟩]),
   ("channels", .choice "Channels" [⟨"CHANNEL_1", 1⟩, ⟨"CHANNEL_2", 2⟩]),
   ("unknown", .integer none none none),
   ("frame_rate", .choice "FrameRate" [⟨"FRAME_RATE_1", 11025⟩, ⟨"FRAME_RATE_2", 22050⟩, ⟨"FRAME_RATE_3", 44100⟩]),
   ("frames", .bytes)]

/-- A clip: the given fields. -/
structure Clip where
  fields : List (String × Value)

namespace Clip

/-- The clip of checked fields. -/
def check (given : List (String × Value)) : Except Fault Clip := (Rule.checkAll given clipRules).map Clip.mk

/-- The fields in the header of a file and its frames. -/
def decode (data : Bytes) : Except Fault (List (String × Value)) := do
  let h ← Bytes.exactly 20 (data.take 20)
  .ok [("signature", .blob (h.slice 0 4)), ("sound_pack", .int (h.u16 4)), ("sample_width", .int (h.u16 6)),
    ("channels", .int (h.u16 8)), ("unknown", .int (h.u16 10)), ("frame_rate", .int (h.u32 12)),
    ("frames", .blob (data.drop 20))]

/-- The clip in a file. -/
def load (data : Bytes) : Except Fault Clip := do
  let fields ← decode data
  check fields

/-- Clips are only read. -/
def save (_file : Bytes) : Except Fault Bytes := .error .notImplemented

def field (c : Clip) (name : String) : Except Fault Value := demand "WAV" name (c.fields.lookup name)

end Clip

/-- The parameters of a wave file. -/
structure WaveFormat where
  channels : Value
  /-- The bytes of a sample. -/
  sampleWidth : Value
  rate : Int

namespace Wave

/-- At least `n`; nothing when the value is no number. -/
def atLeast? (n : Int) : Value → Option Bool
  | .int i => some (decide (n ≤ i))
  | .bool b => some (decide (n ≤ if b then 1 else 0))
  | .real x => some (x.isNaN || !(Double.addInt (-n) x).isNegative)
  | _ => none

/-- The number of channels, if it is one or more. -/
def channels? (v : Value) : Option Value := if atLeast? 1 v = some true then some v else none

/-- The number of bytes of a sample of so many bits, if it is one to four. A number that is not whole stays such
a number. -/
def sampleWidth? : Value → Option Value
  | .int bits =>
    let n := bits.fdiv 8
    if 1 ≤ n ∧ n ≤ 4 then some (.int n) else none
  | .bool _ => none
  | .real x =>
    match x.units? with
    | none => if x.isNaN then some (.real x) else none
    | some u =>
      let n := u.fdiv (8 * Nat.pow 2 Format.double.scale : Nat)
      if 1 ≤ n ∧ n ≤ 4 then (Double.ofInt? n).map .real else none
  | _ => none

/-- The sampling rate: a positive number, rounded to the nearest whole one, the even one in a tie; none may be
zero. -/
def rate? (v : Value) : Option Int :=
  match realOf [] v with
  | .error _ => none
  | .ok x =>
    if x.isPositive then
      match x.nearestInt? with
      | some n => if n = 0 then none else some n
      | none => none
    else none

/-- The parameters of a clip; what cannot be set is reported as missing, in the order of setting. -/
def formatOf (channels sampleWidth rate : Option Value) : Except Fault WaveFormat :=
  match channels.bind channels? with
  | none => .error (.wave "# channels not specified")
  | some c =>
    match sampleWidth.bind sampleWidth? with
    | none => .error (.wave "sample width not specified")
    | some w =>
      match rate.bind rate? with
      | none => .error (.wave "sampling rate not specified")
      | some r => .ok ⟨c, w, r⟩

/-- The whole number that a value stands for. -/
def whole : Value → Except Fault Int
  | .int n => .ok n
  | .bool b => .ok (if b then 1 else 0)
  | _ => .error (.record .notInteger)

/-- The header for `size` bytes of frames. -/
def header (f : WaveFormat) (size : Nat) : Except Fault Bytes := do
  let channels ← whole f.channels
  let width ← whole f.sampleWidth
  let total ← Field.long.packInt (36 + size)
  let c ← Field.u16.packInt channels
  let r ← Field.long.packInt f.rate
  let perSecond ← Field.long.packInt (channels * f.rate * width)
  let perFrame ← Field.u16.packInt (channels * width)
  let bits ← Field.u16.packInt (width * 8)
  let length ← Field.long.packInt size
  .ok (Bytes.ofText "RIFF" ++ total ++ Bytes.ofText "WAVEfmt " ++ Bytes.toLE 4 16 ++ Bytes.toLE 2 1 ++ c ++ r
    ++ perSecond ++ perFrame ++ bits ++ Bytes.ofText "data" ++ length)

/-- The file with some frames. -/
def encode (f : WaveFormat) (frames : Bytes) : Except Fault Bytes := do
  let head ← header f frames.length
  .ok (head ++ frames)

/-- The name of a compressed packing. -/
def compressed? : Value → Option String
  | .int 2 => some "ADPCM"
  | .int 3 => some "ADPCM_RESIDENT"
  | .real x =>
    match x.toInt? with
    | some 2 => some "ADPCM"
    | some 3 => some "ADPCM_RESIDENT"
    | _ => none
  | _ => none

/-- The wave file of a clip. Compressed clips are refused unless they are to be written as they are. -/
def ofClip (enforce : Bool) (c : Clip) : Except Fault Bytes := do
  let packing ← c.field "sound_pack"
  match compressed? packing with
  | some name => ensure enforce (.exporting ("Can not unpack " ++ name))
  | none => .ok ()
  let format ← formatOf (c.fields.lookup "channels") (c.fields.lookup "sample_width") (c.fields.lookup "frame_rate")
  -- the header is written before anything about the frames can fail
  let _ ← header format 0
  let frames ← c.field "frames"
  match frames with
  | .blob b => encode format b
  | _ => .error .mismatch

end Wave

end GameData.Sound
