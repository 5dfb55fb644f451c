import GameData.Batch.Terrain
import GameData.Sound.Clip
import GameData.Sound.Packed

/-!
Jobs on sounds.
-/
namespace GameData.Batch.Sounds

open Files Sound

/-- The parameters of the wave file of a sound. -/
def waveFormat (s : Packed) : WaveFormat :=
  ⟨.int (s.channels.getD 0), .int (s.sampleWidth.getD 0), s.rate.getD 0⟩

/-- Sounds as wave files. Of a compressed sound only the header can be written. -/
def exportWaves (r : Request) : Shell Unit := do
  let n ← r.foldSources ["*.wav"] 0 fun n p => do
    let data ← Shell.readBytes p
    let sound ← Terrain.loaded ((Packed.load data).fill {}) id
    let target ← r.moved p
    Shell.say target
    if ← r.onlySay then pure n
    else do
      Shell.makeFolderFor target
      Shell.writeBytes target []
      let head ← Filling.attempt (Wave.header (waveFormat sound) 0)
      Shell.writeBytes target head
      match sound.frames with
      | some (.stored frames) => do
        let wave ← Filling.attempt (Wave.encode (waveFormat sound) frames)
        Shell.writeBytes target wave
        pure (n + 1)
      | _ => throw .mismatch
  Shell.say s!"Converted: {n}"

end GameData.Batch.Sounds
