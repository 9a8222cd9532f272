import Mathlib.Data.Fintype.Pi
/-!
# MidiSong — a Standard MIDI File as one list of messages

`SongEvent` and `Song` of MidiPlayer's `Song.h`.
-/
namespace Prose
namespace MidiPlayer

/-- A channel message has its data in `data1` and `data2`; a system exclusive (`0xF0`) and raw bytes (`0xF7`) have their body in
the song's data. -/
structure SongEvent where
  time : ℕ
  status : UInt8
  data1 : UInt8
  data2 : UInt8
  offset : ℕ
  length : ℕ
  deriving DecidableEq

structure Song where
  events : List SongEvent
  data : List UInt8
  title : List UInt8
  duration : ℕ
  usedChannels : Fin 16 → Bool
  firstProgram : Fin 16 → Option UInt8

def Song.body (song : Song) (e : SongEvent) : List UInt8 := (song.data.drop e.offset).take e.length

def channelOf (status : UInt8) : Fin 16 := Fin.ofNat 16 status.toNat

end MidiPlayer
end Prose
