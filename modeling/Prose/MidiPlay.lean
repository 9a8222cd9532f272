import Prose.MidiSong
import Mathlib.Algebra.Order.Floor.Ring
import Mathlib.Data.Rat.Floor
/-!
# MidiPlay — how MidiPlayer sends a song, and sets an output up for the middle of it

`_SendLocked`, `_ScaledVolume`, `_ResetChannelsLocked` and `_ChaseLocked` of `SongPlayer.cpp`.
-/
namespace Prose
namespace MidiPlayer

inductive Sent
  | spray (data : List UInt8) (atomic : Bool)
  | exclusive (body : List UInt8)
  deriving DecidableEq

/-- `output` is whether there is one. -/
structure SongPlayer where
  output : Bool
  volume : ℚ
  songVolume : Fin 16 → UInt8
  program : Fin 16 → Option UInt8
  noteCount : Fin 16 → ℕ
  velocity : Fin 16 → UInt8
  held : Fin 16 → ℕ

def scaledVolume (volume : ℚ) (value : UInt8) : UInt8 :=
  let scaled := ⌊(value.toNat : ℚ) * volume + 1 / 2⌋
  if 127 < scaled then 127 else UInt8.ofNat scaled.toNat

namespace SongPlayer

def sendLocked (song : Song) (e : SongEvent) (p : SongPlayer) : SongPlayer × Sent :=
  if e.status = 0xF0 then (p, .exclusive (song.body e))
  else if e.status = 0xF7 then (p, .spray (song.body e) false)
  else
    let channel := channelOf e.status
    let high := e.status &&& 0xF0
    if high = 0x90 ∧ 0 < e.data2 then
      ({ p with
          velocity := Function.update p.velocity channel e.data2
          noteCount := Function.update p.noteCount channel (p.noteCount channel + 1)
          held := Function.update p.held channel (p.held channel + 1) }, .spray [e.status, e.data1, e.data2] true)
    else if high = 0x90 ∨ high = 0x80 then
      ({ p with held := Function.update p.held channel (p.held channel - 1) }, .spray [e.status, e.data1, e.data2] true)
    else if high = 0xB0 ∧ e.data1 = 7 then
      ({ p with songVolume := Function.update p.songVolume channel e.data2 },
        .spray [e.status, e.data1, scaledVolume p.volume e.data2] true)
    else if high = 0xC0 then
      ({ p with program := Function.update p.program channel (some e.data1) }, .spray [e.status, e.data1] true)
    else if high = 0xD0 then (p, .spray [e.status, e.data1] true)
    else (p, .spray [e.status, e.data1, e.data2] true)

def sendAll (song : Song) : List SongEvent → SongPlayer → SongPlayer × List Sent
  | [], p      => (p, [])
  | e :: es, p =>
    let r := sendAll song es (p.sendLocked song e).1
    (r.1, (p.sendLocked song e).2 :: r.2)

def controlChange (channel : Fin 16) (controller value : UInt8) : Sent :=
  .spray [0xB0 ||| UInt8.ofNat channel, controller, value] true

def programChange (channel : Fin 16) (program : UInt8) : Sent :=
  .spray [0xC0 ||| UInt8.ofNat channel, program] true

/-- What a channel is sent: all controllers reset, bank 0, program 0, the volume, and the panorama in the middle. -/
def reset (volume : ℚ) (channel : Fin 16) : List Sent :=
  [controlChange channel 121 0, controlChange channel 0 0, controlChange channel 32 0, programChange channel 0,
    controlChange channel 7 (scaledVolume volume 100), controlChange channel 10 64]

def resetChannelsLocked (song : Option Song) (p : SongPlayer) : SongPlayer × List Sent :=
  ({ p with
      held := fun _ => 0
      songVolume := fun _ => 100
      program := fun channel => song.bind (·.firstProgram channel) },
    if p.output then (List.finRange 16).flatMap (reset p.volume) else [])

inductive Choice
  | always
  | never
  | last (key : ℕ)

def choice (e : SongEvent) : Choice :=
  if 0xF0 ≤ e.status then .always
  else
    let channel := (channelOf e.status).val
    let high := e.status &&& 0xF0
    if high = 0xB0 then
      -- the controllers that select and set parameters only work in sequence
      if e.data1 = 6 ∨ e.data1 = 38 ∨ (96 ≤ e.data1 ∧ e.data1 ≤ 101) then .always
      else if 120 ≤ e.data1 then .never
      else .last (channel * 128 + e.data1.toNat)
    else if high = 0xC0 then .last (16 * 128 + channel)
    else if high = 0xD0 then .last (16 * 128 + 16 + channel)
    else if high = 0xE0 then .last (16 * 128 + 32 + channel)
    else .never

/-- From the last event to the first: the keys that have been seen, and what is kept. -/
def keep : List SongEvent → List ℕ × List Bool
  | []      => ([], [])
  | e :: es =>
    let r := keep es
    match choice e with
    | .always   => (r.1, true :: r.2)
    | .never    => (r.1, false :: r.2)
    | .last key => if key ∈ r.1 then (r.1, false :: r.2) else (key :: r.1, true :: r.2)

def marks (es : List SongEvent) : List (SongEvent × Bool) := es.zip (keep es).2

def chaseLocked (song : Option Song) (upTo : ℕ) (p : SongPlayer) : SongPlayer × List Sent :=
  match song with
  | none      => (p, [])
  | some song =>
    if !p.output || upTo = 0 then (p, [])
    else sendAll song ((marks (song.events.take upTo)).filter (·.2) |>.map Prod.fst) p

/-- An output is set up as at an event: `_ResetChannelsLocked`, and `_ChaseLocked`. -/
def setUp (song : Song) (upTo : ℕ) (p : SongPlayer) : SongPlayer × List Sent :=
  let r := resetChannelsLocked (some song) p
  let c := chaseLocked (some song) upTo r.1
  (c.1, r.2 ++ c.2)

end SongPlayer

/-! ## What is sent -/

def Song.message (song : Song) (volume : ℚ) (e : SongEvent) : Sent :=
  if e.status = 0xF0 then .exclusive (song.body e)
  else if e.status = 0xF7 then .spray (song.body e) false
  else if e.status &&& 0xF0 = 0xB0 ∧ e.data1 = 7 then .spray [e.status, e.data1, scaledVolume volume e.data2] true
  else if e.status &&& 0xF0 = 0xC0 ∨ e.status &&& 0xF0 = 0xD0 then .spray [e.status, e.data1] true
  else .spray [e.status, e.data1, e.data2] true

namespace SongPlayer

theorem sendLocked_sent (song : Song) (e : SongEvent) (p : SongPlayer) : (p.sendLocked song e).2 = song.message p.volume e := by
  unfold sendLocked Song.message
  dsimp only
  generalize e.status &&& 0xF0 = high
  split_ifs <;> grind

@[simp] theorem sendLocked_volume (song : Song) (e : SongEvent) (p : SongPlayer) : (p.sendLocked song e).1.volume = p.volume := by
  unfold sendLocked
  dsimp only
  split_ifs <;> rfl

theorem sendAll_sent (song : Song) : ∀ (es : List SongEvent) (p : SongPlayer), (sendAll song es p).2 = es.map (song.message p.volume)
  | [], _      => rfl
  | e :: es, p => by
    rw [sendAll, List.map_cons, sendLocked_sent, sendAll_sent song es, sendLocked_volume]

theorem length_keep : ∀ es : List SongEvent, (keep es).2.length = es.length
  | []      => rfl
  | e :: es => by
    have ih := length_keep es
    rw [keep]
    split
    · simp [ih]
    · simp [ih]
    · split <;> simp [ih]

theorem setUp_sent (song : Song) (upTo : ℕ) {p : SongPlayer} (hout : p.output = true) :
    (p.setUp song upTo).2 = (List.finRange 16).flatMap (reset p.volume) ++
      (((marks (song.events.take upTo)).filter (·.2)).map Prod.fst).map (song.message p.volume) := by
  have hreset : (resetChannelsLocked (some song) p).2 = (List.finRange 16).flatMap (reset p.volume) := if_pos hout
  rw [setUp]
  dsimp only
  rw [hreset]
  congr 1
  rw [chaseLocked]
  have hout' : (resetChannelsLocked (some song) p).1.output = true := hout
  rw [hout']
  by_cases hzero : upTo = 0
  · subst hzero
    simp [marks, keep]
  · simp only [Bool.not_true, Bool.false_or, decide_eq_true_eq, if_neg hzero]
    exact sendAll_sent _ _ _

end SongPlayer

end MidiPlayer
end Prose
