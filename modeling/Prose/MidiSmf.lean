import Prose.MidiFile
import Prose.MidiPlay
import Mathlib.Algebra.BigOperators.Group.Finset.Basic
/-!
# MidiSmf — what a Standard MIDI File says

The files of formats 0 and 1 with the choices there are in writing one: numbers with leading zeros, status bytes left out, unknown
chunks, a longer header, a "RMID" wrapper.  `Smf.expected` is what they say is sent, and when.
-/
namespace Prose
namespace MidiPlayer

open Bytes

/-! ## Numbers -/

def bigBytes (k n : ℕ) : List UInt8 := (le k n).reverse

structure Vlq where
  high : List (Fin 128)
  low : Fin 128
  short : high.length ≤ 3

namespace Vlq

def value (v : Vlq) : ℕ := (v.high.foldl (fun n b => n * 128 + b.val) 0) * 128 + v.low

def bytes (v : Vlq) : List UInt8 := v.high.map (fun b => .ofNat (128 + b.val)) ++ [.ofNat v.low.val]

end Vlq

structure Packet where
  length : Vlq
  body : List UInt8
  same : length.value = body.length

def Packet.bytes (p : Packet) : List UInt8 := p.length.bytes ++ p.body

/-! ## Tracks -/

def single (status : UInt8) : Bool := status &&& 0xF0 == 0xC0 || status &&& 0xF0 == 0xD0

structure ChannelMessage where
  status : UInt8
  data1 : UInt8
  data2 : UInt8
  isChannel : 0x80 ≤ status ∧ status < 0xF0
  isData : data1 < 0x80 ∧ data2 < 0x80
  isSingle : single status = true → data2 = 0

def ChannelMessage.data (m : ChannelMessage) : List UInt8 := if single m.status then [m.data1] else [m.data1, m.data2]

/-- A channel message, with its status byte or under the running one; a packet of an exclusive message, the first or a later one;
a tempo change; and other meta events. -/
inductive Item
  | message (m : ChannelMessage) (running : Bool)
  | exclusive (p : Packet)
  | escape (p : Packet)
  | tempo (length : Vlq) (value : ℕ) (h : length.value = 3 ∧ 0 < value ∧ value < 256 ^ 3)
  | other (type : UInt8) (p : Packet) (h : type ≠ 0x2F ∧ type ≠ 0x51)

namespace Item

def bytes : Item → List UInt8
  | message m running    => (if running then [] else [m.status]) ++ m.data
  | exclusive p          => 0xF0 :: p.bytes
  | escape p             => 0xF7 :: p.bytes
  | tempo length value _ => 0xFF :: 0x51 :: (length.bytes ++ bigBytes 3 value)
  | other type p _       => 0xFF :: type :: p.bytes

def inForce : Item → UInt8
  | message m _ => m.status
  | _           => 0

def Ok (status : UInt8) : Item → Prop
  | message m running => running = true → m.status = status
  | _                 => True

def isMessage : Item → Bool
  | message _ _ => true
  | exclusive _ => true
  | escape _    => true
  | _           => false

def tempoValue : Item → ℕ
  | tempo _ value _ => value
  | _               => 0

def counts : Item → Bool
  | other _ _ _ => false
  | _           => true

def sent (volume : ℚ) : Item → List UInt8
  | message m _ =>
    if single m.status then [m.status, m.data1]
    else [m.status, m.data1, if m.status &&& 0xF0 = 0xB0 ∧ m.data1 = 7 then scaledVolume volume m.data2 else m.data2]
  | exclusive p => 0xF0 :: p.body
  | escape p    => p.body
  | _           => []

def Closed : Item → Prop
  | exclusive p => p.body.getLast? = some 0xF7
  | _           => True

end Item

def Running : UInt8 → List (Vlq × Item) → Prop
  | _, []                => True
  | status, (_, i) :: es => i.Ok status ∧ Running i.inForce es

/-- The items, each behind its delta time, and the end of the track. -/
structure Track where
  events : List (Vlq × Item)
  running : Running 0 events
  endDelta : Vlq
  endLength : Vlq
  endZero : endLength.value = 0

def eventBytes (e : Vlq × Item) : List UInt8 := e.1.bytes ++ e.2.bytes

def Track.bytes (t : Track) : List UInt8 :=
  t.events.flatMap eventBytes ++ (t.endDelta.bytes ++ (0xFF :: 0x2F :: t.endLength.bytes))

def ticked : ℕ → List (Vlq × Item) → List (ℕ × Item)
  | _, []           => []
  | tick, (d, i) :: es => (tick + d.value, i) :: ticked (tick + d.value) es

/-! ## Files -/

inductive Chunk
  | track (t : Track)
  | other (id body : List UInt8) (h : id.length = 4 ∧ id ≠ trackId)

namespace Chunk

def id : Chunk → List UInt8
  | track _      => trackId
  | other id _ _ => id

def body : Chunk → List UInt8
  | track t        => t.bytes
  | other _ body _ => body

def bytes (c : Chunk) : List UInt8 := c.id ++ (bigBytes 4 c.body.length ++ c.body)

def track? : Chunk → Option Track
  | track t     => some t
  | other _ _ _ => none

end Chunk

/-- Ticks in a quarter note, or frames in a second and ticks in a frame. -/
inductive Division
  | metrical (ticks : ℕ) (h : 0 < ticks ∧ ticks < 2 ^ 15)
  | smpte (frames ticks : ℕ) (h : frames ∈ [24, 25, 29, 30] ∧ 0 < ticks ∧ ticks < 256)

namespace Division

def code : Division → ℕ
  | metrical ticks _     => ticks
  | smpte frames ticks _ => (256 - frames) * 256 + ticks

def rate (frames : ℕ) : ℚ := if frames = 29 then 2997 / 100 else frames

def length (tempo : ℕ) : Division → ℚ
  | metrical ticks _     => tempo / ticks
  | smpte frames ticks _ => 1000000 / (rate frames * ticks)

end Division

structure RiffChunk where
  id : List UInt8
  body : List UInt8
  named : id.length = 4 ∧ id ≠ dataId

def RiffChunk.bytes (c : RiffChunk) : List UInt8 :=
  c.id ++ (le 4 c.body.length ++ (c.body ++ List.replicate (c.body.length % 2) 0))

structure Wrapper where
  before : List RiffChunk
  behind : List UInt8

def Wrapper.content (w : Wrapper) (smf : List UInt8) : List UInt8 :=
  w.before.flatMap RiffChunk.bytes ++ (dataId ++ (le 4 smf.length ++ (smf ++ w.behind)))

def Wrapper.bytes (w : Wrapper) (smf : List UInt8) : List UInt8 :=
  riffId ++ (le 4 (4 + (w.content smf).length) ++ (rmidId ++ w.content smf))

structure Smf where
  format : Fin 2
  division : Division
  extra : List UInt8
  chunks : List Chunk
  wrapper : Option Wrapper
  few : (chunks.filterMap Chunk.track?).length < 2 ^ 16

namespace Smf

def tracks (f : Smf) : List Track := f.chunks.filterMap Chunk.track?

def headBytes (f : Smf) : List UInt8 :=
  headId ++ (bigBytes 4 (6 + f.extra.length) ++
    (bigBytes 2 f.format ++ (bigBytes 2 f.tracks.length ++ (bigBytes 2 f.division.code ++ f.extra))))

def plain (f : Smf) : List UInt8 := f.headBytes ++ f.chunks.flatMap Chunk.bytes

def bytes (f : Smf) : List UInt8 :=
  match f.wrapper with
  | none   => f.plain
  | some w => w.bytes f.plain

/-! ## What it says -/

def items (f : Smf) : List (ℕ × Item) := (f.tracks.flatMap fun t => ticked 0 t.events).filter (·.2.counts)

def inOrder (f : Smf) : List (ℕ × Item) := f.items.mergeSort fun a b => decide (a.1 ≤ b.1)

end Smf

def tempos (xs : List (ℕ × Item)) (tick : ℕ) : List ℕ :=
  (xs.filter fun x => decide (x.1 ≤ tick ∧ x.2.tempoValue ≠ 0)).map (·.2.tempoValue)

/-- The tempo in force: the last, and at first 120 beats per minute. -/
def tempoAt (xs : List (ℕ × Item)) (tick : ℕ) : ℕ := (tempos xs tick).getLast?.getD 500000

def clock (d : Division) (xs : List (ℕ × Item)) (tick : ℕ) : ℚ := ∑ t ∈ Finset.range tick, d.length (tempoAt xs t)

namespace Smf

def expected (volume : ℚ) (f : Smf) : List (ℕ × List UInt8) :=
  (f.inOrder.filter (·.2.isMessage)).map fun x => (⌊clock f.division f.inOrder x.1⌋.toNat, x.2.sent volume)

def Fits (f : Smf) : Prop := f.bytes.length < 2 ^ 32 ∧ ∀ x ∈ f.items, x.1 < 2 ^ 32

def Closed (f : Smf) : Prop := ∀ x ∈ f.items, x.2.Closed

end Smf

def Sent.bytes : Sent → List UInt8
  | .spray data _     => data
  | .exclusive body   => 0xF0 :: (body ++ [0xF7])

def Song.sent (volume : ℚ) (song : Song) : List (ℕ × List UInt8) :=
  song.events.map fun e => (e.time, (song.message volume e).bytes)

end MidiPlayer
end Prose
