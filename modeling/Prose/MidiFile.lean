import Prose.MidiSong
import Prose.Bytes
import Prose.Loops
import Mathlib.Algebra.Order.Floor.Ring
import Mathlib.Data.Rat.Floor
/-!
# MidiFile — a Standard MIDI File is read

`Reader`, `Song::SetTo` and `Song::_ReadTrack` of MidiPlayer's `Song.cpp`.  A read outside of the bytes there are has no outcome.
The arithmetic of times is exact.
-/
namespace Prose
namespace MidiPlayer

open Bytes

/-! ## Reading -/

/-- Why something is not read: it would be outside of the bytes there are, or a `break` of the source. -/
inductive Stop
  | outside
  | over

def reading {α : Type} : Option α → Except Stop α
  | none   => .error .outside
  | some a => .ok a

/-- `Reader::Byte`: the next byte, and the bytes behind it. -/
def byte (here : List UInt8) : Except Stop (UInt8 × List UInt8) :=
  if here.length ≤ 0 then .error .over
  else do
    let value ← reading here[0]?
    return (value, here.drop 1)

def variableLengthLoop : ℕ → ℕ → List UInt8 → Except Stop (ℕ × List UInt8)
  | 0, _, _            => .error .over
  | n + 1, value, here => do
    let (b, here) ← byte here
    let value := value * 128 + b.toNat % 128
    if b < 0x80 then return (value, here) else variableLengthLoop n value here

/-- `Reader::VariableLength`: four bytes at most, of seven bits each. -/
def variableLength (here : List UInt8) : Except Stop (ℕ × List UInt8) := variableLengthLoop 4 0 here

/-- `Here` and `Skip`: so many bytes, and those behind them. -/
def take (length : ℕ) (here : List UInt8) : Except Stop (List UInt8 × List UInt8) :=
  if here.length < length then .error .over
  else do
    let body ← reading (slice here 0 length)
    return (body, here.drop length)

/-- `Big16` and `Big32`: the highest byte first. -/
def big (p : List UInt8) : ℕ := nat p.reverse

/-! ## Text -/

def isUTF8Loop : ℕ → List UInt8 → Bool
  | 0, _          => true
  | _ + 1, []     => true
  | n + 1, c :: t =>
    let more := if c < 0x80 then 0 else if c &&& 0xe0 = 0xc0 then 1 else if c &&& 0xf0 = 0xe0 then 2
      else if c &&& 0xf8 = 0xf0 then 3 else 4
    if more = 4 ∨ t.length < more then false
    else if (t.take more).all (· &&& 0xc0 == 0x80) then isUTF8Loop n (t.drop more)
    else false

def isUTF8 (text : List UInt8) : Bool := isUTF8Loop text.length text

def isSpace (c : UInt8) : Bool := c = 32 || (9 ≤ c && c ≤ 13)

def trim (text : List UInt8) : List UInt8 := ((text.dropWhile isSpace).reverse.dropWhile isSpace).reverse

def textFromMidi (text : List UInt8) : List UInt8 :=
  let text := text.takeWhile (· ≠ 0)
  trim (if isUTF8 text then text
    else text.flatMap fun c => if c < 0x80 then [c] else [(0xc0 : UInt8) ||| c >>> 6, 0x80 ||| (c &&& 0x3f)])

/-! ## Tracks -/

structure RawEvent where
  tick : ℕ
  order : ℕ
  tempo : ℕ
  event : SongEvent
  deriving DecidableEq

/-- What `_ReadTrack` works on. -/
structure Reading where
  here : List UInt8 := []
  tick : ℕ := 0
  runningStatus : UInt8 := 0
  events : List RawEvent := []
  order : ℕ := 0
  data : List UInt8 := []
  title : List UInt8 := []
  deriving DecidableEq

namespace Reading

def push (tempo : ℕ) (e : SongEvent) (r : Reading) : Reading :=
  { r with events := r.events ++ [⟨r.tick, r.order, tempo, e⟩], order := (r.order + 1) % 2 ^ 32 }

def firstByte (first : Option UInt8) (here : List UInt8) : Except Stop (UInt8 × List UInt8) :=
  match first with
  | some b => .ok (b, here)
  | none   => byte here

def secondByte (status : UInt8) (here : List UInt8) : Except Stop (UInt8 × List UInt8) :=
  let type := status &&& 0xF0
  if type ≠ 0xC0 ∧ type ≠ 0xD0 then byte here else .ok (0, here)

def channel (status : UInt8) (first : Option UInt8) (r : Reading) : Except Stop Reading := do
  let (data1, here) ← firstByte first r.here
  let (data2, here) ← secondByte status here
  return { r with here := here, runningStatus := status }.push 0 ⟨0, status, data1 &&& 0x7f, data2 &&& 0x7f, 0, 0⟩

/-- A system exclusive without its last `F7`, or raw bytes as they are. -/
def packet (status : UInt8) (r : Reading) : Except Stop Reading := do
  let (length, here) ← variableLength r.here
  let (body, here) ← take length here
  let bodyLength := if status = 0xF0 ∧ 0 < length ∧ body[length - 1]? = some 0xF7 then length - 1 else length
  return { r with here := here, runningStatus := 0, data := r.data ++ body.take bodyLength }.push 0
    ⟨0, status, 0, 0, r.data.length % 2 ^ 32, bodyLength⟩

def metaEvent (track : ℕ) (r : Reading) : Except Stop Reading := do
  let (type, here) ← byte r.here
  let (length, here) ← variableLength here
  let (body, here) ← take length here
  let r := { r with here := here, runningStatus := 0 }
  if type = 0x2F then .error .over
  else if type = 0x51 ∧ length = 3 then
    return if big body = 0 then r else r.push (big body) ⟨0, 0, 0, 0, 0, 0⟩
  else
    return { r with title := if type = 0x03 ∧ track = 0 ∧ r.title = [] then textFromMidi body else r.title }

/-- What follows the status byte.  Under the running status the byte in its place is the first of the data. -/
def event (track : ℕ) (status : UInt8) (first : Option UInt8) (r : Reading) : Except Stop Reading :=
  if status < 0xF0 then r.channel status first
  else if status = 0xF0 ∨ status = 0xF7 then r.packet status
  else if status = 0xFF then r.metaEvent track
  else .error .over

def next (track : ℕ) (status : UInt8) (r : Reading) : Except Stop Reading :=
  if status < 0x80 then if r.runningStatus = 0 then .error .over else r.event track r.runningStatus (some status)
  else r.event track status none

def deltaAndStatus (here : List UInt8) : Except Stop (ℕ × UInt8 × List UInt8) := do
  let (delta, here) ← variableLength here
  let (status, here) ← byte here
  return (delta, status, here)

/-- A turn of the loop of `_ReadTrack`. -/
def step (track : ℕ) (r : Reading) : Option (Reading ⊕ Reading) :=
  if r.here.length ≤ 0 then some (.inr r)
  else
    match deltaAndStatus r.here with
    | .error .outside            => none
    | .error .over               => some (.inr r)
    | .ok (delta, status, here) =>
      let r := { r with here := here, tick := (r.tick + delta) % 2 ^ 32 }
      match r.next track status with
      | .error .outside => none
      | .error .over    => some (.inr r)
      | .ok r           => some (.inl r)

def readTrack (track : ℕ) (here : List UInt8) (r : Reading) : Option Reading :=
  Loops.loop (step track) (here.length + 1) { r with here := here, tick := 0, runningStatus := 0 }

end Reading

/-! ## Chunks -/

def riffId : List UInt8 := [0x52, 0x49, 0x46, 0x46]
def rmidId : List UInt8 := [0x52, 0x4D, 0x49, 0x44]
def dataId : List UInt8 := [0x64, 0x61, 0x74, 0x61]
def headId : List UInt8 := [0x4D, 0x54, 0x68, 0x64]
def trackId : List UInt8 := [0x4D, 0x54, 0x72, 0x6B]

/-- A turn of the loop over the chunks of the wrapper: the next one's position, or what its "data" chunk has. -/
def riffStep (file : List UInt8) (position : ℕ) : Option (ℕ ⊕ Option (List UInt8)) :=
  if position + 8 ≤ file.length then do
    let id ← slice file position 4
    let chunkSize ← natAt file (position + 4) 4
    if id = dataId then
      let smf ← slice file (position + 8) (min chunkSize (file.length - position - 8))
      return .inr (some smf)
    else return .inl (position + 8 + chunkSize + chunkSize % 2)
  else some (.inr none)

/-- The Standard MIDI File of an "RMID" wrapper is its "data" chunk. -/
def unwrap (file : List UInt8) : Option (Option (List UInt8)) :=
  if 12 ≤ file.length then do
    let id ← slice file 0 4
    if id = riffId then
      let form ← slice file 8 4
      if form = rmidId then Loops.loop (riffStep file) (file.length + 1) 12 else return some file
    else return some file
  else some (some file)

structure Header where
  size : ℕ
  format : ℕ
  trackCount : ℕ
  division : ℕ
  deriving DecidableEq

/-- None is `B_BAD_DATA`. -/
def header (smf : List UInt8) : Option (Option Header) :=
  if smf.length < 14 then some none
  else do
    let id ← slice smf 0 4
    if id ≠ headId then return none
    else
      let headerSize := big (← slice smf 4 4)
      if headerSize < 6 ∨ smf.length < 8 + headerSize then return none
      else
        let format := big (← slice smf 8 2)
        let trackCount := big (← slice smf 10 2)
        let division := big (← slice smf 12 2)
        return if 2 < format ∨ division = 0 then none else some ⟨headerSize, format, trackCount, division⟩

structure Tracks where
  position : ℕ
  track : ℕ := 0
  reading : Reading := {}
  endTick : ℕ := 0
  deriving DecidableEq

def Tracks.step (smf : List UInt8) (trackCount : ℕ) (t : Tracks) : Option (Tracks ⊕ Tracks) :=
  if t.track < trackCount ∧ t.position + 8 ≤ smf.length then do
    let id ← slice smf t.position 4
    let claimed := big (← slice smf (t.position + 4) 4)
    -- a chunk that claims more than the file has: read what there is
    let chunkSize := min claimed (smf.length - t.position - 8)
    let position := t.position + 8 + chunkSize
    if id ≠ trackId then return .inl { t with position := position }
    else
      let here ← slice smf (t.position + 8) chunkSize
      let r ← t.reading.readTrack t.track here
      return .inl ⟨position, t.track + 1, r, max t.endTick r.tick⟩
  else some (.inr t)

def earlier (a b : RawEvent) : Bool := a.tick < b.tick || (a.tick == b.tick && a.order < b.order)

/-- `std::stable_sort`. -/
def sorted (raw : List RawEvent) : List RawEvent := raw.mergeSort fun a b => !earlier b a

/-! ## Times -/

def isSmpte (division : ℕ) : Bool := 0x8000 ≤ division

/-- None is `B_BAD_DATA`.  The high byte is the negative of the frames in a second. -/
def smpteTickLength (division : ℕ) : Option ℚ :=
  let framesPerSecond : ℤ := -((division / 256 : ℕ) - 256 : ℤ)
  let ticksPerFrame := division % 256
  if framesPerSecond ≤ 0 ∨ ticksPerFrame = 0 then none
  else some (1000000 / ((if framesPerSecond = 29 then 2997 / 100 else (framesPerSecond : ℚ)) * ticksPerFrame))

/-- How many microseconds a tick takes: always as many, or as the tempo says. -/
def tickLength (smpte : Option ℚ) (division tempo : ℕ) : ℚ := smpte.getD (tempo / division)

structure Placing where
  time : ℚ := 0
  lastTick : ℕ := 0
  tempo : ℕ := 500000
  events : List SongEvent := []
  usedChannels : Fin 16 → Bool := fun _ => false
  firstProgram : Fin 16 → Option UInt8 := fun _ => none

def Placing.elapse (length : ℕ → ℚ) (tick : ℕ) (p : Placing) : ℚ :=
  p.time + ((tick + 2 ^ 32 - p.lastTick) % 2 ^ 32 : ℕ) * length p.tempo

def Placing.place (length : ℕ → ℚ) (p : Placing) (raw : RawEvent) : Placing :=
  let time := p.elapse length raw.tick
  if raw.tempo ≠ 0 then { p with time := time, lastTick := raw.tick, tempo := raw.tempo }
  else
    let status := raw.event.status
    let channel := channelOf status
    let p : Placing := { p with time := time, lastTick := raw.tick, events := p.events ++ [{ raw.event with time := ⌊time⌋.toNat }] }
    if 0x80 ≤ status ∧ status < 0xF0 then
      if status &&& 0xF0 = 0x90 ∧ 0 < raw.event.data2 then { p with usedChannels := Function.update p.usedChannels channel true }
      else if status &&& 0xF0 = 0xC0 ∧ p.firstProgram channel = none then
        { p with firstProgram := Function.update p.firstProgram channel (some raw.event.data1) }
      else p
    else p

def Placing.duration (length : ℕ → ℚ) (endTick : ℕ) (p : Placing) : ℕ :=
  ⌊if p.lastTick < endTick then p.elapse length endTick else p.time⌋.toNat

def failed (data title : List UInt8) : Song × Bool := (⟨[], data, title, 0, fun _ => false, fun _ => none⟩, false)

/-- All the tracks of a file, one list in time order, ticks to microseconds. -/
def place (division : ℕ) (smpte : Option ℚ) (t : Tracks) : Song × Bool :=
  let p := (sorted t.reading.events).foldl (Placing.place (tickLength smpte division)) {}
  (⟨p.events, t.reading.data, t.reading.title, p.duration (tickLength smpte division) t.endTick, p.usedChannels, p.firstProgram⟩,
    !p.events.isEmpty)

def readTracks (smf : List UInt8) (h : Header) : Option (Song × Bool) := do
  -- the sum of the header's size is one of 32 bits
  let t ← Loops.loop (Tracks.step smf h.trackCount) (smf.length + 1) { position := (8 + h.size) % 2 ^ 32 }
  if isSmpte h.division then
    match smpteTickLength h.division with
    | none        => return failed t.reading.data t.reading.title
    | some length => return place h.division (some length) t
  else return place h.division none t

/-- `Song::SetTo`: the song, and whether there is something to play. -/
def setTo (file : List UInt8) : Option (Song × Bool) := do
  match ← unwrap file with
  | none     => return failed [] []
  | some smf =>
    match ← header smf with
    | none   => return failed [] []
    | some h => readTracks smf h

end MidiPlayer
end Prose
