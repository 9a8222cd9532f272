import Mathlib.Logic.Function.Basic
import Mathlib.Order.Nat
import Prose.Runs
import Prose.Tasks
/-!
# SoundModel — the sessions of virtio_sound

`snd_pcm_start`, `snd_pcm_stop`, `snd_submit`, `snd_tx_callback` and `buffer_exchange`, with the device.  The calls come one after
the other, and the callback is called when the bus likes, on any CPU.  A submission is known by its number; beside each completion
in the ring stands the submission the device returned.  What is only counted for a log is left out.
-/
namespace Prose
namespace Sound

open Tasks

/-- `MAX_BUFFERS`. -/
def maxBuffers : Nat := 4

/-- What `get_buffers` has made: none yet, or so many buffers. -/
structure Config where
  area : Bool := true
  bufferCount : Nat
  frames : Nat
  rateHz : Nat
  bufferCount_le : bufferCount ≤ maxBuffers

structure Sub where
  id : Nat
  index : Nat
  session : Nat
  deriving DecidableEq

/-- What `buffer_exchange` finds in the ring, and what the device returned there. -/
structure Taken where
  index : Nat
  completedAt : Int
  sub : Option Sub
  deriving DecidableEq

/-- The `multi_buffer_info` it fills in. -/
structure Info where
  playbackBufferCycle : Nat
  playedRealTime : Int
  playedFramesCount : Int

/-- `VIRTIO_SND_R_PCM_…`. -/
inductive Code
  | setParams
  | prepare
  | start
  | stop
  | release

inductive Act
  | copyIn
  | running
  | prepared
  | toSubmit
  | request (code : Code)
  | setPrepared
  /-- the locked part of `snd_pcm_start` -/
  | reset
  | clearToSubmit
  | started
  /-- the locked parts of `snd_submit`, and `queue_request_v` between them -/
  | mark (index : Nat)
  | queue (sub : Sub)
  | unmark (sub : Sub)
  | countSubmitted
  /-- `readySem`, for two seconds at most -/
  | acquire
  | takeCompleted
  /-- the schedule, and who has the buffer now -/
  | exchanged (t : Taken)
  | copyOut (info : Info)
  /-- half a second at most, for `inFlight` -/
  | drain
  | stopped
  /-- the locked part of `snd_pcm_stop` -/
  | clear
  /-- `readySem`, until there is no more -/
  | drainSem
  | finish
  /-- of the callback -/
  | dequeue
  | take (sub : Sub)
  | releaseSem

abbrev Answer : Act → Type
  | .copyIn | .running | .prepared | .request _ | .queue _ | .acquire | .copyOut _ | .take _ => Bool
  | .toSubmit => Option Nat
  | .mark _ => Sub
  | .takeCompleted => Taken
  | .exchanged _ => Info
  | .dequeue => Option Sub
  | _ => Unit

abbrev Hook := Prog Act Answer

abbrev ask (a : Act) : Hook (Answer a) := Prog.one a

/-! ## The functions -/

/-- `snd_submit`; whether the buffer is queued. -/
def submit (index : Nat) : Hook Bool := do
  let sub ← ask (.mark index)
  if ← ask (.queue sub) then
    ask .countSubmitted
    pure true
  else
    ask (.unmark sub)
    pure false

/-- The loop of `snd_pcm_start`, over so many buffers from that one on. -/
def submitFrom : Nat → Nat → Hook Bool
  | _, 0 => pure true
  | i, n + 1 => do
    if ← submit i then submitFrom (i + 1) n else pure false

/-- The end of `snd_pcm_start`. -/
def startPlaying : Hook Bool := do
  if ← ask (.request .start) then
    ask .started
    pure true
  else pure false

/-- `snd_pcm_start`. -/
def start (c : Config) : Hook Bool := do
  if ← ask (.request .setParams) then
    if ← ask (.request .prepare) then
      ask .setPrepared
      ask .reset
      ask .clearToSubmit
      if ← submitFrom 0 c.bufferCount then startPlaying else pure false
    else pure false
  else pure false

/-- The first half of `buffer_exchange`: the device has something to play. -/
def feed (c : Config) (running : Bool) : Hook Bool :=
  if running then do
    match ← ask .toSubmit with
    | none => pure true
    | some index =>
      let _ ← submit index
      ask .clearToSubmit
      pure true
  else start c

def exchange : Hook Unit := do
  if ← ask .acquire then
    let t ← ask .takeCompleted
    let info ← ask (.exchanged t)
    let _ ← ask (.copyOut info)
    ask .finish
  else ask .finish

/-- `buffer_exchange`. -/
def bufferExchange (c : Config) : Hook Unit := do
  if ← ask .copyIn then
    if c.area then
      let running ← ask .running
      if ← feed c running then exchange else ask .finish
    else ask .finish
  else ask .finish

/-- What `snd_pcm_stop` asks the device to do. -/
def halt (running : Bool) : Hook Unit :=
  if running then do
    let _ ← ask (.request .stop)
  else pure ()

def giveBack (prepared : Bool) : Hook Unit :=
  if prepared then do
    ask .drain
    let _ ← ask (.request .release)
  else pure ()

/-- `snd_pcm_stop`. -/
def stop : Hook Unit := do
  let running ← ask .running
  halt running
  let prepared ← ask .prepared
  giveBack prepared
  ask .stopped
  ask .clear
  ask .drainSem
  ask .finish

/-- `snd_tx_callback`, as far as it gets. -/
def txCallback (c : Config) : Nat → Hook Unit
  | 0 => pure ()
  | n + 1 => do
    match ← ask .dequeue with
    | none => pure ()
    | some sub =>
      if c.bufferCount ≤ sub.index then txCallback c n
      else if ← ask (.take sub) then
        ask .releaseSem
        txCallback c n
      else txCallback c n

/-! ## The stream, the device and the bus -/

structure Counted where
  session : Nat
  sub : Sub

/-- A buffer handed to the mixer in that session: what the device returned, and whether it has that buffer. -/
structure Handed where
  session : Nat
  index : Nat
  sub : Option Sub
  held : Bool
  deriving DecidableEq

structure State where
  /-- `playback_stream` -/
  readySem : Nat := 0
  generation : UInt32 := 0
  submittedGen : Nat → UInt32 := fun _ => 0
  inFlight : Int := 0
  staleCompletions : UInt32 := 0
  completed : Nat → Nat := fun _ => 0
  completedTime : Nat → Int := fun _ => 0
  completedHead : UInt32 := 0
  completedTail : UInt32 := 0
  toSubmit : Option Nat := none
  prepared : Bool := false
  running : Bool := false
  submitted : UInt32 := 0
  exchanges : UInt32 := 0
  anchorTime : Int := 0
  anchorExchanges : UInt32 := 0
  /-- the submissions: on their way to the queue, with the device, on the used ring, in a callback's hand -/
  pending : Option Sub := none
  device : List Sub := []
  used : List Sub := []
  hands : List (Nat × Sub) := []
  /-- what stands beside `completed` -/
  returned : Nat → Option Sub := fun _ => none
  /-- how many submissions and sessions there have been, and whether one is on -/
  marks : Nat := 0
  sessions : Nat := 0
  live : Bool := false
  /-- the callbacks that have counted a completion the semaphore has no count of yet -/
  releasing : List Nat := []
  counted : List Counted := []
  handed : List Handed := []
  /-- a call is in the driver -/
  busy : Bool := false
  threads : List (Hook Unit) := []

/-- What the device, the bus manager, the caller's memory and the clock have to say. -/
structure Choice where
  ok : Bool := true
  time : Int := 0

namespace State

def out (s : State) : List Sub := s.pending.toList ++ (s.device ++ (s.used ++ s.hands.map (·.2)))

/-- The schedule of `buffer_exchange`: the anchors, and when the buffer is due. -/
def schedule (c : Config) (s : State) (now : Int) : Int × UInt32 × Int :=
  let period : Int := c.frames * 1000000 / c.rateHz
  let k := (s.exchanges - s.anchorExchanges + 1).toNat
  let scheduled := s.anchorTime + k * c.frames * 1000000 / c.rateHz
  if now + 500 < scheduled then (s.anchorTime, s.anchorExchanges, scheduled)
  else if now > scheduled + period then (now, s.exchanges + 1, now)
  else (s.anchorTime, s.anchorExchanges, scheduled)

/-- The `multi_buffer_info` of an exchange. -/
def info (c : Config) (s : State) (t : Taken) (now : Int) : Info where
  playbackBufferCycle := (t.index + 1) % c.bufferCount
  playedRealTime := (s.schedule c now).2.2
  playedFramesCount := ((s.exchanges + 1).toNat : Int) * c.frames

def slot (i : UInt32) : Nat := i.toNat % maxBuffers

/-- The locked part of the callback, on a submission of the session in progress. -/
def count (s : State) (i : Nat) (sub : Sub) (now : Int) : State :=
  { s with
    submittedGen := Function.update s.submittedGen sub.index 0
    inFlight := s.inFlight - 1
    completed := Function.update s.completed (slot s.completedHead) sub.index
    completedTime := Function.update s.completedTime (slot s.completedHead) now
    returned := Function.update s.returned (slot s.completedHead) (some sub)
    completedHead := s.completedHead + 1
    releasing := i :: s.releasing
    counted := ⟨s.sessions, sub⟩ :: s.counted }

def perform (c : Config) (s : State) (i : Nat) (ch : Choice) : (a : Act) → Option (State × Answer a)
  | .copyIn => some (s, ch.ok)
  | .running => some (s, s.running)
  | .prepared => some (s, s.prepared)
  | .toSubmit => some (s, s.toSubmit)
  | .request _ => some (s, ch.ok)
  | .setPrepared => some ({ s with prepared := true }, ())
  | .reset =>
    some ({ s with
      generation := s.generation + 1, submittedGen := fun _ => 0, inFlight := 0, completedHead := 0, completedTail := 0
      sessions := s.sessions + 1, live := true }, ())
  | .clearToSubmit => some ({ s with toSubmit := none }, ())
  | .started => some ({ s with exchanges := 0, anchorTime := ch.time, anchorExchanges := 0, running := true }, ())
  | .mark index =>
    some ({ s with
      submittedGen := Function.update s.submittedGen index s.generation, inFlight := s.inFlight + 1
      pending := some ⟨s.marks, index, s.sessions⟩, marks := s.marks + 1 }, ⟨s.marks, index, s.sessions⟩)
  | .queue sub => some (if ch.ok then { s with pending := none, device := s.device ++ [sub] } else s, ch.ok)
  | .unmark sub =>
    some ({ s with
      submittedGen := Function.update s.submittedGen sub.index 0, inFlight := s.inFlight - 1, pending := none }, ())
  | .countSubmitted => some ({ s with submitted := s.submitted + 1 }, ())
  | .acquire =>
    if ch.ok then if s.readySem ≠ 0 then some ({ s with readySem := s.readySem - 1 }, true) else none else some (s, false)
  | .takeCompleted =>
    some ({ s with completedTail := s.completedTail + 1 },
      ⟨s.completed (slot s.completedTail), s.completedTime (slot s.completedTail), s.returned (slot s.completedTail)⟩)
  | .exchanged t =>
    some ({ s with
      anchorTime := (s.schedule c ch.time).1, anchorExchanges := (s.schedule c ch.time).2.1
      toSubmit := some t.index, exchanges := s.exchanges + 1
      handed := ⟨s.sessions, t.index, t.sub, s.device.any (·.index = t.index)⟩ :: s.handed }, s.info c t ch.time)
  | .copyOut _ => some (s, ch.ok)
  | .drain => some (s, ())
  | .stopped => some ({ s with running := false, prepared := false }, ())
  | .clear =>
    some ({ s with
      completedHead := 0, completedTail := 0, toSubmit := none, inFlight := 0, submittedGen := fun _ => 0, live := false }, ())
  -- one failed attempt ends the loop, and takes nothing: what came before is gone
  | .drainSem => some ({ s with readySem := 0 }, ())
  | .finish => some ({ s with busy := false }, ())
  | .dequeue =>
    match s.used with
    | []          => some (s, none)
    | sub :: rest => some ({ s with used := rest, hands := (i, sub) :: s.hands }, some sub)
  | .take sub =>
    if s.submittedGen sub.index = s.generation then
      some ({ s.count i sub ch.time with hands := s.hands.erase (i, sub) }, true)
    else some ({ s with staleCompletions := s.staleCompletions + 1, hands := s.hands.erase (i, sub) }, false)
  | .releaseSem => some ({ s with readySem := s.readySem + 1, releasing := s.releasing.erase i }, ())

end State

inductive Event
  /-- the calls -/
  | bufferExchange
  | stop
  | act (i : Nat) (ch : Choice)
  /-- the device has finished with one of the buffers -/
  | finished (k : Nat)
  | callback (rounds : Nat)

namespace State

def step (c : Config) (s : State) : Event → Option State
  | .bufferExchange =>
    if s.busy = false then some { s with busy := true, threads := s.threads ++ [Sound.bufferExchange c] } else none
  | .stop => if s.busy = false then some { s with busy := true, threads := s.threads ++ [Sound.stop] } else none
  | .act i ch =>
    match s.threads[i]? with
    | some (.act a k) => (s.perform c i ch a).map fun x => { x.1 with threads := x.1.threads.set i (k x.2) }
    | _ => none
  | .finished k =>
    match s.device[k]? with
    | some sub => some { s with device := s.device.eraseIdx k, used := s.used ++ [sub] }
    | none => none
  | .callback rounds => some { s with threads := s.threads ++ [txCallback c rounds] }

end State

/-! ## What is promised -/

/-- **Sessions do not leak into each other.** -/
structure Kept (s : State) : Prop where
  inFlight : s.live = true → s.inFlight = (s.out.countP (·.session = s.sessions) : Int)
  counted : ∀ x ∈ s.counted, x.sub.session = x.session
  once : (s.counted.map Counted.sub).Nodup
  handed : ∀ x ∈ s.handed, x.held = false ∧ ∃ sub, x.sub = some sub ∧ sub.session = x.session ∧ sub.index = x.index
  handedOnce : (s.handed.map Handed.sub).Nodup

/-- A session begins with an empty semaphore, no count on its way there and a generation that is not 0, and a buffer is submitted
when the device has returned every submission of it. -/
def FineAct (s : State) : Act → Prop
  | .reset => s.readySem = 0 ∧ s.releasing = [] ∧ s.generation + 1 ≠ 0
  | .mark index => ∀ sub ∈ s.out, sub.index ≠ index
  | _ => True

def Fine (s : State) : Event → Prop
  | .act i _ =>
    match s.threads[i]? with
    | some (.act a _) => FineAct s a
    | _ => True
  | _ => True

instance (s : State) : (a : Act) → Decidable (FineAct s a)
  | .reset => inferInstanceAs (Decidable (s.readySem = 0 ∧ s.releasing = [] ∧ s.generation + 1 ≠ 0))
  | .mark index => inferInstanceAs (Decidable (∀ sub ∈ s.out, sub.index ≠ index))
  | .copyIn | .running | .prepared | .toSubmit | .request _ | .setPrepared | .clearToSubmit | .started | .queue _ | .unmark _ |
    .countSubmitted | .acquire | .takeCompleted | .exchanged _ | .copyOut _ | .drain | .stopped | .clear | .drainSem | .finish |
    .dequeue | .take _ | .releaseSem => isTrue trivial

instance (s : State) : (e : Event) → Decidable (Fine s e)
  | .act i _ => by
    unfold Fine
    dsimp only
    split <;> infer_instance
  | .bufferExchange | .stop | .finished _ | .callback _ => isTrue trivial

end Sound
end Prose
