import Prose.RingBuffer
import Prose.Runs
import Prose.Tasks
/-!
# TransfersModel — the buffers of prose_portal and prose_midi

Two virtio queues of eight buffers each.  `prpt_write` and `prmd_write` take transmit buffers from a free list, and the callback puts
them back; the portal's callback keeps received buffers in a ring until `prpt_read`, the other's takes the bytes out at once.  What
is only counted for a log is left out.
-/
namespace Prose
namespace Transfers

open Tasks RingBuffers

inductive Driver
  | portal
  | midi
  deriving DecidableEq

/-- `BUFFER_COUNT`. -/
def bufferCount : Nat := 8

/-- `REPLY_SIZE`. -/
def replySize : Nat := 32768

/-- `BUFFER_SIZE` of prose_midi, and its `RX_RING_SIZE`. -/
def midiBufferSize : Nat := 256

def rxRingSize : Nat := 4096

/-- How long a received buffer is; `REQUEST_SIZE`. -/
def Driver.size : Driver → Nat
  | .portal => 4096
  | .midi => midiBufferSize

inductive Q
  | tx
  | rx
  deriving DecidableEq

structure Entry where
  index : Nat
  length : Nat
  deriving DecidableEq

inductive Act
  /-- `txLock`, `rxLock`; `txFree`, the portal's `rxAvailable` -/
  | lock (q : Q)
  | unlock (q : Q)
  | acquire (q : Q)
  | release (q : Q)
  /-- the locked part that takes the oldest of the free list, of the requests; and the callbacks' that puts one there -/
  | take (q : Q)
  | put (q : Q) (e : Entry)
  /-- `user_memcpy`, of so many bytes at most -/
  | copy (q : Q) (e : Entry) (wanted : Nat)
  /-- `queue_request_v` and `queue_dequeue` -/
  | queue (q : Q) (e : Entry)
  | dequeue (q : Q)
  /-- the end of a call or a callback: it has no buffer any more -/
  | over (q : Q)
  /-- the locked parts of `prmd_rx_callback` and `prmd_read`, and the semaphore between them -/
  | putBytes (e : Entry)
  | takeBytes (wanted : Nat)
  | acquireBytes
  | releaseBytes
  | copyBytes (chunk : List UInt8)

abbrev Answer : Act → Type
  | .acquire _ | .copy _ _ _ | .queue _ _ | .putBytes _ | .acquireBytes | .copyBytes _ => Bool
  | .take _ => Entry
  | .dequeue _ => Option Entry
  | .takeBytes _ => List UInt8
  | _ => Unit

abbrev Hook := Prog Act Answer

abbrev ask (a : Act) : Hook (Answer a) := Prog.one a

/-! ## The functions -/

/-- The end of the driver's `init_driver`: the buffers are posted, whether that works or not. -/
def post : List Nat → Hook Unit
  | [] => ask (.over .rx)
  | index :: rest => do
    let _ ← ask (.queue .rx ⟨index, 0⟩)
    post rest

/-- `prpt_tx_callback`, `prmd_tx_callback`, as far as they get. -/
def txCallback : Nat → Hook Unit
  | 0 => pure ()
  | n + 1 => do
    match ← ask (.dequeue .tx) with
    | none => pure ()
    | some e =>
      if bufferCount ≤ e.index then txCallback n
      else
        ask (.put .tx e)
        ask (.release .tx)
        txCallback n

/-- `prpt_rx_callback`. -/
def portalRxCallback : Nat → Hook Unit
  | 0 => pure ()
  | n + 1 => do
    match ← ask (.dequeue .rx) with
    | none => pure ()
    | some e =>
      if bufferCount ≤ e.index then portalRxCallback n
      else
        ask (.put .rx e)
        ask (.release .rx)
        portalRxCallback n

/-- The end of a round of `prmd_rx_callback`. -/
def wake (added : Bool) : Hook Unit := if added then ask .releaseBytes else pure ()

/-- `prmd_rx_callback`. -/
def midiRxCallback : Nat → Hook Unit
  | 0 => ask (.over .rx)
  | n + 1 => do
    match ← ask (.dequeue .rx) with
    | none => ask (.over .rx)
    | some e =>
      if bufferCount ≤ e.index then midiRxCallback n
      else
        let added ← ask (.putBytes e)
        let _ ← ask (.queue .rx e)
        wake added
        midiRxCallback n

/-- `prpt_read`. -/
def portalRead (wanted : Nat) : Hook Unit := do
  if ← ask (.acquire .rx) then
    ask (.lock .rx)
    let e ← ask (.take .rx)
    let _ ← ask (.copy .rx e wanted)
    let _ ← ask (.queue .rx e)
    ask (.over .rx)
    ask (.unlock .rx)
  else pure ()

def written : Hook Unit := do
  ask (.over .tx)
  ask (.unlock .tx)

/-- `prpt_write`. -/
def portalWrite (length : Nat) : Hook Unit :=
  if replySize < length then pure ()
  else do
    ask (.lock .tx)
    if ← ask (.acquire .tx) then
      let e ← ask (.take .tx)
      if ← ask (.copy .tx e length) then
        let _ ← ask (.queue .tx e)
        written
      else written
    else written

/-- `prmd_read`, as far as it gets. -/
def midiRead (wanted : Nat) : Nat → Hook Unit
  | 0 => pure ()
  | n + 1 => do
    let chunk ← ask (.takeBytes wanted)
    if chunk ≠ [] then
      let _ ← ask (.copyBytes chunk)
      pure ()
    else if ← ask .acquireBytes then midiRead wanted n
    else pure ()

/-- The loop of `prmd_write`, of which `length` is left. -/
def writeFrom : Nat → Nat → Hook Unit
  | _, 0 => written
  | length, n + 1 =>
    if length = 0 then written
    else do
      if ← ask (.acquire .tx) then
        let e ← ask (.take .tx)
        if ← ask (.copy .tx e (min length midiBufferSize)) then
          if ← ask (.queue .tx e) then writeFrom (length - min length midiBufferSize) n
          else written
        else written
      else written

/-- `prmd_write`: every round takes a byte at least. -/
def midiWrite (length : Nat) : Hook Unit := do
  ask (.lock .tx)
  writeFrom length (length + 1)

def Driver.read : Driver → Nat → Nat → Hook Unit
  | .portal, wanted, _ => portalRead wanted
  | .midi, wanted, rounds => midiRead wanted rounds

def Driver.write : Driver → Nat → Hook Unit
  | .portal => portalWrite
  | .midi => midiWrite

def Driver.callback : Driver → Q → Nat → Hook Unit
  | _, .tx => txCallback
  | .portal, .rx => portalRxCallback
  | .midi, .rx => midiRxCallback

/-! ## The buffers and the bus -/

/-- One queue, and its buffers: free or unread ones in the ring, those with the device, those it has returned, and those in the hands
of a callback and of a call. -/
structure Side where
  sem : Nat := 0
  ring : RingBuffer Entry
  lock : Option Nat := none
  device : List Nat := []
  used : List Entry := []
  back : List (Nat × Entry) := []
  hands : List (Nat × Entry) := []
  /-- the threads that have taken a count and nothing from the ring yet, and those that have put something there and given no count -/
  claimed : List Nat := []
  pending : List Nat := []
  /-- what the thread with the lock has taken and not copied yet -/
  taken : Option Entry := none

structure State where
  sides : Q → Side
  /-- what the device has written into each buffer -/
  data : Nat → List UInt8 := fun _ => []
  /-- `rxRing` of prose_midi, and its `rxAvailable` -/
  bytes : RingBuffer UInt8 := { slots := fun _ => 0 }
  bytesSem : Nat := 0
  /-- what the device has sent, and what the reads have handed out -/
  completed : List (List UInt8) := []
  delivered : List (List UInt8) := []
  threads : List (Hook Unit)

/-- What the caller's memory, the bus manager and signals have to say. -/
structure Choice where
  ok : Bool := true

/-- The free transmit buffers, and the received ones that `init_driver` is about to post. -/
def start : State where
  sides
    | .tx => { sem := bufferCount, ring := { slots := fun i => ⟨i, 0⟩, head := 8 } }
    | .rx => { ring := { slots := fun _ => ⟨0, 0⟩ }, hands := (List.range bufferCount).map fun i => (0, ⟨i, 0⟩) }
  threads := [post (List.range bufferCount)]

/-- The loop of `prmd_rx_callback` over the bytes, and whether any has room. -/
def pushBytes : RingBuffer UInt8 → List UInt8 → Bool → RingBuffer UInt8 × Bool
  | r, [], added => (r, added)
  | r, b :: bs, added => if rxRingSize ≤ r.count then (r, added) else pushBytes (r.put rxRingSize b) bs true

/-- The loop of `prmd_read`. -/
def popBytes : Nat → RingBuffer UInt8 → List UInt8 × RingBuffer UInt8
  | 0, r => ([], r)
  | n + 1, r =>
    if r.tail = r.head then ([], r)
    else (r.first rxRingSize :: (popBytes n r.drop).1, (popBytes n r.drop).2)

namespace State

def onSide (s : State) (q : Q) (x : Side) : State := { s with sides := Function.update s.sides q x }

def perform (d : Driver) (s : State) (i : Nat) (ch : Choice) : (a : Act) → Option (State × Answer a)
  | .lock q => if (s.sides q).lock = none then some (s.onSide q { s.sides q with lock := some i }, ()) else none
  | .unlock q => some (s.onSide q { s.sides q with lock := none }, ())
  | .acquire q =>
    if ch.ok then
      if (s.sides q).sem ≠ 0 then
        some (s.onSide q { s.sides q with sem := (s.sides q).sem - 1, claimed := i :: (s.sides q).claimed }, true)
      else none
    else some (s, false)
  | .release q =>
    some (s.onSide q { s.sides q with sem := (s.sides q).sem + 1, pending := (s.sides q).pending.erase i }, ())
  | .take q =>
    let e := (s.sides q).ring.first bufferCount
    some (s.onSide q { s.sides q with
      ring := (s.sides q).ring.drop, claimed := (s.sides q).claimed.erase i, hands := (i, e) :: (s.sides q).hands
      taken := some e }, e)
  | .put q e =>
    some (s.onSide q { s.sides q with
      ring := (s.sides q).ring.put bufferCount ⟨e.index, min e.length d.size⟩, back := (s.sides q).back.erase (i, e)
      pending := i :: (s.sides q).pending }, ())
  | .copy .tx _ _ => some (s.onSide .tx { s.sides .tx with taken := none }, ch.ok)
  | .copy .rx e wanted =>
    let s := s.onSide .rx { s.sides .rx with taken := none }
    some (if ch.ok then { s with delivered := s.delivered ++ [(s.data e.index).take (min e.length wanted)] } else s, ch.ok)
  | .queue q e =>
    some (if ch.ok then
      s.onSide q { s.sides q with hands := (s.sides q).hands.erase (i, e), device := (s.sides q).device ++ [e.index] } else s, ch.ok)
  | .dequeue q =>
    match (s.sides q).used with
    | []        => some (s, none)
    | e :: rest => some (s.onSide q { s.sides q with used := rest, back := (i, e) :: (s.sides q).back }, some e)
  | .over q => some (s.onSide q { s.sides q with hands := (s.sides q).hands.filter (·.1 ≠ i) }, ())
  | .putBytes e =>
    let (bytes, added) := pushBytes s.bytes ((s.data e.index).take (min e.length d.size)) false
    some ({ s.onSide .rx { s.sides .rx with back := (s.sides .rx).back.erase (i, e), hands := (i, e) :: (s.sides .rx).hands } with
      bytes }, added)
  | .takeBytes wanted =>
    let (chunk, bytes) := popBytes (min wanted 64) s.bytes
    some ({ s with bytes }, chunk)
  | .acquireBytes =>
    if ch.ok then if s.bytesSem ≠ 0 then some ({ s with bytesSem := s.bytesSem - 1 }, true) else none else some (s, false)
  | .releaseBytes => some ({ s with bytesSem := s.bytesSem + 1 }, ())
  | .copyBytes _ => some (s, ch.ok)

end State

inductive Event
  | read (wanted rounds : Nat)
  | write (length : Nat)
  | act (i : Nat) (ch : Choice)
  /-- the device returns one of the buffers it has, and what it has written there -/
  | completed (q : Q) (k : Nat) (data : List UInt8)
  | callback (q : Q) (rounds : Nat)

namespace State

def step (d : Driver) (s : State) : Event → Option State
  | .read wanted rounds => some { s with threads := s.threads ++ [d.read wanted rounds] }
  | .write length => some { s with threads := s.threads ++ [d.write length] }
  | .callback q rounds => some { s with threads := s.threads ++ [d.callback q rounds] }
  | .act i ch =>
    match s.threads[i]? with
    | some (.act a k) => (s.perform d i ch a).map fun x => { x.1 with threads := x.1.threads.set i (k x.2) }
    | _ => none
  | .completed q k data =>
    match (s.sides q).device[k]? with
    | some index =>
      let t := s.onSide q { s.sides q with
        device := (s.sides q).device.eraseIdx k, used := (s.sides q).used ++ [⟨index, data.length⟩] }
      match q with
      | .tx => some t
      | .rx =>
        if data.length ≤ d.size then
          some { t with data := Function.update s.data index data, completed := s.completed ++ [data] }
        else none
    | none => none

end State

/-! ## What is promised -/

def Side.spots (x : Side) (ring : List Entry) : List Nat :=
  ring.map Entry.index ++
    (x.back.map (·.2.index) ++ (x.hands.map (·.2.index) ++ (x.used.map Entry.index ++ x.device)))

def Side.places (x : Side) : List Nat := x.spots (x.ring.contents bufferCount)

/-- **Every buffer is in one place**, the counts are those of the ring, and the portal's requests are handed out whole, once each and
in the order the device has sent them. -/
structure Kept (d : Driver) (s : State) : Prop where
  places : ∀ q, (s.sides q).places.Perm (List.range bufferCount)
  counts : ∀ q, (s.sides q).sem + (s.sides q).claimed.length + (s.sides q).pending.length = (s.sides q).ring.count
  delivered : d = .portal → s.delivered <+: s.completed

/-- User copies and queueing work, a portal's read has room for the request, and its callback takes none while another has one that
is not in the ring yet. -/
def FineAct (d : Driver) (s : State) (ch : Choice) : Act → Prop
  | .copy .tx _ _ | .queue _ _ => ch.ok = true
  | .copy .rx e wanted => ch.ok = true ∧ e.length ≤ wanted
  | .dequeue .rx => d = .portal → (s.sides .rx).back = []
  | _ => True

def Fine (d : Driver) (s : State) : Event → Prop
  | .act i ch =>
    match s.threads[i]? with
    | some (.act a _) => FineAct d s ch a
    | _ => True
  | _ => True

instance (d : Driver) (s : State) (ch : Choice) : (a : Act) → Decidable (FineAct d s ch a)
  | .copy .tx _ _ | .queue _ _ => inferInstanceAs (Decidable (ch.ok = true))
  | .copy .rx e wanted => inferInstanceAs (Decidable (ch.ok = true ∧ e.length ≤ wanted))
  | .dequeue .rx => inferInstanceAs (Decidable (d = .portal → (s.sides .rx).back = []))
  | .lock _ | .unlock _ | .acquire _ | .release _ | .take _ | .put _ _ | .dequeue .tx | .over _ | .putBytes _ | .takeBytes _ |
    .acquireBytes | .releaseBytes | .copyBytes _ => isTrue trivial

instance (d : Driver) (s : State) (e : Event) : Decidable (Fine d s e) := by
  unfold Fine
  split
  · split <;> infer_instance
  · infer_instance

end Transfers
end Prose
