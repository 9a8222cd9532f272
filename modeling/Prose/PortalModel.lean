import Mathlib.Algebra.GroupWithZero.Nat
import Prose.Runs
import Mathlib.Data.List.Basic
/-!
# PortalModel — the host end of the portal

`ProsePortalDevice` of `portal.swift`: requests that wait for a buffer of the guest's, what is pending under which id, the
timers, and the frames the guest answers with.  Everything runs on the one device queue, so a run is a list of what
arrives there.  A timer that was cancelled does not fire.

Beside the device's own state stands what an onlooker would write down: every request asked for, every frame heard, and
what happened to the requests, in order.
-/
namespace Prose
namespace Portal

abbrev Bytes := List UInt8

def magic : UInt32 := 0x50525054
def version : UInt16 := 2
def requestSize : Nat := 4096
def pong : UInt16 := 0x82
def hello : UInt16 := 0x81
def result : UInt16 := 0x83
def infoReply : UInt16 := 0x84
def resultMore : UInt16 := 0x85
def error : UInt16 := 0xFF
def truncated : UInt32 := 1

structure PortalReply where
  type : UInt16
  status : Int32
  out : String
  error : String
  text : String
  truncated : Bool
  deriving DecidableEq

inductive PortalFailure
  | noDevice
  | notAnswering
  | timedOut (timeout : Rat)
  | guestError (message : String)
  | malformed
  deriving DecidableEq

inductive Outcome
  | success (reply : PortalReply)
  | failure (failure : PortalFailure)
  deriving DecidableEq

/-! ## Frames -/

def leU16 (d : Bytes) (offset : Nat) : UInt16 :=
  (d.getD offset 0).toUInt16 ||| (d.getD (offset + 1) 0).toUInt16 <<< 8

def leU32 (d : Bytes) (offset : Nat) : UInt32 :=
  (d.getD offset 0).toUInt32 ||| (d.getD (offset + 1) 0).toUInt32 <<< 8 ||| (d.getD (offset + 2) 0).toUInt32 <<< 16 |||
    (d.getD (offset + 3) 0).toUInt32 <<< 24

def le16 (x : UInt16) : Bytes := [x.toUInt8, (x >>> 8).toUInt8]

def le32 (x : UInt32) : Bytes := [x.toUInt8, (x >>> 8).toUInt8, (x >>> 16).toUInt8, (x >>> 24).toUInt8]

structure Frame where
  type : UInt16
  id : UInt32
  payload : Bytes
  deriving DecidableEq

def frameOf (data : Bytes) : Option Frame :=
  let length := (leU32 data 12).toNat
  if 16 ≤ data.length ∧ leU32 data 0 = magic ∧ leU16 data 4 = version ∧ 16 + length ≤ data.length then
    some { type := leU16 data 6, id := leU32 data 8, payload := (data.drop 16).take length }
  else none

def requestFrame (type : UInt16) (id : UInt32) (payload : Bytes) : Bytes :=
  le32 magic ++ le16 version ++ le16 type ++ le32 id ++ le32 (UInt32.ofNat payload.length) ++ payload

structure Header where
  status : Int32
  outLength : Nat
  errorLength : Nat
  truncated : Bool
  deriving DecidableEq

def headerOf (payload : Bytes) : Header :=
  { status := (leU32 payload 0).toInt32, outLength := (leU32 payload 4).toNat, errorLength := (leU32 payload 8).toNat,
    truncated := leU32 payload 12 &&& truncated ≠ 0 }

/-! ## The device -/

/-- One request in flight; `send` is which of all requests it is. -/
structure Pending where
  type : UInt16
  send : Nat
  result : Option Header := none
  body : Bytes := []
  deriving DecidableEq

structure Waiting where
  id : UInt32
  frame : Bytes
  send : Nat

structure Element where
  writeBuffersByteCount : Nat

/-- A timer that was set and not cancelled: for which request, and what its block has captured. -/
structure Timer where
  send : Nat
  id : UInt32
  timeout : Rat
  deriving DecidableEq

/-- What happens to a request: its completion is called, behind so many frames, or it is put into a buffer. -/
inductive Happening
  | called (send : Nat) (outcome : Outcome) (heard : Nat)
  | placed (send : Nat)
  deriving DecidableEq

structure Accepted where
  id : UInt32
  heard : Nat

structure Device where
  device : Bool := false
  alive : Bool := false
  requestElements : List Element := []
  waiting : List Waiting := []
  pending : List (UInt32 × Pending) := []
  nextID : UInt32 := 1
  timers : List Timer := []
  sent : Nat := 0
  received : Nat := 0
  /-- The requests, with their ids where they were given one. -/
  sends : List (Option Accepted) := []
  /-- The frames. -/
  heard : List Frame := []
  fired : List Nat := []
  happened : List Happening := []

namespace Device

def get (s : Device) (id : UInt32) : Option Pending := s.pending.lookup id

def remove (s : Device) (id : UInt32) : Device := { s with pending := s.pending.filter (fun x => x.1 ≠ id) }

def set (s : Device) (id : UInt32) (p : Pending) : Device :=
  { s with pending := (id, p) :: s.pending.filter (fun x => x.1 ≠ id) }

def call (s : Device) (send : Nat) (outcome : Outcome) : Device :=
  { s with happened := s.happened ++ [.called send outcome s.heard.length] }

/-- The waiting frames into the buffers there are: what is left of both, and what was put where. -/
def fill : List Element → List Waiting → List Element × List Waiting × List Happening
  | e :: es, w :: ws =>
    let rest := fill es ws
    (rest.1, rest.2.1, (if w.frame.length ≤ e.writeBuffersByteCount then [.placed w.send] else []) ++ rest.2.2)
  | es, ws => (es, ws, [])

def flushRequests (s : Device) : Device :=
  let rest := fill s.requestElements s.waiting
  { s with
    requestElements := rest.1
    waiting := rest.2.1
    sent := s.sent + (s.waiting.length - rest.2.1.length)
    happened := s.happened ++ rest.2.2 }

def send (s : Device) (type : UInt16) (payload : Bytes) (timeout : Rat) : Device :=
  let k := s.sends.length
  if !s.device then { s with sends := s.sends ++ [none] }.call k (.failure .noDevice)
  else if !s.alive then { s with sends := s.sends ++ [none] }.call k (.failure .notAnswering)
  else if requestSize < payload.length + 16 then
    { s with sends := s.sends ++ [none] }.call k (.failure (.guestError "the request does not fit in a frame"))
  else
    let id := s.nextID
    let s := { s with
      sends := s.sends ++ [some (Accepted.mk id s.heard.length)]
      nextID := if id + 1 = 0 then 1 else id + 1
      timers := Timer.mk k id timeout :: s.timers
      waiting := s.waiting ++ [Waiting.mk id (requestFrame type id payload) k] }
    (s.set id { type, send := k }).flushRequests

def cancel (s : Device) (send : Nat) : Device := { s with timers := s.timers.filter (fun t => t.send ≠ send) }

def finish (s : Device) (id : UInt32) (p : Pending) (outcome : Outcome) : Device :=
  ((s.cancel p.send).remove id).call p.send outcome

section

-- `String(decoding:as:)` with UTF-8
variable (decode : Bytes → String)

def replyOf (r : Header) (body : Bytes) : PortalReply :=
  { type := Portal.result, status := r.status, out := decode (body.take r.outLength),
    error := decode ((body.drop r.outLength).take r.errorLength), text := "", truncated := r.truncated }

def finishIfComplete (s : Device) (id : UInt32) (p : Pending) : Device :=
  match p.result with
  | some r => if r.outLength + r.errorLength ≤ p.body.length then s.finish id p (.success (replyOf decode r p.body)) else s
  | none   => s

def answer (s : Device) (f : Frame) (p : Pending) : Device :=
  if f.type = pong ∨ f.type = infoReply then
    s.finish f.id p (.success
      { type := f.type, status := 0, out := "", error := "", text := decode f.payload, truncated := false })
  else if f.type = error then s.finish f.id p (.failure (.guestError (decode f.payload)))
  else if f.type = Portal.result then
    if f.payload.length < 16 then s.finish f.id p (.failure .malformed)
    else
      let p := { p with result := some (headerOf f.payload), body := p.body ++ f.payload.drop 16 }
      (s.set f.id p).finishIfComplete decode f.id p
  else if f.type = resultMore then
    if p.result = none then s.finish f.id p (.failure .malformed)
    else
      let p := { p with body := p.body ++ f.payload }
      (s.set f.id p).finishIfComplete decode f.id p
  else s.finish f.id p (.failure .malformed)

def handle (s : Device) (data : Bytes) : Device :=
  match frameOf data with
  | none   => s
  | some f =>
    let s := { s with received := s.received + 1, heard := s.heard ++ [f] }
    if f.type = hello then { s with alive := true }
    else
      match s.get f.id with
      | none   => s
      | some p => s.answer decode f p

def fire (s : Device) (t : Timer) : Device :=
  let s := { s.cancel t.send with fired := s.fired ++ [t.send] }
  match s.get t.id with
  | none   => s
  | some p => (s.remove t.id).call p.send (.failure (.timedOut t.timeout))

def failAll (s : Device) (failure : PortalFailure) : Device :=
  { s with
    timers := s.timers.filter (fun t => ∀ x ∈ s.pending, t.send ≠ x.2.send)
    pending := []
    happened := s.happened ++ s.pending.map (fun x => .called x.2.send (.failure failure) s.heard.length)
    waiting := [] }

/-- Both `customVirtioDeviceWillReset` and `customVirtioDeviceWillStop`. -/
def willReset (s : Device) : Device := { s with alive := false, requestElements := [] }.failAll .notAnswering

inductive Event
  | created
  | send (type : UInt16) (payload : Bytes) (timeout : Rat)
  | fire (send : Nat)
  | frame (data : Bytes)
  | posted (elements : List Element)
  | reset

def step (s : Device) : Event → Option Device
  | .created              => some { s with device := true }
  | .send type pay timeout => some (s.send type pay timeout)
  | .fire k               => (s.timers.find? (fun t => t.send = k)).map s.fire
  | .frame data           => some (s.handle decode data)
  | .posted elements      => some { s with requestElements := s.requestElements ++ elements }.flushRequests
  | .reset                => some s.willReset

end

end Device

end Portal
end Prose
