import Mathlib.Algebra.GroupWithZero.Nat
import Mathlib.Data.List.FinRange
import Mathlib.Logic.Function.Basic
import Prose.Runs
/-!
# SlotsModel — the request slots of virtio_fs

`virtio_fs_do_request`, cut where another thread, an interrupt or the device can come in between, with the slots, the queues
and the device.  Wherever it runs, `virtio_fs_queue_callback` is a handler of its own: a thread's while the thread drains
the queue itself, an interrupt's otherwise.  The kernel's primitives are what they are documented to be: a semaphore is a
count, and a `NotifyAll` is for the entries that are on the variable then.
-/
namespace Prose
namespace VirtioFs

/-- `SLOT_COUNT`, `SLOT_IN_SIZE`, `SLOT_OUT_SIZE` and `SLOT_DATA_SIZE`. -/
abbrev slotCount : Nat := 32

def slotInSize : Nat := 4096

def slotOutSize : Nat := 4096

def slotDataSize : Nat := 128 * 1024

/-- `sizeof(fuse_in_prefix)` and `sizeof(fuse_out_prefix)`. -/
def prefixSize : Nat := 16

inductive Status
  | ok
  | error
  | badAddress
  | badValue
  | ioError
  /-- of the bus manager -/
  | other (code : Nat)
  deriving DecidableEq

/-- A `virtio_fs_request`; `hiprio` is an `out` of `NULL`. -/
structure Request where
  inKernel : Bool := true
  outKernel : Bool := true
  hiprio : Bool := false
  inSize : Nat := 0
  inDataSize : Nat := 0
  outSize : Nat := 0
  outDataSize : Nat := 0

/-- What `virtio_fs_do_request` turns down before it takes a slot. -/
def Request.refused (r : Request) : Option Status :=
  if !r.inKernel || (!r.hiprio && !r.outKernel) then some .badAddress
  else if r.inSize < prefixSize ∨ slotInSize < r.inSize ∨ slotDataSize < r.inDataSize ∨ slotDataSize < r.outDataSize
      ∨ (0 < r.inDataSize ∧ 0 < r.outDataSize)
      ∨ (r.hiprio = false ∧ (r.outSize < prefixSize ∨ slotOutSize < r.outSize)) then some .badValue
  else none

/-! ## Bytes -/

/-- A `uint32` and a `uint64` in memory. -/
def word32 (bytes : Nat → UInt8) (k : Nat) : Nat :=
  (bytes k).toNat + 256 * (bytes (k + 1)).toNat + 65536 * (bytes (k + 2)).toNat + 16777216 * (bytes (k + 3)).toNat

def word64 (bytes : Nat → UInt8) (k : Nat) : Nat := word32 bytes k + 4294967296 * word32 bytes (k + 4)

/-- `written` over `bytes`, from the offset on. -/
def overlaid (written : List UInt8) (offset : Nat) (bytes : Nat → UInt8) (k : Nat) : UInt8 :=
  (written[offset + k]?).getD (bytes k)

/-! ## A slot -/

/-- A `virtio_fs_slot`: of `in`, what the driver fills in; who is on `completion`, the calls say. -/
structure Slot where
  len : Nat := 0
  unique : Nat := 0
  out : Nat → UInt8 := fun _ => 0
  data : Nat → UInt8 := fun _ => 0
  usedLength : Nat := 0
  completed : Bool := false

namespace Slot

def reply (m : Slot) (outSize : Nat) (written : List UInt8) : Slot :=
  { m with
    out := fun k => if k < outSize then overlaid written 0 m.out k else m.out k
    data := overlaid written outSize m.data }

def stamp (m : Slot) (r : Request) (unique : Nat) : Slot :=
  { m with
    len := (r.inSize + r.inDataSize) % 2 ^ 32
    unique := unique
    out := fun k => if r.hiprio = false ∧ k < prefixSize then 0 else m.out k }

end Slot

/-! ## A call -/

/-- Where a thread is in `virtio_fs_do_request`. -/
inductive Phase
  | idle
  | checked
  | acquired
  | picked
  | copied
  | stamped
  | armed
  | added
  | waiting
  | expired
  | retrying
  | draining
  | drained
  | finishing
  | clearing
  | releasing
  deriving DecidableEq

/-- A `ConditionVariableEntry`: on the variable, or taken off it by a `NotifyAll`. -/
inductive Entry
  | off
  | on
  | notified
  deriving DecidableEq

structure Call where
  phase : Phase := .idle
  request : Request := {}
  slot : Fin slotCount := 0
  unique : Nat := 0
  entry : Entry := .off
  /-- Which of the requests the device has been given this is. -/
  ticket : Option Nat := none
  status : Status := .ok
  /-- the caller's `out`, and `out_data` up to `out_data_length` -/
  out : List UInt8 := []
  data : List UInt8 := []

namespace Call

def used (m : Slot) : Nat := if word32 m.out 0 < m.usedLength then word32 m.out 0 else m.usedLength

/-- What is read of the slot when the loop is left; `copied` is whether the reply's data reach the caller. -/
def read (c : Call) (m : Slot) (copied : Bool) : Call :=
  if c.request.hiprio then { c with status := .ok }
  else if m.usedLength < prefixSize ∨ word64 m.out 8 ≠ c.unique then { c with status := .ioError }
  else
    { c with
      out := (List.range c.request.outSize).map fun k => if k < min (used m) c.request.outSize then m.out k else 0
      status := if c.request.outSize < used m ∧ 0 < c.request.outDataSize ∧ copied = false then .badAddress else .ok
      data := if c.request.outSize < used m ∧ 0 < c.request.outDataSize ∧ copied then
        (List.range (min (used m - c.request.outSize) c.request.outDataSize)).map m.data else [] }

end Call

/-- A `virtio_fs_queue_callback` between two accesses to memory. -/
inductive Handler
  | idle
  /-- `queue_dequeue` has returned the slot -/
  | taken (slot : Fin slotCount) (used : Nat)
  /-- `usedLength` is set -/
  | measured (slot : Fin slotCount)
  /-- `completed` is set -/
  | flagged (slot : Fin slotCount)
  deriving DecidableEq

/-- A request with the device: the slot whose buffers it has, and the sizes of those it may write to. -/
structure Chain where
  slot : Fin slotCount
  ticket : Nat
  hiprio : Bool
  outSize : Nat
  outDataSize : Nat
  deriving DecidableEq

/-- A request the device has completed: what it wrote, and the used length it gave. -/
structure Completion where
  ticket : Nat
  written : List UInt8
  used : Nat

/-- The driver, its callers, and the device; and what the device has completed and the calls have returned so far. -/
structure State (T I : Type) where
  slots : Fin slotCount → Slot := fun _ => {}
  slotBusy : Fin slotCount → Bool := fun _ => false
  slotsFree : Nat := slotCount
  nextUnique : Nat := 2
  calls : T → Call := fun _ => {}
  handlers : T ⊕ I → Handler := fun _ => .idle
  pending : List Chain := []
  /-- the used rings, the one of `hiprioQueue` and the one of `requestQueue` -/
  ring : Bool → List (Fin slotCount × Nat) := fun _ => []
  tickets : Nat := 0
  completions : List Completion := []
  returned : List Call := []

inductive Event (T I : Type)
  | call (t : T) (request : Request)
  /-- `acquire_sem`, other than `B_INTERRUPTED` -/
  | acquire (t : T) (ok : Bool)
  | pick (t : T)
  | copy (t : T) (inData : List UInt8) (ok : Bool)
  | stamp (t : T)
  | arm (t : T)
  | add (t : T)
  | queue (t : T) (status : Status)
  /-- `Wait` returns `B_OK` -/
  | wake (t : T)
  /-- `Wait` returns `B_TIMED_OUT` -/
  | expire (t : T)
  | look (t : T)
  | again (t : T)
  /-- `queue_dequeue` has nothing left for the thread's own callback -/
  | drained (t : T)
  | lookAgain (t : T)
  | finish (t : T) (copied : Bool)
  | clear (t : T)
  | release (t : T)
  /-- The device completes the `k`-th of the requests it has. -/
  | complete (k : Nat) (written : List UInt8) (used : Nat)
  | dequeue (x : T ⊕ I) (hiprio : Bool)
  | measure (x : T ⊕ I)
  | flag (x : T ⊕ I)
  | notify (x : T ⊕ I)

namespace State

variable {T I : Type} [DecidableEq T] [DecidableEq I]

def setCall (s : State T I) (t : T) (c : Call) : State T I := { s with calls := Function.update s.calls t c }

def setSlot (s : State T I) (i : Fin slotCount) (m : Slot) : State T I := { s with slots := Function.update s.slots i m }

def setHandler (s : State T I) (x : T ⊕ I) (h : Handler) : State T I :=
  { s with handlers := Function.update s.handlers x h }

/-- The thread returns; the entry leaves the variable in its destructor. -/
def leave (s : State T I) (t : T) (c : Call) : State T I := { s.setCall t {} with returned := c :: s.returned }

def begin (s : State T I) (t : T) (request : Request) : State T I :=
  match request.refused with
  | some status => s.leave t { request, status }
  | none => s.setCall t { phase := .checked, request }

/-- The bit of the first slot that is free; with none, the kernel panics. -/
def pick (s : State T I) (t : T) : Option (State T I) :=
  ((List.finRange slotCount).find? fun i => !s.slotBusy i).map fun i =>
    { s.setCall t { s.calls t with phase := .picked, slot := i } with slotBusy := Function.update s.slotBusy i true }

/-- `copy_between` into the slot; user memory may be bad. -/
def copyIn (s : State T I) (t : T) (inData : List UInt8) (ok : Bool) : State T I :=
  let m := s.slots (s.calls t).slot
  let s := s.setSlot (s.calls t).slot { m with data := overlaid (inData.take (s.calls t).request.inDataSize) 0 m.data }
  if ok then s.setCall t { s.calls t with phase := .copied }
  else s.setCall t { s.calls t with phase := .clearing, status := .badAddress }

def stamp (s : State T I) (t : T) : State T I :=
  let c := s.calls t
  { (s.setSlot c.slot ((s.slots c.slot).stamp c.request s.nextUnique)).setCall t
      { c with phase := .stamped, unique := s.nextUnique } with nextUnique := (s.nextUnique + 2) % 2 ^ 64 }

def arm (s : State T I) (t : T) : State T I :=
  let c := s.calls t
  (s.setSlot c.slot { s.slots c.slot with completed := false }).setCall t { c with phase := .armed }

/-- `queue_request_v`: the device has the slot from here on. -/
def queue (s : State T I) (t : T) (status : Status) : State T I :=
  let c := s.calls t
  if status = .ok then
    { s.setCall t { c with phase := .waiting, ticket := some s.tickets } with
      tickets := s.tickets + 1
      pending := s.pending ++ [⟨c.slot, s.tickets, c.request.hiprio, c.request.outSize, c.request.outDataSize⟩] }
  else s.setCall t { c with phase := .clearing, status }

/-- The two halves of `virtio_fs_put_slot`. -/
def clear (s : State T I) (t : T) : State T I :=
  { s.setCall t { s.calls t with phase := .releasing } with
    slotBusy := Function.update s.slotBusy (s.calls t).slot false }

def release (s : State T I) (t : T) : State T I := { s.leave t (s.calls t) with slotsFree := s.slotsFree + 1 }

/-- The device writes its reply, if there is one to write, and puts the slot on the used ring. -/
def complete (s : State T I) (k : Nat) (written : List UInt8) (used : Nat) : Option (State T I) :=
  s.pending[k]?.bind fun c =>
    if written.length ≤ (if c.hiprio then 0 else c.outSize + c.outDataSize) ∧ written.length ≤ used then
      some { s.setSlot c.slot ((s.slots c.slot).reply c.outSize written) with
        pending := s.pending.eraseIdx k
        ring := Function.update s.ring c.hiprio (s.ring c.hiprio ++ [(c.slot, used)])
        completions := ⟨c.ticket, written, used⟩ :: s.completions }
    else none

/-- Whether the handler may look at the queue: an interrupt may at any time, a thread while it drains its own. -/
def mayDequeue (s : State T I) (x : T ⊕ I) (hiprio : Bool) : Bool :=
  match x with
  | .inl t => (s.calls t).phase == .draining && (s.calls t).request.hiprio == hiprio
  | .inr _ => true

def dequeue (s : State T I) (x : T ⊕ I) (hiprio : Bool) : Option (State T I) :=
  match s.ring hiprio with
  | [] => none
  | (i, used) :: rest => some { s.setHandler x (.taken i used) with ring := Function.update s.ring hiprio rest }

def notify (s : State T I) (i : Fin slotCount) : State T I :=
  { s with calls := fun t =>
      if (s.calls t).slot = i ∧ (s.calls t).entry = .on then { s.calls t with entry := .notified } else s.calls t }

/-- Where the loop goes after it has read `completed`. -/
def looked (s : State T I) (t : T) (next : Phase) : State T I :=
  s.setCall t { s.calls t with phase := if (s.slots (s.calls t).slot).completed then .finishing else next }

def step (s : State T I) : Event T I → Option (State T I)
  | .call t request => if (s.calls t).phase = .idle then some (s.begin t request) else none
  | .acquire t ok =>
    if (s.calls t).phase = .checked then
      if ok then
        if s.slotsFree = 0 then none
        else some { s.setCall t { s.calls t with phase := .acquired } with slotsFree := s.slotsFree - 1 }
      else some (s.leave t { s.calls t with status := .error })
    else none
  | .pick t => if (s.calls t).phase = .acquired then s.pick t else none
  | .copy t inData ok => if (s.calls t).phase = .picked then some (s.copyIn t inData ok) else none
  | .stamp t => if (s.calls t).phase = .copied then some (s.stamp t) else none
  | .arm t => if (s.calls t).phase = .stamped then some (s.arm t) else none
  | .add t =>
    if (s.calls t).phase = .armed then some (s.setCall t { s.calls t with phase := .added, entry := .on }) else none
  | .queue t status => if (s.calls t).phase = .added then some (s.queue t status) else none
  | .wake t =>
    if (s.calls t).phase = .waiting ∧ (s.calls t).entry = .notified then
      some (s.setCall t { s.calls t with phase := .finishing })
    else none
  | .expire t =>
    if (s.calls t).phase = .waiting then some (s.setCall t { s.calls t with phase := .expired, entry := .off })
    else none
  | .look t => if (s.calls t).phase = .expired then some (s.looked t .retrying) else none
  | .again t =>
    if (s.calls t).phase = .retrying then some (s.setCall t { s.calls t with phase := .draining, entry := .on })
    else none
  | .drained t =>
    if (s.calls t).phase = .draining ∧ s.handlers (.inl t) = .idle ∧ s.ring (s.calls t).request.hiprio = [] then
      some (s.setCall t { s.calls t with phase := .drained })
    else none
  | .lookAgain t => if (s.calls t).phase = .drained then some (s.looked t .waiting) else none
  | .finish t copied =>
    if (s.calls t).phase = .finishing then
      some (s.setCall t { (s.calls t).read (s.slots (s.calls t).slot) copied with phase := .clearing })
    else none
  | .clear t => if (s.calls t).phase = .clearing then some (s.clear t) else none
  | .release t => if (s.calls t).phase = .releasing then some (s.release t) else none
  | .complete k written used => s.complete k written used
  | .dequeue x hiprio =>
    if s.handlers x = .idle ∧ s.mayDequeue x hiprio = true then s.dequeue x hiprio else none
  | .measure x =>
    match s.handlers x with
    | .taken i used => some ((s.setSlot i { s.slots i with usedLength := used }).setHandler x (.measured i))
    | _ => none
  | .flag x =>
    match s.handlers x with
    | .measured i => some ((s.setSlot i { s.slots i with completed := true }).setHandler x (.flagged i))
    | _ => none
  | .notify x =>
    match s.handlers x with
    | .flagged i => some ((s.notify i).setHandler x .idle)
    | _ => none

end State
end VirtioFs
end Prose
