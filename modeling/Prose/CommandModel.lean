import Mathlib.Order.Nat
import Prose.Runs
import Prose.Tasks
/-!
# CommandModel — the one command page of prose_display and of prose_chip

`prds_command` and `prch_command` with `prds_collect` and `prch_collect`: two copies of one thing, but that the chip's turns down
a request that is too long.  A command goes by the call that has queued it.  Times are in microseconds; a semaphore is a count,
and who waits for it gets it as long as there is one, in time or not.  The bus calls the queue's callback when it likes.
-/
namespace Prose
namespace Command

open Tasks

/-- `kCommandTimeout` and `kDequeueAttempts`. -/
def commandTimeout : Nat := 5000000

def dequeueAttempts : Nat := 1000

structure Request where
  size : Nat
  body : Nat := 0

structure Reply where
  ok : Bool := false
  body : Nat := 0

structure Page where
  seq : UInt64 := 0
  request : Request := ⟨0, 0⟩
  answerSeq : UInt64 := 0
  answer : Reply := {}

/-- The two drivers: `PRCH_REQUEST_MAX`, or none. -/
structure Driver where
  requestMax : Option Nat := none

def proseDisplay : Driver := {}

/-- `sizeof(struct prose_chip_play)` and `PROSE_CHIP_TEXT_MAX`. -/
def proseChip : Driver := ⟨some (32 + 16384)⟩

inductive Outcome
  | ok (answer : Reply)
  | badValue
  | busy
  | timedOut
  /-- `queue_request_v` -/
  | queueing
  | error

/-- What `collect` returns. -/
inductive Collected
  | ok
  | timedOut
  | error
  deriving DecidableEq

/-- What a call does where others can see it; `own` is whether it waits for its own command. -/
inductive Act
  | lock
  | unlock
  | outstanding
  | time
  | acquire (own : Bool) (since : Nat)
  | dequeue
  | spin (since : Nat)
  | collected
  /-- the command is not on the used ring -/
  | giveUp (own : Bool) (since : Nat)
  | nextSeq
  /-- `memcpy` of the request, and `memset` where the answer goes -/
  | writePage (seq : UInt64) (request : Request)
  | queue
  | setOutstanding
  | answerSeq
  | copyOut
  | finish (request : Request) (outcome : Outcome)

abbrev Answer : Act → Type
  | .outstanding | .acquire _ _ | .dequeue | .queue => Bool
  | .time => Nat
  | .nextSeq | .answerSeq => UInt64
  | .copyOut => Reply
  | _ => Unit

abbrev Hook := Prog Act Answer

abbrev ask (a : Act) : Hook (Answer a) := Prog.one a

/-- The loop of `collect`. -/
def attempts (own : Bool) (since : Nat) : Nat → Hook Collected
  | 0 => do
    ask (.giveUp own since)
    pure .error
  | n + 1 => do
    if ← ask .dequeue then
      ask .collected
      pure .ok
    else
      let now ← ask .time
      ask (.spin now)
      attempts own since n

/-- `prds_collect`, `prch_collect`. -/
def collect (own : Bool) : Hook Collected := do
  let since ← ask .time
  if ← ask (.acquire own since) then attempts own since dequeueAttempts
  else pure .timedOut

def collectEarlier (outstanding : Bool) : Hook Collected := if outstanding then collect false else pure .ok

def answered (seq : UInt64) (request : Request) : Hook Unit := do
  let answerSeq ← ask .answerSeq
  if answerSeq ≠ seq then
    ask .unlock
    ask (.finish request .error)
  else
    let answer ← ask .copyOut
    ask .unlock
    ask (.finish request (if answer.ok then .ok answer else .error))

def collectedOwn (seq : UInt64) (request : Request) : Collected → Hook Unit
  | .ok => answered seq request
  | .timedOut => do
    ask .unlock
    ask (.finish request .timedOut)
  | .error => do
    ask .unlock
    ask (.finish request .error)

def send (request : Request) : Hook Unit := do
  let seq ← ask .nextSeq
  ask (.writePage seq request)
  if ← ask .queue then
    ask .setOutstanding
    let collected ← collect true
    collectedOwn seq request collected
  else
    ask .unlock
    ask (.finish request .queueing)

/-- `prds_command`, `prch_command`. -/
def command (d : Driver) (request : Request) : Hook Unit :=
  if ∃ max ∈ d.requestMax, max < request.size then ask (.finish request .badValue)
  else do
    ask .lock
    let outstanding ← ask .outstanding
    match ← collectEarlier outstanding with
    | .ok => send request
    | _ =>
      ask .unlock
      ask (.finish request .busy)

/-! ## The driver, the device and the bus -/

/-- A command the device has taken: what it has read, and what it has written. -/
structure Work where
  call : Nat
  seq : UInt64
  request : Request
  answer : Option Reply := none

/-- Of a call: the command that the device read, or what came of it. -/
structure Answered where
  call : Nat
  request : Request
  answer : Reply

/-- A call that has stopped waiting for its own command: since when it has waited. -/
structure Failed where
  call : Nat
  since : Nat
  deriving DecidableEq

/-- A call of the queue's callback while that call's command was on the used ring. -/
structure Signal where
  call : Nat
  time : Nat
  deriving DecidableEq

structure State where
  now : Nat := 0
  /-- `command_lock`, `command_done`, `seq`, `command_outstanding` and `command` -/
  lock : Option Nat := none
  done : Nat := 0
  seq : UInt64 := 0
  outstanding : Bool := false
  page : Page := {}
  /-- the queue, from what the device has not taken yet to what it has put on the used ring -/
  avail : List Nat := []
  working : Option Work := none
  used : List Nat := []
  /-- what has happened: the page was written while the device had it; and the rest -/
  clobbered : Bool := false
  answered : List Answered := []
  returned : List (Nat × Request × Outcome) := []
  failed : List Failed := []
  signals : List Signal := []
  threads : List (Hook Unit) := []

namespace State

def flights (s : State) : List Nat := s.used ++ (s.working.toList.map Work.call ++ s.avail)

def held (s : State) : Bool := s.working.isSome || !s.avail.isEmpty

/-- One action of a call; whether `queue_request_v` succeeds is the bus manager's to say. -/
def perform (s : State) (i : Nat) (ok : Bool) : (a : Act) → Option (State × Answer a)
  | .lock => if s.lock = none then some ({ s with lock := some i }, ()) else none
  | .unlock => some ({ s with lock := none }, ())
  | .outstanding => some (s, s.outstanding)
  | .time => some (s, s.now)
  | .acquire own since =>
    if 0 < s.done then some ({ s with done := s.done - 1 }, true)
    else if since + commandTimeout ≤ s.now then
      some (if own then { s with failed := ⟨i, since⟩ :: s.failed } else s, false)
    else none
  | .dequeue =>
    match s.used with
    | []        => some (s, false)
    | _ :: rest => some ({ s with used := rest }, true)
  | .spin since => if since + 10 ≤ s.now then some (s, ()) else none
  | .collected => some ({ s with outstanding := false }, ())
  | .giveUp own since => some (if own then { s with failed := ⟨i, since⟩ :: s.failed } else s, ())
  | .nextSeq => some ({ s with seq := s.seq + 1 }, s.seq + 1)
  | .writePage seq request => some ({ s with page := { seq, request }, clobbered := s.clobbered || s.held }, ())
  | .queue => some (if ok then { s with avail := s.avail ++ [i] } else s, ok)
  | .setOutstanding => some ({ s with outstanding := true }, ())
  | .answerSeq => some (s, s.page.answerSeq)
  | .copyOut => some (s, s.page.answer)
  | .finish request outcome => some ({ s with returned := (i, request, outcome) :: s.returned }, ())

end State

inductive Event
  | call (request : Request)
  | act (i : Nat) (ok : Bool)
  | tick (d : Nat)
  /-- the device takes the next command, and reads it -/
  | take
  /-- it writes its answer, with the sequence number of the request -/
  | answer (reply : Reply)
  /-- it puts the command on the used ring -/
  | complete
  /-- the callback: an interrupt of this queue or of another, or a second look -/
  | callback

namespace State

def step (d : Driver) (s : State) : Event → Option State
  | .call request => some { s with threads := s.threads ++ [command d request] }
  | .act i ok =>
    match s.threads[i]? with
    | some (.act a k) => (s.perform i ok a).map fun x => { x.1 with threads := x.1.threads.set i (k x.2) }
    | _ => none
  | .tick d => some { s with now := s.now + d }
  | .take =>
    match s.working, s.avail with
    | none, c :: rest => some { s with working := some { call := c, seq := s.page.seq, request := s.page.request }, avail := rest }
    | _, _ => none
  | .answer reply =>
    match s.working with
    | some w =>
      some { s with
        working := some { w with answer := some reply }, page := { s.page with answerSeq := w.seq, answer := reply } }
    | none => none
  | .complete =>
    match s.working with
    | some ⟨call, _, request, some answer⟩ =>
      some { s with working := none, used := s.used ++ [call], answered := ⟨call, request, answer⟩ :: s.answered }
    | _ => none
  | .callback =>
    some { s with done := s.done + 1, signals := s.used.map (fun c => ⟨c, s.now⟩) ++ s.signals }

end State

/-! ## What is promised -/

/-- **One command in flight, the page left alone while the device has it, every caller's answer its own**, and no call that gives
up a command before the callback is called for it gives it up before its time. -/
structure Kept (s : State) : Prop where
  one : s.flights.length ≤ 1
  page : s.clobbered = false
  own : ∀ i request answer, (i, request, Outcome.ok answer) ∈ s.returned → ⟨i, request, answer⟩ ∈ s.answered
  time : ∀ f ∈ s.failed, ∀ x ∈ s.signals, x.call = f.call → f.since + commandTimeout ≤ x.time

/-- A call that has taken a count of the semaphore, and has looked for its command as often as it may, has waited for its time,
and the command is not there. -/
def FineAct (s : State) : Act → Prop
  | .giveUp own since => own = true → since + commandTimeout ≤ s.now ∧ s.used = []
  | _ => True

def Fine (s : State) : Event → Prop
  | .act i _ =>
    match s.threads[i]? with
    | some (.act a _) => FineAct s a
    | _ => True
  | _ => True

instance (s : State) : (a : Act) → Decidable (FineAct s a)
  | .giveUp own since => inferInstanceAs (Decidable (own = true → since + commandTimeout ≤ s.now ∧ s.used = []))
  | .lock | .unlock | .outstanding | .time | .acquire _ _ | .dequeue | .spin _ | .collected | .nextSeq | .writePage _ _ | .queue |
    .setOutstanding | .answerSeq | .copyOut | .finish _ _ => isTrue trivial

instance (s : State) : (e : Event) → Decidable (Fine s e)
  | .act i _ => by
    unfold Fine
    dsimp only
    split <;> infer_instance
  | .call _ | .tick _ | .take | .answer _ | .complete | .callback => isTrue trivial

end Command
end Prose
