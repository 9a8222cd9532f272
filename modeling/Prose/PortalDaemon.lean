import Prose.PortalCalls
/-!
# PortalDaemon — the guest end of the portal, and the two ends together

`run_thread` and `send_result` of `prose_portal.cpp`: what a command line writes is collected, and goes to the host in frames.  Any
number of threads write frames, one result's in a row, and the host takes them in that order.
-/
namespace Prose
namespace Portal

/-- `PROSE_PORTAL_REPLY_SIZE`, `PROSE_PORTAL_MAX_OUTPUT`, and `kFramePayload`. -/
def replySize : Nat := 32768
def maxOutput : Nat := 8 * 1024 * 1024
def framePayload : Nat := replySize - 16

/-- `sizeof(buffer)` of `run_thread`. -/
def bufferSize : Nat := 4096

/-! ## What a command line writes -/

/-- What a command line writes to its two outputs, of the second what reaches the file the shell has been told of at its end, and the
exit status. -/
structure Output where
  stdout : Bytes
  stderr : Bytes
  file : Bytes
  status : Int32
  deriving DecidableEq

/-- `n` bytes at a time, to the end. -/
def pieces (n : Nat) : Nat → Bytes → List Bytes
  | 0, _ => []
  | k + 1, b => if b = [] then [] else b.take n :: pieces n k (b.drop n)

/-- What `fread` returns, of a pipe or a file that says this. -/
def reads (b : Bytes) : List Bytes := pieces bufferSize b.length b

/-- `BString::Append` of so many bytes: up to the first that is 0. -/
def append (s data : Bytes) : Bytes := s ++ data.takeWhile (· ≠ 0)

def collectOut : List Bytes → Bytes × Bool → Bytes × Bool
  | [], s => s
  | c :: cs, (out, truncated) =>
    if maxOutput < out.length + c.length then collectOut cs (out, true) else collectOut cs (append out c, truncated)

def collectError : List Bytes → Bytes × Bool → Bytes × Bool
  | [], s => s
  | c :: cs, (error, truncated) =>
    if maxOutput < error.length + c.length then (error, true) else collectError cs (append error c, truncated)

/-! ## Frames -/

def Frame.bytes (f : Frame) : Bytes := requestFrame f.type f.id f.payload

/-- `prose_portal_result`. -/
def resultHead (status : Int32) (out error : Bytes) (truncated : Bool) : Bytes :=
  le32 status.toUInt32 ++ le32 (UInt32.ofNat out.length) ++ le32 (UInt32.ofNat error.length) ++ le32 (if truncated then Portal.truncated else 0)

/-- The frames of `send_result`. -/
def sendResult (id : UInt32) (status : Int32) (out error : Bytes) (truncated : Bool) : List Frame :=
  let body := out ++ error
  let first := min body.length (framePayload - 16)
  ⟨result, id, resultHead status out error truncated ++ body.take first⟩ ::
    (pieces framePayload body.length (body.drop first)).map fun chunk => ⟨resultMore, id, chunk⟩

/-- `run_thread`. -/
def runThread (id : UInt32) (o : Output) : List Frame :=
  let out := collectOut (reads o.stdout) ([], false)
  let error := collectError (reads o.file) ([], out.2)
  sendResult id o.status out.1 error.1 error.2

/-! ## Both ends -/

/-- A thread, for which of the host's requests, what the command line writes, and the frames it has still to write; it is stopped
when the machine is reset. -/
structure Job where
  send : Nat
  id : UInt32
  output : Output
  left : List Frame
  stopped : Bool := false
  deriving DecidableEq

/-- `lock` is `sWriteLock`, `wire` what the host has not taken yet, and `traffic` everything that has been written. -/
structure System where
  jobs : List Job := []
  lock : Option Nat := none
  traffic : List Frame := []
  wire : List Frame := []
  host : Device := {}

def Frame.IsResult (f : Frame) : Prop := f.type = result ∨ f.type = resultMore

instance (f : Frame) : Decidable f.IsResult := inferInstanceAs (Decidable (_ ∨ _))

/-- The `RESULT` and `RESULT_MORE` frames of an id. -/
def resultsFor (fs : List Frame) (id : UInt32) : List Frame := fs.filter fun f => f.id = id ∧ f.IsResult

inductive Event
  /-- what arrives on the host's device queue, but for frames -/
  | host (e : Device.Event)
  /-- the daemon starts a thread for a request -/
  | start (k : Nat) (o : Output)
  /-- a thread gets `sWriteLock`, writes a frame, and gives the lock back -/
  | lock (i : Nat)
  | write (i : Nat) (ok : Bool)
  | unlock (i : Nat)
  /-- `send_frame`: what is not of a result -/
  | reply (f : Frame)
  /-- the host takes the oldest frame -/
  | deliver

namespace System

variable (decode : Bytes → String)

def step (s : System) : Event → Option System
  | .host (.frame _) => none
  | .host .reset =>
    (s.host.step decode .reset).map fun host =>
      { s with host := host, wire := [], lock := none, jobs := s.jobs.map fun j => { j with left := [], stopped := true } }
  | .host e => (s.host.step decode e).map fun host => { s with host := host }
  | .start k o =>
    match s.host.sends[k]? with
    | some (some a) =>
      if ∀ j ∈ s.jobs, j.send ≠ k then some { s with jobs := s.jobs ++ [{ send := k, id := a.id, output := o, left := runThread a.id o }] }
      else none
    | _ => none
  | .lock i =>
    match s.jobs[i]? with
    | some j => if s.lock = none ∧ j.left ≠ [] then some { s with lock := some i } else none
    | none => none
  | .write i ok =>
    match s.jobs[i]? with
    | some j =>
      match j.left with
      | f :: rest =>
        if s.lock = some i then
          if ok ∧ f.bytes.length ≤ replySize then
            some { s with jobs := s.jobs.set i { j with left := rest }, traffic := s.traffic ++ [f], wire := s.wire ++ [f] }
          else some { s with jobs := s.jobs.set i { j with left := [] } }
        else none
      | [] => none
    | none => none
  | .unlock i =>
    match s.jobs[i]? with
    | some j => if s.lock = some i ∧ j.left = [] then some { s with lock := none } else none
    | none => none
  | .reply f =>
    if s.lock = none ∧ ¬ f.IsResult ∧ f.bytes.length ≤ replySize then some { s with traffic := s.traffic ++ [f], wire := s.wire ++ [f] } else none
  | .deliver =>
    match s.wire with
    | f :: rest => some { s with wire := rest, host := s.host.handle decode f.bytes }
    | [] => none

end System

/-! ## The claim about results -/

def encode (s : String) : Bytes := s.toUTF8.data.toList

/-- The frames that have been written for a thread's id: so far, and when it has written all. -/
structure Job.Faithful (j : Job) (fs : List Frame) : Prop where
  size : ∀ f ∈ fs, f.bytes.length ≤ replySize
  carried : fs ≠ [] → ∃ h, headerIn fs = some h ∧ h.outLength ≤ j.output.stdout.length ∧ h.errorLength ≤ j.output.stderr.length ∧
    (h.truncated = true ↔ h.outLength < j.output.stdout.length ∨ h.errorLength < j.output.stderr.length) ∧
    bodies fs <+: j.output.stdout.take h.outLength ++ j.output.stderr.take h.errorLength ∧
    (j.left = [] → j.stopped = false → bodies fs = j.output.stdout.take h.outLength ++ j.output.stderr.take h.errorLength)

/-- **The frames say what was written, and the host's replies say it too.** -/
structure Kept (s : System) : Prop where
  frames : ∀ j ∈ s.jobs, j.Faithful (resultsFor s.traffic j.id)
  replies : ∀ k r n, Happening.called k (.success r) n ∈ s.host.happened → r.type = result →
    ∃ j ∈ s.jobs, j.send = k ∧ ∃ h, headerIn (resultsFor s.traffic j.id) = some h ∧ r.status = j.output.status ∧
      encode r.out = j.output.stdout.take h.outLength ∧ encode r.error = j.output.stderr.take h.errorLength ∧ r.truncated = h.truncated

/-- Bytes that are the UTF-8 of a text, in which no character is NUL. -/
def Plain (b : Bytes) : Prop := 0 ∉ b ∧ (ByteArray.mk b.toArray).IsValidUTF8

/-- **What a command line may write**: in what is kept of it, plain bytes; and all of the second output reaches the file. -/
def Output.Plain (o : Output) : Prop := Portal.Plain (o.stdout.take maxOutput) ∧ Portal.Plain (o.stderr.take maxOutput) ∧ o.file = o.stderr

/-- **When results are faithful.** -/
def Fine (s : System) : Event → Prop
  | .host (.send _ payload _) =>
    s.host.device ∧ s.host.alive ∧ payload.length + 16 ≤ requestSize → ∀ a, some a ∈ s.host.sends → a.id ≠ s.host.nextID
  | .start _ o => o.Plain
  | .write _ ok => ok = true
  | _ => True

end Portal
end Prose
