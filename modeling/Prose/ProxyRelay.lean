import Mathlib.Logic.Function.Basic
import Prose.ProxyRewrite
import Prose.Runs
/-!
# ProxyRelay — one client of the proxy

`readHead`, `dispatch`, `open`, `pump` and `relay` of `guestproxy.swift`.  Both ends send and finish when they like, what they have sent
arrives in chunks of any size, and of the code what stands between two calls of the network's library may be interleaved with anything.
What is sent on a connection before it is cancelled arrives.
-/
namespace Prose
namespace Proxy

inductive End
  | client
  | upstream
  deriving DecidableEq

def End.other : End → End
  | client => upstream
  | upstream => client

theorem End.forall_iff {P : End → Prop} : (P client ∧ P upstream) ↔ ∀ e, P e :=
  ⟨fun h e => by cases e; exacts [h.1, h.2], fun h => ⟨h _, h _⟩⟩

instance (P : End → Prop) [DecidablePred P] : Decidable (∀ e, P e) := decidable_of_iff _ End.forall_iff

/-- An `NWConnection`, seen from the proxy: what has been received from it, what has been sent there and not been received yet, what
goes to it, and whether it is cancelled. -/
structure Connection where
  taken : Bytes := []
  incoming : Bytes := []
  finished : Bool := false
  out : Bytes := []
  cancelled : Bool := false

def Connection.sent (c : Connection) : Bytes := c.taken ++ c.incoming

def Connection.send (c : Connection) (data : Bytes) : Connection := if c.cancelled then c else { c with out := c.out ++ data }

/-- Where a `relay` is: a `receive` is pending, or its handler has been called with this, or has cancelled `from` already. -/
inductive Relay
  | idle
  | waiting
  | got (data : Bytes) (last : Bool)
  | ending
  | ended
  deriving DecidableEq

def Relay.held : Relay → Bytes
  | .got data _ => data
  | _ => []

inductive Stage
  /-- `readHead`, with what there is so far -/
  | head (sofar : Bytes)
  /-- `open`, and what came behind the blank line -/
  | opening (verdict : Verdict) (rest : Bytes)
  /-- what is sent first has not been processed -/
  | sending
  | relaying
  | refusing
  | closed
  deriving DecidableEq

/-- One client of `GuestProxy`.  `isOpen` and `failed` are how `open` ended. -/
structure Client where
  stage : Stage := .head []
  conn : End → Connection := fun _ => {}
  /-- the relay from there to the other end -/
  relay : End → Relay := fun _ => .idle
  isOpen : Bool := false
  failed : Bool := false

def headLimit : Nat := 64 * 1024

def refusal (status : Text) : Bytes := utf8 ("HTTP/1.1 ".toList ++ status ++ crlf ++ "Connection: close".toList ++ crlf ++ crlf)
def established : Bytes := utf8 ("HTTP/1.1 200 Connection established".toList ++ crlf ++ crlf)

inductive Event
  /-- an end sends, or has finished sending -/
  | sends (e : End) (data : Bytes)
  | finishes (e : End)
  /-- the handler of `readHead` is called, with so many bytes, and with the end -/
  | reads (n : Nat) (done : Bool)
  /-- the other end's connection is ready, or it is not to be had -/
  | opened (ok : Bool)
  /-- what was sent has been processed -/
  | processed
  /-- a relay's handler is called, sends what it got, and cancels the second connection when it is the end -/
  | receives (e : End) (n : Nat) (done : Bool)
  | forwards (e : End)
  | cancels (e : End)

namespace Client

def setConn (s : Client) (e : End) (c : Connection) : Client := { s with conn := Function.update s.conn e c }
def setRelay (s : Client) (e : End) (r : Relay) : Client := { s with relay := Function.update s.relay e r }

/-- A `receive` can return so many bytes: at least one, or none at the end. -/
def CanTake (c : Connection) (n : Nat) (done : Bool) : Prop :=
  n ≤ c.incoming.length ∧ n ≤ headLimit ∧ (n = 0 → done = true) ∧ (done = true → c.finished = true ∧ n = c.incoming.length)

instance (c : Connection) (n : Nat) (done : Bool) : Decidable (CanTake c n done) := inferInstanceAs (Decidable (_ ∧ _ ∧ _ ∧ _))

def take (c : Connection) (n : Nat) : Connection := { c with taken := c.taken ++ c.incoming.take n, incoming := c.incoming.drop n }

def cancel (c : Connection) : Connection := { c with cancelled := true }

def refuse (s : Client) (status : Text) : Client :=
  { s.setConn .client ((s.conn .client).send (refusal status)) with stage := .refusing }

variable (decode : Bytes → Text) (characters : Text → List Character)

/-- The handler of `readHead`. -/
def readHead (s : Client) (sofar : Bytes) (n : Nat) (done : Bool) : Client :=
  let data := (s.conn .client).incoming.take n
  let buffer := sofar ++ data
  let s := s.setConn .client (take (s.conn .client) n)
  if data = [] then { s.setConn .client (cancel (s.conn .client)) with stage := .closed }
  else
    match Matching.first blank buffer with
    | none =>
      if done ∨ headLimit < buffer.length then { s.setConn .client (cancel (s.conn .client)) with stage := .closed }
      else { s with stage := .head buffer }
    | some i =>
      match dispatch characters (decode (buffer.take i)) with
      | .refuse status => s.refuse status
      | verdict => { s with stage := .opening verdict (buffer.drop (i + 4)) }

/-- What `dispatch` does with the connection it asked for. -/
def ready (s : Client) (verdict : Verdict) (rest : Bytes) : Client :=
  match verdict with
  | .refuse _ => s
  | .connect _ _ => { s.setConn .client ((s.conn .client).send established) with stage := .sending, isOpen := true }
  | .plain _ _ head => { s.setConn .upstream ((s.conn .upstream).send (head ++ rest)) with stage := .sending, isOpen := true }

/-- The handler of a relay, up to its first `cancel` or its next `receive`. -/
def forward (s : Client) (e : End) (data : Bytes) (last : Bool) : Client :=
  let s := if data = [] then s else s.setConn e.other ((s.conn e.other).send data)
  if last then (s.setConn e (cancel (s.conn e))).setRelay e .ending else s.setRelay e .waiting

def step (s : Client) : Event → Option Client
  | .sends e data =>
    if (s.conn e).finished ∨ (e = .upstream ∧ s.isOpen = false) then none
    else some (s.setConn e { s.conn e with incoming := (s.conn e).incoming ++ data })
  | .finishes e => if e = .upstream ∧ s.isOpen = false then none else some (s.setConn e { s.conn e with finished := true })
  | .reads n done =>
    match s.stage with
    | .head sofar => if CanTake (s.conn .client) n done then some (s.readHead decode characters sofar n done) else none
    | _ => none
  | .opened ok =>
    match s.stage with
    | .opening verdict rest =>
      some (if ok then s.ready verdict rest else { s.refuse "502 Bad Gateway".toList with failed := true })
    | _ => none
  | .processed =>
    match s.stage with
    | .sending => some { s with stage := .relaying, relay := fun _ => .waiting }
    | .refusing => some { s.setConn .client (cancel (s.conn .client)) with stage := .closed }
    | _ => none
  | .receives e n done =>
    if s.relay e = .waiting then
      if (s.conn e).cancelled then some (s.setRelay e (.got [] true))
      else if CanTake (s.conn e) n done then
        some ((s.setConn e (take (s.conn e) n)).setRelay e (.got ((s.conn e).incoming.take n) done))
      else none
    else none
  | .forwards e =>
    match s.relay e with
    | .got data last => some (s.forward e data last)
    | _ => none
  | .cancels e =>
    if s.relay e = .ending then some ((s.setConn e.other (cancel (s.conn e.other))).setRelay e .ended) else none

/-! ## What is to be seen of it -/

/-- Nothing is under way in the proxy: what was sent has been received, unless it never will be. -/
def AtRest (s : Client) : Prop :=
  (∀ e, (s.conn e).incoming = [] ∨ (s.conn e).cancelled = true) ∧ (∀ e, (s.relay e).held = []) ∧ s.stage ≠ .sending

instance (s : Client) : Decidable s.AtRest := inferInstanceAs (Decidable (_ ∧ _ ∧ _))

def greeting : Target → Bytes
  | .authority _ _ => established
  | .absolute _ _ => []

/-- **The proxy is not to be noticed**: each end gets what the other has sent, in order, once, and at rest all of it. -/
structure Transparent (q : Request) (body : Bytes) (s : Client) : Prop where
  taken : s.AtRest → s.isOpen = true ∨ s.failed = true ∨ ∃ verdict rest, s.stage = .opening verdict rest
  forth : (s.conn .upstream).out <+: q.rewritten ++ body
  back : s.isOpen = true → (s.conn .client).out <+: greeting q.target ++ (s.conn .upstream).sent
  whole : s.AtRest → s.isOpen = true →
    (s.conn .upstream).out = q.rewritten ++ body ∧ (s.conn .client).out = greeting q.target ++ (s.conn .upstream).sent

def Fine (s : Client) : Event → Prop
  | .sends _ _ => s.isOpen = true → ∀ e, (s.conn e).cancelled = false
  | .reads n _ => ∀ sofar, s.stage = .head sofar → ∀ i, Matching.first blank (sofar ++ (s.conn .client).incoming.take n) = some i →
      ∀ peer port, dispatch characters (decode ((sofar ++ (s.conn .client).incoming.take n).take i)) = .connect peer port →
        (sofar ++ (s.conn .client).incoming.take n).drop (i + 4) = []
  | .forwards e => ∀ data, s.relay e = .got data true → (s.conn e).cancelled = false →
      (s.relay e.other).held = [] ∧ (s.conn e.other).incoming = []
  | _ => True

end Client
end Proxy
end Prose
