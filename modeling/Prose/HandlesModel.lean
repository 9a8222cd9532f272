import Mathlib.Algebra.Order.Group.Multiset
import Prose.Runs
import Prose.Tasks
/-!
# HandlesModel — the FUSE handles of one file in hostfs

The hooks of `kernel_interface.cpp` on one file, as programs: a section under the node's lock is one action, and so is a
request to the host.  The lock is held while `node_get_fh` opens the file, so that is one action with the host's answers.  A
handle is the open it came from: its number, which the host may give again, is never looked at.  The VFS keeps its
references, and calls `put_vnode` when it has none left; the file cache may do page I/O until it is deleted.
-/
namespace Prose
namespace HostfsFile

open Tasks

abbrev Handle := Nat

structure Mount where
  readOnly : Bool
  maxRead : Nat
  maxWrite : Nat
  maxRead_pos : 0 < maxRead
  maxWrite_pos : 0 < maxWrite

/-- `fhMode`: -1, `O_RDONLY` or `O_RDWR`. -/
inductive Mode
  | none
  | rdonly
  | rdwr
  deriving DecidableEq

inductive Opened
  | ok
  | permissionDenied
  | notAllowed
  | readOnlyDevice
  | failed
  deriving DecidableEq

/-- The part of a `Node` that is about its handles. -/
structure Node where
  opens : Nat := 0
  fh : Handle := 0
  fhMode : Mode := .none
  fhUsers : Nat := 0
  staleFh : List Handle := []

/-- `B_COUNT_OF(staleFh)`. -/
def staleCount : Nat := 4

namespace Node

def retries (status : Opened) (write : Bool) : Bool :=
  !write && (status == .permissionDenied || status == .notAllowed || status == .readOnlyDevice)

def replace (n : Node) (fh : Handle) (mode : Mode) : Node × Option Handle :=
  if n.fhMode = .none then ({ n with fh, fhMode := mode, fhUsers := n.fhUsers + 1 }, none)
  else if n.fhUsers = 0 ∨ n.staleFh.length = staleCount then
    ({ n with fh, fhMode := mode, fhUsers := n.fhUsers + 1 }, some n.fh)
  else ({ n with fh, fhMode := mode, fhUsers := n.fhUsers + 1, staleFh := n.fh :: n.staleFh }, none)

/-- How the file is opened, if the host lets us: read-write first, where the volume is. -/
def openMode (m : Mount) (write : Bool) (first second : Opened) : Option Mode :=
  if first = .ok then some (if m.readOnly then .rdonly else .rdwr)
  else if m.readOnly = false ∧ retries first write = true ∧ second = .ok then some .rdonly
  else none

/-- `node_get_fh` up to where it gives the lock back: the handle, the one to release, and whether it has opened the file;
`fresh` is the handle of an open. -/
def getFh (n : Node) (m : Mount) (write : Bool) (first second : Opened) (fresh : Handle) :
    Option (Node × Handle × Option Handle × Bool) :=
  if n.fhMode = .rdwr ∨ n.fhMode = .rdonly ∧ write = false then
    some ({ n with fhUsers := n.fhUsers + 1 }, n.fh, none, false)
  else if write ∧ m.readOnly then none
  else (openMode m write first second).map fun mode =>
    ((n.replace fresh mode).1, fresh, (n.replace fresh mode).2, true)

/-- The locked part of `node_put_fh`; the handles to release. -/
def putFh (n : Node) : Node × List Handle :=
  let n := { n with fhUsers := n.fhUsers - 1 }
  if n.fhUsers = 0 then
    if n.opens = 0 ∧ n.fhMode ≠ .none then ({ n with staleFh := [], fhMode := .none }, n.staleFh ++ [n.fh])
    else ({ n with staleFh := [] }, n.staleFh)
  else (n, [])

def dropOpen (n : Node) : Node × Option Handle :=
  let n := { n with opens := n.opens - 1 }
  if n.opens = 0 ∧ n.fhUsers = 0 ∧ n.fhMode ≠ .none then ({ n with fhMode := .none }, some n.fh) else (n, none)

def dropHandle (n : Node) : Node × Option Handle :=
  if n.fhMode ≠ .none then ({ n with fhMode := .none }, some n.fh) else (n, none)

/-- `hostfs_create` under the lock: the new handle becomes the node's, or it is one too many. -/
def created (n : Node) (fh : Option Handle) : Node × Bool :=
  match fh with
  | none => ({ n with opens := n.opens + 1 }, false)
  | some fh =>
    if n.fhMode = .none then ({ n with opens := n.opens + 1, fh, fhMode := .rdwr }, false)
    else ({ n with opens := n.opens + 1 }, true)

end Node

inductive Opcode
  | read
  | write
  | flush
  | fsync

/-- A reply, as far as page I/O reads it: what was read, or `fuse_write_out`'s size. -/
structure Reply where
  ok : Bool := true
  size : Nat := 0

/-- The answer to `FUSE_CREATE`. -/
inductive Created
  | failed
  | unsupported
  | made (fh : Handle)

inductive Act
  /-- `node_get_fh` up to where it gives the lock back -/
  | getFh (write : Bool)
  | putFh
  /-- whether `fhMode` is `O_RDWR` -/
  | haveFh
  | addOpen
  | dropOpen
  | dropHandle
  | created (fh : Option Handle)
  | size
  | release (fh : Handle)
  | request (op : Opcode) (fh : Handle)
  /-- what has nothing to do with handles, and may fail -/
  | other
  | fuseCreate
  /-- `Release` of a handle no node has taken -/
  | giveBack (fh : Handle)
  | acquireEntry
  | unpend
  | getVnode
  /-- the VFS has the cookie from here on -/
  | giveCookie
  /-- the VFS drops the reference it called the hook with; page I/O is done -/
  | leave
  | leavePages
  | deleteCache
  | unpublish

abbrev Answer : Act → Type
  | .getFh _ => Option (Handle × Option Handle)
  | .putFh => List Handle
  | .haveFh | .created _ | .other | .acquireEntry | .getVnode => Bool
  | .dropOpen | .dropHandle => Option Handle
  | .size => Nat
  | .request _ _ => Reply
  | .fuseCreate => Created
  | _ => Unit

abbrev Hook := Prog Act Answer

abbrev ask (a : Act) : Hook (Answer a) := Prog.one a

/-! ## The hooks -/

def releaseAll : List Handle → Hook Unit
  | [] => pure ()
  | fh :: fhs => do
    ask (.release fh)
    releaseAll fhs

/-- `node_get_fh`. -/
def nodeGetFh (write : Bool) : Hook (Option Handle) := do
  match ← ask (.getFh write) with
  | none => pure none
  | some (fh, old) =>
    releaseAll old.toList
    pure (some fh)

/-- `node_put_fh`. -/
def nodePutFh : Hook Unit := do
  let fhs ← ask .putFh
  releaseAll fhs

/-- The loop over one vector of `hostfs_read_pages`; whether all went well, and the end of the file was met. -/
def readVec (m : Mount) (fh : Handle) (length vecDone : Nat) (eof : Bool) : Hook (Bool × Bool) :=
  if vecDone < length then
    if eof then readVec m fh length (vecDone + min (length - vecDone) m.maxRead) eof
    else do
      let r ← ask (.request .read fh)
      if r.ok then
        readVec m fh length (vecDone + min (length - vecDone) m.maxRead) (r.size < min (length - vecDone) m.maxRead)
      else pure (false, eof)
  else pure (true, eof)
termination_by length - vecDone
decreasing_by
  all_goals
    have := m.maxRead_pos
    omega

def readVecs (m : Mount) (fh : Handle) (requested : Nat) : List Nat → Nat → Bool → Hook Unit
  | [], _, _ => pure ()
  | length :: vecs, done, eof =>
    if done < requested then do
      let (ok, eof) ← readVec m fh (min length (requested - done)) 0 eof
      if ok then readVecs m fh requested vecs (done + min length (requested - done)) eof else pure ()
    else pure ()

def readPages (m : Mount) (vecs : List Nat) (requested : Nat) : Hook Unit := do
  match ← nodeGetFh false with
  | none => ask .leavePages
  | some fh =>
    readVecs m fh requested vecs 0 false
    nodePutFh
    ask .leavePages

def writeVec (m : Mount) (fh : Handle) (length vecDone : Nat) : Hook Bool :=
  if vecDone < length then do
    let r ← ask (.request .write fh)
    if r.ok = false ∨ r.size = 0 ∨ min (length - vecDone) m.maxWrite < r.size then pure false
    else writeVec m fh length (vecDone + r.size)
  else pure true
termination_by length - vecDone
decreasing_by all_goals omega

def writeVecs (m : Mount) (fh : Handle) (toWrite : Nat) : List Nat → Nat → Hook Unit
  | [], _ => pure ()
  | length :: vecs, done =>
    if done < toWrite then do
      if ← writeVec m fh (min length (toWrite - done)) 0 then
        writeVecs m fh toWrite vecs (done + min length (toWrite - done))
      else pure ()
    else pure ()

def writePages (m : Mount) (pos : Nat) (vecs : List Nat) (requested : Nat) : Hook Unit := do
  if m.readOnly then ask .leavePages
  else
    let size ← ask .size
    if min requested (size - pos) = 0 then ask .leavePages
    else
      match ← nodeGetFh true with
      | none => ask .leavePages
      | some fh =>
        writeVecs m fh (min requested (size - pos)) vecs 0
        nodePutFh
        ask .leavePages

/-- After `file_cache_sync`, which is page I/O. -/
def fsync : Hook Unit := do
  if ← ask .haveFh then
    match ← nodeGetFh false with
    | none => ask .leave
    | some fh =>
      let _ ← ask (.request .fsync fh)
      nodePutFh
      ask .leave
  else ask .leave

def tryOpen (truncate : Bool) : Hook Bool := do
  match ← nodeGetFh true with
  | none => pure false
  | some _ =>
    nodePutFh
    if truncate then ask .other else pure true

/-- `hostfs_open` once the node is a file; `truncate` is `O_TRUNC`. -/
def openFile (writable truncate : Bool) : Hook Unit := do
  if ← ask .other then
    ask .addOpen
    let ok ← if writable then tryOpen truncate else pure true
    if ok then
      ask .giveCookie
      ask .leave
    else
      let fh ← ask .dropOpen
      releaseAll fh.toList
      ask .leave
  else ask .leave

/-- `hostfs_close`. -/
def close (writable : Bool) : Hook Unit := do
  if writable then
    match ← nodeGetFh false with
    | none => ask .leave
    | some fh =>
      let _ ← ask (.request .flush fh)
      nodePutFh
      ask .leave
  else ask .leave

/-- `hostfs_free_cookie`. -/
def freeCookie : Hook Unit := do
  let fh ← ask .dropOpen
  releaseAll fh.toList
  ask .leave

/-- `Release` of the handle that came with a new file. -/
def giveBack : Option Handle → Hook Unit
  | none => pure ()
  | some fh => ask (.giveBack fh)

/-- The rest of `hostfs_create`, once the host has made the file; `fh` is the handle that came with it. -/
def createNode (fh : Option Handle) : Hook Unit := do
  if ← ask .acquireEntry then
    if ← ask (.created fh) then giveBack fh else pure ()
    if ← ask .getVnode then
      ask .unpend
      ask .giveCookie
      ask .leave
    else
      let old ← ask .dropOpen
      releaseAll old.toList
      ask .unpend
  else giveBack fh

/-- `hostfs_create`. -/
def create (m : Mount) : Hook Unit := do
  if m.readOnly then pure ()
  else
    match ← ask .fuseCreate with
    | .made fh => createNode (some fh)
    | .unsupported => if ← ask .other then createNode none else pure ()
    | .failed => pure ()

def lookup : Hook Unit := do
  if ← ask .acquireEntry then
    if ← ask .getVnode then
      ask .unpend
      ask .leave
    else ask .unpend
  else pure ()

/-- `hostfs_put_vnode`, and `hostfs_remove_vnode`. -/
def putVnode : Hook Unit := do
  ask .deleteCache
  let fh ← ask .dropHandle
  releaseAll fh.toList
  ask .unpublish

/-! ## The file and its threads -/

/-- Where the VFS is with the vnode: in use, or in `put_vnode` before or behind `file_cache_delete`. -/
inductive Stage
  | open_
  | deleting
  | closing
  deriving DecidableEq

structure State where
  node : Node := {}
  /-- the node is in memory -/
  alive : Bool := false
  pending : Nat := 0
  published : Bool := false
  stage : Stage := .open_
  cookies : Nat := 0
  /-- the hooks the VFS has a reference for, and the page I/O of the file cache -/
  busy : Nat := 0
  paging : Nat := 0
  /-- what the host has open -/
  opened : Multiset Handle := 0
  /-- of that, what came with a new file, and no node has -/
  brought : Multiset Handle := 0
  fresh : Handle := 0
  threads : List (Hook Unit) := []

structure Choice where
  first : Opened := .ok
  second : Opened := .ok
  reply : Reply := {}
  ok : Bool := true
  unsupported : Bool := false
  size : Nat := 0

namespace State

def perform (m : Mount) (s : State) (c : Choice) : (a : Act) → Option (State × Answer a)
  | .getFh write =>
    match s.node.getFh m write c.first c.second s.fresh with
    | none => some (s, none)
    | some (node, fh, old, true) =>
      some ({ s with node, opened := fh ::ₘ s.opened, fresh := s.fresh + 1 }, some (fh, old))
    | some (node, fh, old, false) => some ({ s with node }, some (fh, old))
  | .putFh => some ({ s with node := s.node.putFh.1 }, s.node.putFh.2)
  | .haveFh => some (s, s.node.fhMode == .rdwr)
  | .addOpen => some ({ s with node := { s.node with opens := s.node.opens + 1 } }, ())
  | .dropOpen => some ({ s with node := s.node.dropOpen.1 }, s.node.dropOpen.2)
  | .dropHandle => some ({ s with node := s.node.dropHandle.1 }, s.node.dropHandle.2)
  | .created fh =>
    some ({ s with
      node := (s.node.created fh).1
      brought := if (s.node.created fh).2 then s.brought else s.brought - (fh.map ({·})).getD 0 }, (s.node.created fh).2)
  | .size => some (s, c.size)
  | .release fh => some ({ s with opened := s.opened.erase fh }, ())
  | .request _ _ => some (s, c.reply)
  | .other => some (s, c.ok)
  | .fuseCreate =>
    if c.ok then
      some ({ s with opened := s.fresh ::ₘ s.opened, brought := s.fresh ::ₘ s.brought, fresh := s.fresh + 1 }, .made s.fresh)
    else some (s, if c.unsupported then .unsupported else .failed)
  | .giveBack fh => some ({ s with opened := s.opened.erase fh, brought := s.brought.erase fh }, ())
  | .acquireEntry =>
    if c.ok then some ({ s with node := if s.alive then s.node else {}, alive := true, pending := s.pending + 1 }, true)
    else some (s, false)
  | .unpend => some ({ s with pending := s.pending - 1 }, ())
  | .getVnode =>
    if c.ok then if s.stage = .open_ then some ({ s with published := true, busy := s.busy + 1 }, true) else none
    else some (s, false)
  | .giveCookie => some ({ s with cookies := s.cookies + 1 }, ())
  | .leave => some ({ s with busy := s.busy - 1 }, ())
  | .leavePages => some ({ s with paging := s.paging - 1 }, ())
  | .deleteCache => if s.paging = 0 then some ({ s with stage := .closing }, ()) else none
  | .unpublish => some ({ s with published := false, stage := .open_ }, ())

end State

inductive Start
  | readPages (vecs : List Nat) (requested : Nat)
  | writePages (pos : Nat) (vecs : List Nat) (requested : Nat)
  | fsync
  | openFile (writable truncate : Bool)
  | close (writable : Bool)
  | freeCookie
  | create
  | lookup
  | putVnode
  | reclaim

inductive Event
  | start (hook : Start)
  | act (i : Nat) (c : Choice)

namespace State

def call (s : State) (hook : Hook Unit) (may : Bool) : Option State :=
  if may = true then some { s with busy := s.busy + 1, threads := s.threads ++ [hook] } else none

/-- The file cache does page I/O; before it is deleted it writes back what is left. -/
def page (s : State) (hook : Hook Unit) (may : Bool) : Option State :=
  if may = true then some { s with paging := s.paging + 1, threads := s.threads ++ [hook] } else none

/-- A hook starts; `_Reclaim` is that of a node nobody needs, and takes its handle. -/
def start (m : Mount) (s : State) : Start → Option State
  | .readPages vecs requested => s.page (HostfsFile.readPages m vecs requested) (s.published && s.stage == .open_)
  | .writePages pos vecs requested => s.page (HostfsFile.writePages m pos vecs requested) (s.published && s.stage != .closing)
  | .fsync => s.call HostfsFile.fsync (s.published && s.stage == .open_)
  | .openFile writable truncate => s.call (HostfsFile.openFile writable truncate) (s.published && s.stage == .open_)
  | .close writable => s.call (HostfsFile.close writable) (s.published && s.stage == .open_ && s.cookies != 0)
  | .freeCookie =>
    State.call { s with cookies := s.cookies - 1 } HostfsFile.freeCookie (s.published && s.stage == .open_ && s.cookies != 0)
  | .create => some { s with threads := s.threads ++ [HostfsFile.create m] }
  | .lookup => some { s with threads := s.threads ++ [HostfsFile.lookup] }
  | .putVnode =>
    if s.published = true ∧ s.stage = .open_ ∧ s.cookies = 0 ∧ s.busy = 0 ∧ s.paging = 0 then
      some { s with stage := .deleting, threads := s.threads ++ [HostfsFile.putVnode] }
    else none
  | .reclaim =>
    if s.alive = true ∧ s.published = false ∧ s.pending = 0 then
      some { s with alive := false, node := {}, threads := s.threads ++ [releaseAll s.node.dropHandle.2.toList] }
    else none

def step (m : Mount) (s : State) : Event → Option State
  | .start hook => s.start m hook
  | .act i c =>
    match s.threads[i]? with
    | some (.act a k) => (s.perform m c a).map fun x => { x.1 with threads := x.1.threads.set i (k x.2) }
    | _ => none

end State
end HostfsFile
end Prose
