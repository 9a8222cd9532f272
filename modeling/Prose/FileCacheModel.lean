import Prose.HandlesModel
/-!
# FileCacheModel — the size and the stamp of one file in hostfs

The hooks of `kernel_interface.cpp` on one file, as far as they read or set its size, its stamp and its locks.  The host
changes the file when it likes; of a page only the change it was read after is kept, and of attributes also the change they
were told after, which no hook looks at.  A size is an unbounded integer: `pos + *_length` is taken not to overflow.  What the
kernel does to its cache is `fill` and `evict`, and inside the hooks `file_cache_disable`, which waits for pages that are read.
-/
namespace Prose
namespace HostfsCache

open Tasks
open HostfsFile (Mount Reply)

/-- What `node_take_attr` compares of a `fuse_attr`. -/
structure Attr where
  mtime : Nat
  mtimensec : Nat
  size : Nat
  deriving DecidableEq

structure Seen where
  attr : Attr
  version : Nat

structure Clip where
  size : Int
  truncations : Nat

structure Range where
  pos : Int
  stop : Int

/-- The part of a `Node` that is about its size and its stamp. -/
structure Node where
  attr : Attr
  size : Int
  stale : Bool := false
  stamp : Seen
  writers : Nat := 0

namespace Node

/-- `node_take_attr`. -/
def takeAttr (n : Node) (a : Seen) : Node :=
  let n := { n with attr := a.attr }
  if n.writers > 0 then n
  else if a.attr = n.stamp.attr then n
  else { n with stale := true }

/-- `node_set_stamp`. -/
def setStamp (n : Node) (a : Seen) : Node := { n with attr := a.attr, stamp := a, stale := false }

/-- Whether `node_refresh_cache` has anything to do. -/
def worth (n : Node) : Bool := n.stale && n.writers == 0

/-- The locked part of `node_refresh_cache`, with what the host told, if it did. -/
def adopt (n : Node) : Option Seen → Node
  | some a => { n.setStamp a with size := a.attr.size }
  | none => { n with size := n.attr.size }

/-- The locked part of `hostfs_close`. -/
def closed (n : Node) (a : Seen) : Node :=
  if n.writers = 1 then
    if (a.attr.size : Int) = n.size then n.setStamp a else { n with attr := a.attr, stale := true }
  else n

end Node

/-- What a `FUSE_SETATTR` sets. -/
inductive Change
  | mode
  | times
  | size (size : Nat)

inductive Act
  | lockRefresh
  | unlockRefresh
  | lockSize
  | unlockSize
  | lockShared
  | unlockShared
  /-- whether `attrTime` is recent -/
  | fresh
  /-- a request that is answered with the attributes -/
  | getAttr
  | setAttr (change : Change)
  | takeAttr (a : Seen)
  | worth
  /-- `file_cache_disable` -/
  | disable
  | adopt (a : Option Seen)
  | enable
  | getSize
  /-- a write makes the file longer, to here -/
  | grow (append : Bool) (range : Range)
  | setSize (size : Int) (a : Seen)
  /-- `node_set_stamp` of what `FUSE_SETATTR` answered -/
  | setStamp (a : Seen)
  | closed (a : Seen)
  /-- one writer more, if the cookie is one; the open began after so many changes -/
  | addOpen (writable : Bool) (since : Nat) (quiet : Option Nat)
  | dropOpen (writable : Bool)
  /-- the VFS has the cookie from here on -/
  | giveCookie (writable : Bool)
  /-- `FUSE_WRITE`, clipped against that size -/
  | write (clip : Clip) (range : Range)
  /-- what has nothing to do with all this, and may fail -/
  | other

abbrev Answer : Act → Type
  | .fresh | .worth | .disable | .other => Bool
  | .getAttr | .setAttr _ => Option Seen
  | .getSize => Clip
  | .write _ _ => Reply
  | _ => Unit

abbrev Hook := Prog Act Answer

abbrev ask (a : Act) : Hook (Answer a) := Prog.one a

/-! ## The hooks -/

/-- `node_refresh_cache`. -/
def refreshCache : Hook Unit := do
  if ← ask .worth then
    ask .lockRefresh
    if ← ask .worth then
      if ← ask .disable then
        let a ← ask .getAttr
        ask .lockSize
        ask (.adopt a)
        ask .unlockSize
        ask .enable
        ask .unlockRefresh
      else ask .unlockRefresh
    else ask .unlockRefresh
  else pure ()

/-- `node_revalidate`; whether the host answered. -/
def revalidate (force : Bool) : Hook Bool := do
  let fresh ← if force then pure false else ask .fresh
  if fresh then
    refreshCache
    pure true
  else
    match ← ask .getAttr with
    | none => pure false
    | some a =>
      ask (.takeAttr a)
      refreshCache
      pure true

/-- `hostfs_lookup`, and whatever else is told the attributes with the name: a listing, a link, the poll. -/
def lookup : Hook Unit := do
  match ← ask .getAttr with
  | none => pure ()
  | some a => ask (.takeAttr a)

/-- `hostfs_read_stat`, and `hostfs_read` up to the file cache. -/
def readStat : Hook Unit := do
  let _ ← revalidate false

/-- `node_set_size`; whether the host has done it. -/
def setSize (size : Int) : Hook Bool := do
  if size < 0 then pure false
  else
    ask .lockRefresh
    ask .lockSize
    match ← ask (.setAttr (.size size.toNat)) with
    | none =>
      ask .unlockSize
      ask .unlockRefresh
      pure false
    | some a =>
      ask (.setSize size a)
      ask .unlockSize
      ask .unlockRefresh
      pure true

/-- The second half of `hostfs_write_stat`, on what is no size. -/
def writeAttr (change : Option Change) : Hook Unit := do
  match change with
  | none => pure ()
  | some change =>
    match ← ask (.setAttr change) with
    | none => pure ()
    | some a => ask (.setStamp a)

/-- `hostfs_write_stat`; `mode` and `times` are whether the mask has any of these. -/
def writeStat (m : Mount) (size : Option Int) (mode times : Bool) : Hook Unit := do
  if m.readOnly then pure ()
  else
    let ok ← match size with
      | none => pure true
      | some size => setSize size
    if ok then writeAttr (if times then some .times else if mode then some .mode else none) else pure ()

def tryOpen (truncate : Bool) : Hook Bool := do
  if ← ask .other then
    if truncate then setSize 0 else pure true
  else pure false

/-- `hostfs_open`; the last two only say when it began. -/
def openFile (m : Mount) (writable truncate : Bool) (since : Nat) (quiet : Option Nat) : Hook Unit := do
  if writable && m.readOnly then pure ()
  else if ← revalidate true then
    ask (.addOpen writable since quiet)
    let ok ← if writable then tryOpen truncate else pure true
    if ok then ask (.giveCookie writable) else ask (.dropOpen writable)
  else pure ()

/-- `hostfs_close`, after `file_cache_sync`, which is page I/O. -/
def close (writable : Bool) : Hook Unit := do
  if writable then
    let _ ← ask .other
    match ← ask .getAttr with
    | none => pure ()
    | some a => ask (.closed a)
  else pure ()

/-- `hostfs_free_cookie`. -/
def freeCookie (writable : Bool) : Hook Unit := ask (.dropOpen writable)

/-- `hostfs_write` up to `file_cache_write`: the range is reserved. -/
def write (m : Mount) (append : Bool) (pos : Int) (length : Nat) : Hook Unit := do
  if m.readOnly ∨ pos < 0 ∨ length = 0 then pure ()
  else
    ask .lockRefresh
    ask .lockSize
    let clip ← ask .getSize
    let pos := if append then clip.size else pos
    if clip.size < pos + length then ask (.grow append ⟨pos, pos + length⟩) else pure ()
    ask .unlockSize
    ask .unlockRefresh

/-- The loop over one vector of `hostfs_write_pages`, from that position on. -/
def writeVec (m : Mount) (clip : Clip) (pos : Int) (length vecDone : Nat) : Hook Bool :=
  if vecDone < length then do
    let r ← ask (.write clip ⟨pos + vecDone, pos + vecDone + min (length - vecDone) m.maxWrite⟩)
    if r.ok = false ∨ r.size = 0 ∨ min (length - vecDone) m.maxWrite < r.size then pure false
    else writeVec m clip pos length (vecDone + r.size)
  else pure true
termination_by length - vecDone
decreasing_by all_goals omega

def writeVecs (m : Mount) (clip : Clip) (pos : Int) (toWrite : Nat) : List Nat → Nat → Hook Unit
  | [], _ => pure ()
  | length :: vecs, done =>
    if done < toWrite then do
      if ← writeVec m clip (pos + done) (min length (toWrite - done)) 0 then
        writeVecs m clip pos toWrite vecs (done + min length (toWrite - done))
      else pure ()
    else pure ()

/-- `toWrite` of `hostfs_write_pages`. -/
def toWrite (size pos : Int) (requested : Nat) : Nat := if size ≤ pos then 0 else (min (requested : Int) (size - pos)).toNat

/-- `hostfs_write_pages`. -/
def writePages (m : Mount) (pos : Int) (vecs : List Nat) (requested : Nat) : Hook Unit := do
  if m.readOnly then pure ()
  else
    ask .lockShared
    let clip ← ask .getSize
    if toWrite clip.size pos requested = 0 then ask .unlockShared
    else if ← ask .other then
      writeVecs m clip pos (toWrite clip.size pos requested) vecs 0
      ask .unlockShared
    else ask .unlockShared

/-! ## The file and its threads -/

structure State where
  node : Node
  /-- the threads that have the locks, the last shared -/
  refreshLock : Option Nat := none
  sizeLock : Option Nat := none
  readers : List Nat := []
  /-- the host's file, and all it has been -/
  host : Seen
  past : List Seen
  /-- how many requests to set its size the host has had -/
  truncations : Nat := 0
  /-- the pages in the cache, by what they were read after; none while it is disabled -/
  pages : List Nat := []
  disabled : Bool := false
  /-- the cookies that may write -/
  cookies : Nat := 0
  writerOpens : Nat := 0
  /-- what `O_APPEND` writes have reserved since the last truncation, and since the last truncation or refresh -/
  appends : List Range := []
  recent : List Range := []
  /-- the changes that opens without a writer about have come after -/
  opened : Nat := 0
  threads : List (Hook Unit) := []

structure Choice where
  ok : Bool := true
  attr : Attr := ⟨0, 0, 0⟩
  reply : Reply := {}

namespace State

def initial (attr : Attr) : State :=
  { node := { attr, size := attr.size, stamp := ⟨attr, 0⟩ }, host := ⟨attr, 0⟩, past := [⟨attr, 0⟩] }

def setHost (s : State) (host : Seen) : State := { s with host, past := host :: s.past }

/-- What the attributes are after a request to set some; the clock is the host's. -/
def changed (s : State) (attr : Attr) : Change → Attr
  | .mode => s.host.attr
  | .times => { attr with size := s.host.attr.size }
  | .size size => { attr with size }

def requested (s : State) : Change → State
  | .size _ => { s with truncations := s.truncations + 1 }
  | _ => s

def perform (s : State) (i : Nat) (c : Choice) : (a : Act) → Option (State × Answer a)
  | .lockRefresh => if s.refreshLock = none then some ({ s with refreshLock := some i }, ()) else none
  | .unlockRefresh => some ({ s with refreshLock := none }, ())
  | .lockSize => if s.sizeLock = none ∧ s.readers = [] then some ({ s with sizeLock := some i }, ()) else none
  | .unlockSize => some ({ s with sizeLock := none }, ())
  | .lockShared => if s.sizeLock = none then some ({ s with readers := i :: s.readers }, ()) else none
  | .unlockShared => some ({ s with readers := s.readers.erase i }, ())
  | .fresh => some (s, c.ok)
  | .getAttr => some (s, if c.ok then some s.host else none)
  | .setAttr change =>
    if c.ok then
      some ((s.requested change).setHost ⟨s.changed c.attr change, s.host.version⟩,
        some ⟨s.changed c.attr change, s.host.version⟩)
    else some (s.requested change, none)
  | .takeAttr a => some ({ s with node := s.node.takeAttr a }, ())
  | .worth => some (s, s.node.worth)
  | .disable => if c.ok then some ({ s with pages := [], disabled := true }, true) else some (s, false)
  | .adopt a => some ({ s with node := s.node.adopt a, recent := [] }, ())
  | .enable => some ({ s with disabled := false }, ())
  | .getSize => some (s, ⟨s.node.size, s.truncations⟩)
  | .grow append range =>
    some ({ s with
      node := { s.node with size := range.stop }
      appends := if append then range :: s.appends else s.appends
      recent := if append then range :: s.recent else s.recent }, ())
  | .setSize size a => some ({ s with node := { s.node.setStamp a with size }, appends := [], recent := [] }, ())
  | .setStamp a => some ({ s with node := s.node.setStamp a }, ())
  | .closed a => some ({ s with node := s.node.closed a }, ())
  | .addOpen writable since quiet =>
    let s := if quiet = some s.writerOpens then { s with opened := max s.opened since } else s
    some (if writable then
      { s with node := { s.node with writers := s.node.writers + 1 }, writerOpens := s.writerOpens + 1 } else s, ())
  | .dropOpen writable =>
    some (if writable then { s with node := { s.node with writers := s.node.writers - 1 } } else s, ())
  | .giveCookie writable => some (if writable then { s with cookies := s.cookies + 1 } else s, ())
  | .write _ _ => some (if c.reply.ok then s.setHost ⟨c.attr, s.host.version⟩ else s, c.reply)
  | .other => some (s, c.ok)

end State

inductive Start
  | lookup
  | readStat
  | openFile (writable truncate : Bool)
  | close (writable : Bool)
  | freeCookie (writable : Bool)
  | writeStat (size : Option Int) (mode times : Bool)
  | write (append : Bool) (pos : Int) (length : Nat)
  | writePages (pos : Int) (vecs : List Nat) (requested : Nat)

inductive Event
  | start (hook : Start)
  | act (i : Nat) (c : Choice)
  /-- the host changes the file -/
  | host (attr : Attr)
  /-- a page is read -/
  | fill
  /-- the kernel has no room for a page, or puts the vnode -/
  | evict (n : Nat)

namespace State

def start (m : Mount) (s : State) : Start → Option State
  | .lookup => some { s with threads := s.threads ++ [HostfsCache.lookup] }
  | .readStat => some { s with threads := s.threads ++ [HostfsCache.readStat] }
  | .openFile writable truncate =>
    some { s with threads := s.threads ++ [HostfsCache.openFile m writable truncate s.host.version
      (if s.node.writers = 0 then some s.writerOpens else none)] }
  | .close writable =>
    if writable = true → s.cookies ≠ 0 then some { s with threads := s.threads ++ [HostfsCache.close writable] } else none
  | .freeCookie writable =>
    if writable = true → s.cookies ≠ 0 then
      some { s with
        cookies := if writable then s.cookies - 1 else s.cookies, threads := s.threads ++ [HostfsCache.freeCookie writable] }
    else none
  | .writeStat size mode times => some { s with threads := s.threads ++ [HostfsCache.writeStat m size mode times] }
  | .write append pos length =>
    if s.cookies ≠ 0 then some { s with threads := s.threads ++ [HostfsCache.write m append pos length] } else none
  | .writePages pos vecs requested => some { s with threads := s.threads ++ [HostfsCache.writePages m pos vecs requested] }

def step (m : Mount) (s : State) : Event → Option State
  | .start hook => s.start m hook
  | .act i c =>
    match s.threads[i]? with
    | some (.act a k) => (s.perform i c a).map fun x => { x.1 with threads := x.1.threads.set i (k x.2) }
    | _ => none
  | .host attr => some (s.setHost ⟨attr, s.host.version + 1⟩)
  | .fill => if s.disabled = false then some { s with pages := s.host.version :: s.pages } else none
  | .evict n => some { s with pages := s.pages.eraseIdx n }

end State
end HostfsCache
end Prose
