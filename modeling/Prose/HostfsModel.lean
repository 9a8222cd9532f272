import Mathlib.Data.Finset.Card
import Prose.Loops
/-!
# HostfsModel — the node table of hostfs

The functions of `Volume.cpp` and of `_PollPass` and `_PollDirectory` that run under the volume lock, each one section.  A
node is what that lock guards of it; what the node's own lock guards (attributes, caches, handles) is left out.  The host's
IDs stand for pointers to nodes: a pointer is good as long as its node is in the table.  Its counters are of threads and
of nodes in memory, so they are numbers here.
-/
namespace Prose
namespace Hostfs

abbrev Id := UInt64

abbrev Name := List UInt8

/-- `FUSE_ROOT_ID`. -/
def rootID : Id := 1

/-- `HOSTFS_MAX_IDLE_NODES`. -/
def maxIdleNodes : Int := 2048

/-- `POLL_MAX_DIRECTORIES` and `POLL_MAX_ENTRIES`. -/
def pollMaxDirectories : Nat := 256

def pollMaxEntries : Nat := 4096

/-- `S_ISDIR`. -/
def isDir (mode : UInt32) : Bool := mode &&& 0xF000 == 0x4000

/-- A `fuse_entry_out`, as far as it is read. -/
structure Entry where
  nodeid : Id
  mode : UInt32
  nlink : UInt32
  deriving Inhabited

structure Node where
  directory : Bool
  parent : Id := 0
  name : Option Name := none
  lookups : Nat := 0
  pending : Int := 0
  children : Int := 0
  published : Bool := false
  listed : Bool := false
  idle : Bool := false
  deriving Inhabited

structure Volume where
  nodes : Finset Id
  node : Id → Node
  idleNodes : List Id := []
  idleCount : Int := 0

/-- The volume as `Mount` leaves it. -/
def mounted : Volume where
  nodes := {rootID}
  node := fun _ => { directory := true, published := true }

abbrev Reclaim := List (Id × Node)

namespace Volume

def modify (v : Volume) (id : Id) (f : Node → Node) : Volume :=
  { v with node := Function.update v.node id (f (v.node id)) }

/-! ## The idle list -/

def busy (v : Volume) (id : Id) : Volume :=
  if (v.node id).idle then
    { v with idleNodes := v.idleNodes.erase id, idleCount := v.idleCount - 1 }.modify id ({ · with idle := false })
  else v

def addIdle (v : Volume) (id : Id) : Volume :=
  { v with idleNodes := v.idleNodes ++ [id], idleCount := v.idleCount + 1 }.modify id ({ · with idle := true })

def removeHead (v : Volume) (id : Id) (rest : List Id) : Volume :=
  { v with nodes := v.nodes.erase id, idleNodes := rest, idleCount := v.idleCount - 1 }.modify id ({ · with idle := false })

def orphan (v : Volume) (parent : Id) : Volume :=
  if parent ≠ 0 ∧ parent ∈ v.nodes then
    let v := v.modify parent fun p => { p with children := p.children - 1 }
    let p := v.node parent
    if p.children = 0 ∧ parent ≠ rootID ∧ p.published = false ∧ p.pending = 0 ∧ p.idle = false then v.addIdle parent
    else v
  else v

/-- One round of `_TrimIdle`; a list that is empty before the count is down ends in a null pointer. -/
def trimStep (keep : Int) : Volume × Reclaim → Option (Volume × Reclaim ⊕ Volume × Reclaim)
  | (v, reclaim) =>
    if v.idleCount > keep then
      match v.idleNodes with
      | []         => none
      | id :: rest =>
        let v := v.removeHead id rest
        some (.inl (v.orphan (v.node id).parent, (id, v.node id) :: reclaim))
    else some (.inr (v, reclaim))

def trimIdle (v : Volume) (keep : Int) : Option (Volume × Reclaim) :=
  Loops.loop (trimStep keep) (v.nodes.card + 1) (v, [])

def collect (v : Volume) (id : Id) : Option (Volume × Reclaim) :=
  let n := v.node id
  if id = rootID ∨ n.published = true ∨ n.pending > 0 ∨ n.children > 0 ∨ n.idle = true then some (v, [])
  else (v.addIdle id).trimIdle maxIdleNodes

/-! ## Parents -/

def former (v : Volume) (id parent : Id) : Option Id :=
  let old := (v.node id).parent
  if old ≠ parent ∧ old ≠ 0 ∧ old ∈ v.nodes then some old else none

def left (v : Volume) : Option Id → Volume
  | some old => v.modify old fun n => { n with children := n.children - 1 }
  | none     => v

/-- The directory it is in now has one more; a directory with a child in the table is never idle. -/
def entered (v : Volume) (id parent : Id) : Volume :=
  if parent ∈ v.nodes then
    ((v.busy parent).modify parent fun n => { n with children := n.children + 1 }).modify id ({ · with parent := parent })
  else v.modify id ({ · with parent := 0 })

def reparent (v : Volume) (id parent : Id) : Volume :=
  if (v.node id).parent ≠ parent then (v.left (v.former id parent)).entered id parent else v

def named (v : Volume) (id : Id) (name : Name) (copied : Bool) : Volume :=
  if (v.node id).name ≠ some name ∧ copied = true then v.modify id ({ · with name := some name }) else v

/-- `_SetParent`: the former parent, if it changed. -/
def setParent (v : Volume) (id parent : Id) (name : Name) (copied : Bool) : Volume × Option Id :=
  ((v.reparent id parent).named id name copied, v.former id parent)

/-- `_Collect` for the former parent. -/
def collectOld (v : Volume) : Option Id → Option (Volume × Reclaim)
  | some old => v.collect old
  | none     => some (v, [])

/-! ## The sections -/

/-- `_Busy`, and one more pending. -/
def pin (v : Volume) (id : Id) : Volume := (v.busy id).modify id fun n => { n with pending := n.pending + 1 }

def insert (v : Volume) (entry : Entry) : Volume :=
  { v with nodes := Insert.insert entry.nodeid v.nodes }.modify entry.nodeid fun _ => { directory := isDir entry.mode }

def known (v : Volume) (entry : Entry) : Volume := if entry.nodeid ∈ v.nodes then v else v.insert entry

/-- `_Busy`, one lookup more, and one more pending. -/
def handedOut (v : Volume) (id : Id) : Volume :=
  (v.busy id).modify id fun n => { n with lookups := n.lookups + 1, pending := n.pending + 1 }

def foundIn (v : Volume) (nodeid : Id) (copied : Bool) : Option (Id × Name) → Option (Volume × Reclaim)
  | some (parent, name) =>
    if nodeid ≠ rootID ∧ parent ≠ 0 then
      let moved := v.setParent nodeid parent name copied
      moved.1.collectOld moved.2
    else some (v, [])
  | none => some (v, [])

/-- `AcquireEntry` under the lock; `none` inside where there is no node.  `at_`: the directory and the name, where the
caller has them. -/
def acquireEntry (v : Volume) (entry : Entry) (at_ : Option (Id × Name)) (memory copied : Bool) :
    Option (Volume × Option Reclaim) :=
  if entry.nodeid = 0 then some (v, none)
  else if entry.nodeid ∉ v.nodes ∧ memory = false then some (v, none)
  else (((v.known entry).handedOut entry.nodeid).foundIn entry.nodeid copied at_).map fun x => (x.1, some x.2)

def acquireNode (v : Volume) (nodeid : Id) : Volume × Option Id :=
  if nodeid ∈ v.nodes then (v.pin nodeid, some nodeid) else (v, none)

def acquireParent (v : Volume) (id : Id) : Option (Volume × Option Id) :=
  if id ∈ v.nodes then
    let parent := if id = rootID then rootID else (v.node id).parent
    some (if parent ≠ 0 then v.acquireNode parent else (v, none))
  else none

def unpend (v : Volume) (id : Id) : Option (Volume × Reclaim) :=
  if id ∈ v.nodes ∧ 0 < (v.node id).pending then
    (v.modify id fun n => { n with pending := n.pending - 1 }).collect id
  else none

def publish (v : Volume) (id : Id) : Option Volume :=
  if id ∈ v.nodes then some ((v.busy id).modify id ({ · with published := true })) else none

def unpublish (v : Volume) (id : Id) : Option (Volume × Reclaim) :=
  if id ∈ v.nodes then (v.modify id ({ · with published := false })).collect id else none

def moved (v : Volume) (id parent : Id) (name : Name) (copied : Bool) : Option (Volume × Reclaim) :=
  if id ∈ v.nodes then
    let moved := v.setParent id parent name copied
    moved.1.collectOld moved.2
  else none

/-- The first so many nodes of a kind, as the table's iterator comes by them: in any order, and all if there are fewer. -/
def Iterated (nodes : Finset Id) (p : Id → Prop) (max : Nat) (l : List Id) : Prop :=
  l.Nodup ∧ (∀ id ∈ l, id ∈ nodes ∧ p id) ∧ l.length ≤ max ∧ (l.length = max ∨ ∀ id ∈ nodes, p id → id ∈ l)

instance (nodes : Finset Id) (p : Id → Prop) [DecidablePred p] (max : Nat) (l : List Id) :
    Decidable (Iterated nodes p max l) :=
  have : Decidable (∀ id ∈ l, id ∈ nodes ∧ p id) := List.decidableBAll _ l
  have : Decidable (∀ id ∈ nodes, p id → id ∈ l) := Finset.decidableDforallFinset
  inferInstanceAs (Decidable (_ ∧ _ ∧ _ ∧ _))

/-- The directories of a `_PollPass`. -/
def pinDirectories (v : Volume) (directories : List Id) : Option Volume :=
  if Iterated v.nodes (fun id => (v.node id).published = true ∧ (v.node id).directory = true) pollMaxDirectories
      directories then
    some (directories.foldl pin v)
  else none

def markListed (v : Volume) (id : Id) : Option (Volume × Bool) :=
  if id ∈ v.nodes then some (v.modify id ({ · with listed := true }), !(v.node id).listed) else none

def pend (v : Volume) (id : Id) : Volume := v.modify id fun n => { n with pending := n.pending + 1 }

/-- The children of a directory that `_PollDirectory` knows, pinned. -/
def pinChildren (v : Volume) (dir : Id) (known : List Id) : Option Volume :=
  if Iterated v.nodes (fun id => (v.node id).parent = dir ∧ (v.node id).name ≠ none) pollMaxEntries known then
    some (known.foldl pend v)
  else none

end Volume

end Hostfs
end Prose
