import Mathlib.Data.List.Sort
import Mathlib.Logic.Function.Basic
import Prose.Extents
/-!
# PagesModel — `PagesAllocator`, the pages under libroot's malloc

The heap's areas, the free chunks in their two trees and the recency list, with the headers in the chunks' own first bytes.
Every section under `fLock` is one step; a thread in `_DiscardAboveLimit` lets go of the lock between two of them.  What the
kernel answers, and what bytes come to be where nobody decides them, are parts of the events.  Addresses and sizes are
numbers: the kernel gives out no address past the last.
-/
namespace Prose
namespace Pages

structure Target where
  /-- `B_PAGE_SIZE` -/
  systemPage : Nat
  /-- `sizeof(FreeChunk)` -/
  headerSize : Nat
  /-- `B_HAIKU_64_BIT` -/
  bits64 : Bool
  /-- `fResidentFreeMaximum`: a share of the machine's memory. -/
  residentFreeMaximum : Nat
  /-- Which of two chunks of one size the size tree has first. -/
  tie : Nat → Nat → Bool
  systemPage_dvd : systemPage ∣ 16384
  headerSize_le : headerSize ≤ systemPage

/-- `kPageSize`. -/
def Target.pageSize (t : Target) : Nat := if t.systemPage > 16384 then t.systemPage else 16384

/-- `kHeapAreaSize`. -/
def Target.heapAreaSize (t : Target) : Nat := if t.bits64 then 64 * 1024 * 1024 * 1024 else 256 * 1024 * 1024

def Target.base (t : Target) (reservation : Nat) : Nat := (reservation + t.pageSize - 1) / t.pageSize * t.pageSize

/-- `kMaxHeapAreas`. -/
def maxHeapAreas : Nat := 32

/-- `kLargestUsefulChunk`. -/
def Target.largestUsefulChunk (t : Target) : Nat := t.heapAreaSize / 4

/-- `kResidentFreeMinimum`. -/
def residentFreeMinimum : Nat := 32 * 1024 * 1024

/-- `kResidentSearch`. -/
def residentSearch : Nat := 8

/-- A `FreeChunk`, without the links of the trees and lists it is in. -/
structure FreeChunk where
  size : Nat := 0
  resident : Nat := 0
  inLru : Bool := false
  clean : Bool := false
  deriving Inhabited

/-- A thread that gives a chunk's pages back, without the lock; it stops at its limit. -/
structure Discard where
  chunk : Nat
  size : Nat
  limit : Nat
  deriving DecidableEq

def Discard.extent (d : Discard) : Extent := ⟨d.chunk, d.size⟩

structure State where
  used : Nat := 0
  recentPeak : Nat := 0
  residentFree : Nat := 0
  chunksByAddress : List Nat := []
  chunksBySize : List Nat := []
  /-- From the most recently freed to the least. -/
  leastRecent : List Nat := []
  heapAreas : List Extent := []
  /-- The chunk header that starts at an address, where one does. -/
  header : Nat → FreeChunk := fun _ => {}
  memory : Nat → UInt8 := fun _ => 0
  discarding : List Discard := []
  /-- What has been allocated, and not been given back. -/
  held : List Extent := []
  /-- Of it: what `malloc_mmap` has still to zero. -/
  zeroing : List Extent := []
  /-- Areas of their own that `_AllocateLarge` has made, and not counted yet. -/
  creating : List Extent := []
  /-- What has been given back, and not been unmapped yet. -/
  unmapping : List Extent := []
  /-- What is reserved behind and before the heap's areas. -/
  spare : List Extent := []

/-- The bytes and headers that come to be where nobody decides them. -/
structure Garbage where
  bytes : Nat → UInt8
  headers : Nat → FreeChunk

namespace State

variable (t : Target) (s : State)

def extent (chunk : Nat) : Extent := ⟨chunk, (s.header chunk).size⟩

/-- `NextAddress`. -/
def nextAddress (chunk : Nat) : Nat := chunk + (s.header chunk).size

def chunks : List Extent := s.chunksByAddress.map s.extent

/-! ## Memory -/

def overwrite (r : Extent) (g : Garbage) : State :=
  { s with
    memory := fun a => if r.Has a then g.bytes a else s.memory a
    header := fun c => if r.Apart ⟨c, t.headerSize⟩ then s.header c else g.headers c }

def zero (r : Extent) : State := { s with memory := fun a => if r.Has a then 0 else s.memory a }

/-- A header is written at the start of a chunk, with whatever its links are. -/
def writeHeader (chunk : Nat) (f : FreeChunk) (g : Garbage) : State :=
  { s with
    memory := fun a => if (⟨chunk, t.headerSize⟩ : Extent).Has a then g.bytes a else s.memory a
    header := Function.update s.header chunk f }

/-! ## The trees and the recency list -/

/-- `FindClosest(address, false, false)`. -/
def preceding (address : Nat) : Option Nat := (s.chunksByAddress.filter (· < address)).max?

/-- `FindClosest(address, true, true)`. -/
def following (address : Nat) : Option Nat := (s.chunksByAddress.filter (address ≤ ·)).min?

def before (a b : Nat) : Prop :=
  (s.header a).size < (s.header b).size ∨ (s.header a).size = (s.header b).size ∧ t.tie a b = true

instance : DecidableRel (s.before t) := fun _ _ => inferInstanceAs (Decidable (_ ∨ _))

/-- `_InsertNode`. -/
def insertNode (chunk : Nat) (g : Garbage) : State :=
  let resident := (s.header chunk).resident
  let listed := decide (resident > t.systemPage)
  { s with
    chunksByAddress := chunk :: s.chunksByAddress
    chunksBySize := s.chunksBySize.orderedInsert (s.before t) chunk
    residentFree := s.residentFree + resident
    leastRecent := if listed then chunk :: s.leastRecent else s.leastRecent }.writeHeader t chunk
      { s.header chunk with inLru := listed } g

/-- `_Remove`. -/
def remove (chunk : Nat) (g : Garbage) : State :=
  { s with
    chunksByAddress := s.chunksByAddress.erase chunk
    chunksBySize := s.chunksBySize.erase chunk
    residentFree := s.residentFree - (s.header chunk).resident
    leastRecent := if (s.header chunk).inLru then s.leastRecent.erase chunk else s.leastRecent }.writeHeader t chunk
      { s.header chunk with inLru := false } g

/-! ## Chunks -/

/-- The remainder of a chunk that is not used whole, back in the trees. -/
def putRest (chunk amount : Nat) (g : Garbage) : State :=
  let header := s.header chunk
  if header.size > amount then
    (s.writeHeader t (chunk + amount)
      { size := header.size - amount
        resident := if header.resident > amount then header.resident - amount else 0
        clean := header.clean } g).insertNode t (chunk + amount) g
  else s

/-- `memset(chunk, 0, sizeof(FreeChunk))`. -/
def clearHeader (chunk : Nat) : State :=
  { s.zero ⟨chunk, t.headerSize⟩ with header := Function.update s.header chunk {} }

/-- `_Use`, and what it reports in `cleared`. -/
def use (chunk amount : Nat) (g : Garbage) : State × Bool :=
  let s := s.remove t chunk g
  let clean := (s.header chunk).clean
  let s := s.putRest t chunk amount g
  (({ s with used := s.used + amount }).clearHeader t chunk, clean)

/-- The free range before the address takes the new one in, or a chunk starts there. -/
def mergePreceding (address size resident : Nat) (clean : Bool) (g : Garbage) : State × Nat :=
  match s.preceding address with
  | some chunk =>
    if s.nextAddress chunk = address then
      let s := s.remove t chunk g
      let header := s.header chunk
      (s.writeHeader t chunk { header with
        size := header.size + size, resident := header.resident + resident, clean := header.clean && clean } g, chunk)
    else (s.writeHeader t address { size, resident, clean } g, address)
  | none => (s.writeHeader t address { size, resident, clean } g, address)

def mergeFollowing (chunk : Nat) (g : Garbage) : State :=
  match s.following (s.nextAddress chunk) with
  | some f =>
    if s.nextAddress chunk = f then
      let s := s.remove t f g
      let header := s.header chunk
      s.writeHeader t chunk { header with
        size := header.size + (s.header f).size
        resident := header.resident + (s.header f).resident
        clean := header.clean && (s.header f).clean } g
    else s
  | none => s

/-- `_Insert`. -/
def insert (address size resident : Nat) (clean : Bool) (g : Garbage) : State :=
  let (s, chunk) := s.mergePreceding t address size resident clean g
  (s.mergeFollowing t chunk g).insertNode t chunk g

/-! ## Areas -/

def taken : List Extent :=
  s.held ++ s.chunks ++ s.discarding.map Discard.extent ++ s.creating ++ s.unmapping ++ s.spare

def Fresh (r : Extent) : Prop := ∀ e ∈ s.taken, e.Apart r

instance (r : Extent) : Decidable (s.Fresh r) := inferInstanceAs (Decidable (∀ e ∈ _, _))

/-- `_AddHeapArea`, where the kernel has given a reservation; what the area leaves of it stays reserved. -/
def addHeapArea (reservation : Nat) (g : Garbage) : State :=
  let base := t.base reservation
  let area : Extent := ⟨base, t.heapAreaSize⟩
  ({ s with
    heapAreas := s.heapAreas ++ [area]
    spare := s.spare ++ (⟨reservation, t.heapAreaSize + t.pageSize⟩ : Extent).without area }.zero area).insert t base
      t.heapAreaSize 0 true g

/-- `_InHeapArea`. -/
def inHeapArea (r : Extent) : Bool := s.heapAreas.any fun area => area.start ≤ r.start ∧ r.stop ≤ area.stop

/-! ## Allocating -/

def fitting (allocate : Nat) : List Nat := s.chunksBySize.dropWhile fun c => (s.header c).size < allocate

def choose (allocate : Nat) : Option Nat :=
  match s.fitting allocate with
  | []         => none
  | best :: cs =>
    some ((((best :: cs).take (residentSearch + 1)).find? fun c => (s.header c).resident ≥ allocate).getD best)

/-- The heap with an area more, if there is no chunk that fits and the kernel gives one. -/
def grown (allocate : Nat) (kernel : Option Nat) (g : Garbage) : Option State :=
  if s.fitting allocate = [] then
    if s.heapAreas.length = maxHeapAreas then none
    else kernel.map fun reservation => s.addHeapArea t reservation g
  else some s

/-- `AllocatePages`, where it needs no area of its own: the address and `cleared`, or `none` for an error. -/
def allocatePages (allocate : Nat) (kernel : Option Nat) (g : Garbage) : State × Option (Nat × Bool) :=
  match s.grown t allocate kernel g with
  | none   => (s, none)
  | some s =>
    match s.choose allocate with
    | none       => (s, none)
    | some chunk =>
      let used := s.use t chunk allocate g
      (used.1, some (chunk, used.2))

/-- `AllocatePagesAt`. -/
def allocatePagesAt (address allocate : Nat) (g : Garbage) : State × Option (Nat × Bool) :=
  if address ∈ s.chunksByAddress ∧ ¬ (s.header address).size < allocate then
    let used := s.use t address allocate g
    (used.1, some (address, used.2))
  else (s, none)

/-! ## Giving back -/

/-- `_ResidentFreeLimit`; the peak it leaves is `peak`. -/
def peak : Nat := if s.used > s.recentPeak then s.used else s.recentPeak - (s.recentPeak - s.used) / 64

def residentFreeLimit : Nat :=
  if s.peak < residentFreeMinimum then residentFreeMinimum
  else if s.peak > t.residentFreeMaximum then t.residentFreeMaximum
  else s.peak

/-- One round of `_DiscardAboveLimit`, to where it lets go of the lock. -/
def discardAbove (limit : Nat) (g : Garbage) : State :=
  if s.residentFree > limit then
    match s.leastRecent.getLast? with
    | none       => s
    | some chunk =>
      let size := (s.header chunk).size
      { s.remove t chunk g with discarding := s.discarding ++ [⟨chunk, size, limit⟩] }
  else s

/-- The end of a round: the chunk goes back, and of its pages the first is still there. -/
def putBack (d : Discard) (g : Garbage) : State :=
  ({ s with discarding := s.discarding.erase d }.overwrite t ⟨d.chunk + t.systemPage, d.size - t.systemPage⟩ g).insert t d.chunk
    d.size t.systemPage false g

/-- `FreePages`; `none` for its call of `debugger`. -/
def freePages (r : Extent) (g : Garbage) : Option State :=
  if r.size > s.used then none
  else
    let s := { s with used := s.used - r.size, held := Extents.minus s.held r }
    if s.inHeapArea r then
      let s := s.insert t r.start r.size r.size false g
      some ({ s with recentPeak := s.peak }.discardAbove t (s.residentFreeLimit t) g)
    else some { s with unmapping := s.unmapping ++ [r] }

/-- A thread is back from the kernel, and has the lock: its chunk goes back, and maybe another one is next. -/
def discarded (d : Discard) (g : Garbage) : State :=
  let s := { s with discarding := s.discarding.erase d }
  (((s.overwrite t ⟨d.chunk + t.systemPage, d.size - t.systemPage⟩ g).insert t d.chunk d.size t.systemPage false g)
    ).discardAbove t d.limit g

end State

/-! ## Runs -/

/-- What a call gives its caller, and what it says in `cleared`. -/
structure Report where
  memory : Extent
  cleared : Bool
  deriving DecidableEq

/-- Any step of any thread.  `at_` is the address of a `MAP_FIXED` call, `kernel` the reservation the kernel would give. -/
inductive Event
  /-- `__allocate_pages`, but for what gets an area of its own -/
  | allocate (at_ : Option Nat) (length : Nat) (kernel : Option Nat) (g : Garbage)
  /-- `malloc_mmap`, the same -/
  | mmap (at_ : Option Nat) (length : Nat) (noZero : Bool) (kernel : Option Nat) (g : Garbage)
  /-- `malloc_mmap`'s `memset`, and its return -/
  | memset (r : Extent)
  /-- `_AllocateLarge`, to its lock -/
  | createLarge (length reservation : Nat)
  /-- `_AllocateLarge`, the rest -/
  | countLarge (r : Extent)
  /-- `FreePages`, to where it lets go of the lock -/
  | free (r : Extent) (g : Garbage)
  /-- `_DiscardAboveLimit`, from `MADV_FREE` to where it lets go of the lock again -/
  | discarded (d : Discard) (g : Garbage)
  /-- the `munmap` of a part of a large allocation -/
  | munmap (r : Extent)
  /-- the program writes -/
  | write (r : Extent) (g : Garbage)
  /-- a tree or list turns: links are written in the headers of its chunks -/
  | relink (g : Garbage)

/-- The returns of `malloc_mmap` to callers that need zeroes. -/
def Event.wantsZeroes : Event → Bool
  | .mmap _ _ noZero _ _ => !noZero
  | .memset _            => true
  | _                    => false

/-- `malloc_mmap` rounds up to its own page size. -/
def roundUp (length : Nat) : Nat := (length + (2 ^ 14 - 1)) / 2 ^ 14 * 2 ^ 14

namespace State

variable (t : Target) (s : State)

/-- The call asks for whole pages, and the kernel has the addresses it would give. -/
def Askable (length : Nat) (kernel : Option Nat) : Prop :=
  0 < length ∧ t.pageSize ∣ length ∧ ∀ reservation ∈ kernel, s.Fresh ⟨reservation, t.heapAreaSize + t.pageSize⟩

instance (length : Nat) (kernel : Option Nat) : Decidable (s.Askable t length kernel) :=
  inferInstanceAs (Decidable (_ ∧ _ ∧ ∀ r ∈ kernel, _))

def Owned (r : Extent) : Prop := Extents.Within r s.held ∧ ∀ z ∈ s.zeroing, z.Apart r

instance (r : Extent) : Decidable (s.Owned r) := inferInstanceAs (Decidable (_ ∧ ∀ z ∈ _, _))

/-- `__allocate_pages`. -/
def pages (at_ : Option Nat) (length : Nat) (kernel : Option Nat) (g : Garbage) : State × Option (Nat × Bool) :=
  match at_ with
  | some address => s.allocatePagesAt t address length g
  | none         => s.allocatePages t length kernel g

def handOut (r : Extent) (zeroing : Bool) : State :=
  { s with held := r :: s.held, zeroing := if zeroing then r :: s.zeroing else s.zeroing }

end State

open State in
def step (t : Target) (s : State) : Event → Option (State × Option Report)
  | .allocate at_ length kernel g =>
    if s.Askable t length kernel ∧ (at_ = none → length ≤ t.largestUsefulChunk) then
      match s.pages t at_ length kernel g with
      | (s, none)                    => some (s, none)
      | (s, some (address, cleared)) => some (s.handOut ⟨address, length⟩ false, some ⟨⟨address, length⟩, cleared⟩)
    else none
  | .mmap at_ length noZero kernel g =>
    let length := roundUp length
    if s.Askable t length kernel ∧ (at_ = none → length ≤ t.largestUsefulChunk) then
      match s.pages t at_ length kernel g with
      | (s, none)                    => some (s, none)
      | (s, some (address, cleared)) =>
        if !cleared && !noZero then some (s.handOut ⟨address, length⟩ true, none)
        else some (s.handOut ⟨address, length⟩ false, some ⟨⟨address, length⟩, cleared⟩)
    else none
  | .memset r =>
    if r ∈ s.zeroing then some ({ s.zero r with zeroing := s.zeroing.erase r }, some ⟨r, false⟩) else none
  | .createLarge length reservation =>
    if t.largestUsefulChunk < length ∧ t.pageSize ∣ length ∧ s.Fresh ⟨reservation, length + t.pageSize⟩ then
      let area : Extent := ⟨t.base reservation, length⟩
      some ({ s.zero area with creating := area :: s.creating }, none)
    else none
  | .countLarge r =>
    if r ∈ s.creating then
      some ({ s with creating := s.creating.erase r, used := s.used + r.size }.handOut r false, some ⟨r, true⟩)
    else none
  | .free r g =>
    if 0 < r.size ∧ t.pageSize ∣ r.start ∧ t.pageSize ∣ r.size ∧ s.Owned r then (s.freePages t r g).map (·, none)
    else none
  | .discarded d g => if d ∈ s.discarding then some (s.discarded t d g, none) else none
  | .munmap r => if r ∈ s.unmapping then some ({ s with unmapping := s.unmapping.erase r }, none) else none
  | .write r g => if s.Owned r then some (s.overwrite t r g, none) else none
  | .relink g =>
    some ({ s with
      memory := fun a => if ∃ c ∈ s.chunksByAddress, (⟨c, t.headerSize⟩ : Extent).Has a then g.bytes a else s.memory a }, none)

def next (t : Target) (s : State) (e : Event) : Option State := (step t s e).map Prod.fst

end Pages
end Prose
