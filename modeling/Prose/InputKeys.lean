import Prose.PortalFrames
import Prose.Runs
import Mathlib.Data.Finset.Union
/-!
# InputKeys — the keys that are down

The virtio keyboard of `input.swift` and the router in front of it.  A press and a release go to the guest in a batch, over a
queue whose blocks run later and into buffers the guest has to post; `down` changes at once.  `Agrees` is what ties the two
together: the guest's keys, and everything on its way to it.
-/
namespace Prose
namespace Input

open Portal (Bytes le16 le32 leU16 leU32 leU16_le16 leU32_le32)
open List

namespace EV

def syn : UInt16 := 0
def key : UInt16 := 1

end EV

structure InputEvent where
  type : UInt16
  code : UInt16
  value : Int32

/-- `macToEvdev`, in runs of key codes. -/
def macRuns : List (Nat × List UInt16) :=
  [(0x00, [30, 31, 32, 33, 35, 34, 44, 45]), (0x08, [46, 47, 86, 48, 16, 17, 18, 19]),
    (0x10, [21, 20, 2, 3, 4, 5, 7, 6]), (0x18, [13, 10, 8, 12, 9, 11, 27, 24]),
    (0x20, [22, 26, 23, 25, 28, 38, 36, 40]), (0x28, [37, 39, 43, 51, 53, 49, 50, 52]),
    (0x30, [15, 57, 41, 14]), (0x35, [1]), (0x36, [100, 56, 42, 58, 125, 29, 54, 126, 97]),
    (0x40, [187, 83]), (0x43, [55]), (0x45, [78]), (0x47, [69]), (0x4B, [98, 96]), (0x4E, [74]),
    (0x4F, [188, 189, 117, 82, 79, 80, 81, 75]), (0x57, [76, 77, 71, 190, 72, 73]),
    (0x60, [63, 64, 65, 61, 66, 67]), (0x67, [87]), (0x69, [183]), (0x6A, [186, 184]), (0x6D, [68, 127, 88]),
    (0x71, [185, 110, 102, 104, 111, 62, 107, 60, 109, 59]), (0x7B, [105, 106, 108, 103])]

def macToEvdev (keyCode : UInt16) : Option UInt16 :=
  macRuns.findSome? fun (first, codes) => if first ≤ keyCode.toNat then codes[keyCode.toNat - first]? else none

def modifierKeys : List (UInt16 × UInt16 × UInt64) :=
  [(0x38, 42, 0x0002), (0x3C, 54, 0x0004), (0x3B, 29, 0x0001), (0x3E, 97, 0x2000), (0x3A, 125, 0x0020), (0x3D, 126, 0x0040),
    (0x37, 56, 0x0008), (0x36, 100, 0x0010)]

/-- The keyboard; an element is how many bytes may be written into it. -/
structure VirtioInputDevice where
  elements : List Nat := []
  pending : List InputEvent := []
  driverOK : Bool := false
  sent : Nat := 0
  dropped : Nat := 0
  /-- what was written into the guest's buffers since its driver began -/
  guest : List Bytes := []

namespace VirtioInputDevice

def bytes (ev : InputEvent) : Bytes := le16 ev.type ++ le16 ev.code ++ le32 ev.value.toUInt32

/-- The loop of `flush`. -/
def flushLoop (k : VirtioInputDevice) : List Nat → List InputEvent → VirtioInputDevice
  | element :: elements, ev :: pending =>
    let guest := if (bytes ev).length ≤ element then k.guest ++ [bytes ev] else k.guest
    flushLoop { k with guest, sent := k.sent + 1 } elements pending
  | elements, pending => { k with elements, pending }

def flush (k : VirtioInputDevice) : VirtioInputDevice := k.flushLoop k.elements k.pending

/-- The block `send` puts on the queue. -/
def send (k : VirtioInputDevice) (events : List InputEvent) : VirtioInputDevice :=
  if !k.driverOK then k
  else if k.pending.length + events.length > 4096 then { k with dropped := k.dropped + events.length }
  else { k with pending := k.pending ++ events }.flush

end VirtioInputDevice

/-- The router and the queue; `blocks` are those it has not run. -/
structure InputRouter where
  keyboard : VirtioInputDevice := {}
  blocks : List (List InputEvent) := []
  down : Finset UInt16 := ∅
  enabled : Bool := true

/-- What happens: the window's events, what the menu and the automation type, and what happens on the device's queue. -/
inductive Event
  | key (keyCode : UInt16) (isARepeat pressed : Bool)
  | flags (keyCode : UInt16) (modifierFlags : UInt64)
  | tap (code : UInt16)
  | chord (codes : List UInt16)
  /-- with the order in which the set gives its keys -/
  | releaseAll (order : List UInt16)
  | enable (on : Bool)
  /-- the queue runs its next block -/
  | run
  | posted (elements : List Nat)
  | driverOk
  /-- a reset or a stop -/
  | reset

namespace InputRouter

def stroke (value : Int32) (code : UInt16) : List InputEvent := [⟨EV.key, code, value⟩, ⟨EV.syn, 0, 0⟩]

/-- `keyboard.send`. -/
def post (s : InputRouter) (events : List InputEvent) : InputRouter := { s with blocks := s.blocks ++ [events] }

def send (s : InputRouter) (code : UInt16) (pressed : Bool) : InputRouter :=
  { s with down := if pressed then insert code s.down else s.down.erase code }.post (stroke (if pressed then 1 else 0) code)

def tap (s : InputRouter) (code : UInt16) : InputRouter := s.post (stroke 1 code ++ stroke 0 code)

def chord (s : InputRouter) (codes : List UInt16) : InputRouter :=
  s.post (codes.flatMap (stroke 1) ++ codes.reverse.flatMap (stroke 0))

def key (s : InputRouter) (keyCode : UInt16) (isARepeat pressed : Bool) : InputRouter :=
  if !s.enabled then s
  else if pressed && isARepeat then s
  else match macToEvdev keyCode with
    | none      => s
    | some code => s.send code pressed

def flags (s : InputRouter) (keyCode : UInt16) (modifierFlags : UInt64) : InputRouter :=
  if !s.enabled then s
  else if keyCode = 0x39 then s.tap 58
  else match modifierKeys.lookup keyCode with
    | none              => s
    | some (code, mask) => s.send code (modifierFlags &&& mask != 0)

def releaseAll (s : InputRouter) (order : List UInt16) : Option InputRouter :=
  if s.down = ∅ then some s
  else if order.Nodup ∧ order.toFinset = s.down then some { s.post (order.flatMap (stroke 0)) with down := ∅ }
  else none

def step (s : InputRouter) : Event → Option InputRouter
  | .key keyCode isARepeat pressed => some (s.key keyCode isARepeat pressed)
  | .flags keyCode modifierFlags   => some (s.flags keyCode modifierFlags)
  | .tap code                      => some (s.tap code)
  | .chord codes                   => some (s.chord codes)
  | .releaseAll order              => s.releaseAll order
  | .enable on                     => some { s with enabled := on }
  | .run                           => match s.blocks with
    | []              => none
    | block :: blocks => some { s with blocks, keyboard := s.keyboard.send block }
  | .posted elements               =>
    some { s with keyboard := { s.keyboard with elements := s.keyboard.elements ++ elements }.flush }
  | .driverOk                      => some { s with keyboard := { s.keyboard with driverOK := true } }
  | .reset                         =>
    some { s with keyboard := { s.keyboard with driverOK := false, elements := [], pending := [], guest := [] } }

end InputRouter

/-! ## What the guest sees -/

def see (pressed : Finset UInt16) (ev : InputEvent) : Finset UInt16 :=
  if ev.type = EV.key then if ev.value = 0 then pressed.erase ev.code else insert ev.code pressed else pressed

def read (pressed : Finset UInt16) (b : Bytes) : Finset UInt16 := see pressed ⟨leU16 b 0, leU16 b 2, (leU32 b 4).toInt32⟩

/-- **The keys the guest has seen pressed and not released.** -/
def VirtioInputDevice.pressed (k : VirtioInputDevice) : Finset UInt16 := k.guest.foldl read ∅

open VirtioInputDevice InputRouter

theorem read_bytes (pressed : Finset UInt16) (ev : InputEvent) : read pressed (bytes ev) = see pressed ev := by
  have htype : leU16 (bytes ev) 0 = ev.type := by
    have := leU16_le16 ev.type [] (le16 ev.code ++ le32 ev.value.toUInt32)
    simpa [bytes] using this
  have hcode : leU16 (bytes ev) 2 = ev.code := leU16_le16 ev.code (le16 ev.type) (le32 ev.value.toUInt32)
  have hvalue : leU32 (bytes ev) 4 = ev.value.toUInt32 := by
    have := leU32_le32 ev.value.toUInt32 (le16 ev.type ++ le16 ev.code) []
    rwa [append_nil] at this
  unfold read
  rw [htype, hcode, hvalue]
  rfl

theorem see_mono {evs : List InputEvent} : ∀ {p q : Finset UInt16}, p ⊆ q → evs.foldl see p ⊆ evs.foldl see q := by
  induction evs with
  | nil => exact id
  | cons ev evs ih =>
    intro p q h
    apply ih
    unfold see
    split
    · split
      · exact Finset.erase_subset_erase _ h
      · exact Finset.insert_subset_insert _ h
    · exact h

theorem see_presses (codes : List UInt16) (p : Finset UInt16) :
    (codes.flatMap (stroke 1)).foldl see p = p ∪ codes.toFinset := by
  induction codes generalizing p with
  | nil => simp
  | cons c codes ih =>
    rw [flatMap_cons, foldl_append, ih]
    ext k
    simp [stroke, see, EV.key, EV.syn]

theorem see_releases (codes : List UInt16) (p : Finset UInt16) :
    (codes.flatMap (stroke 0)).foldl see p = p \ codes.toFinset := by
  induction codes generalizing p with
  | nil => simp
  | cons c codes ih =>
    rw [flatMap_cons, foldl_append, ih]
    ext k
    simp [stroke, see, EV.key, EV.syn]
    tauto

/-- **Keys that are typed and were not down leave no trace.** -/
theorem see_chord (codes : List UInt16) {p : Finset UInt16} (h : ∀ c ∈ codes, c ∉ p) :
    (codes.flatMap (stroke 1) ++ codes.reverse.flatMap (stroke 0)).foldl see p = p := by
  rw [foldl_append, see_presses, see_releases]
  ext k
  have := h k
  simp only [Finset.mem_sdiff, Finset.mem_union, mem_toFinset, toFinset_reverse]
  tauto

/-! ## Agreement -/

def InputRouter.coming (s : InputRouter) : List InputEvent := s.keyboard.pending ++ s.blocks.flatten

/-- **The guest's keys, behind everything on its way to it, are those that are down**; and its buffers are long enough. -/
structure Agrees (s : InputRouter) : Prop where
  keys : s.coming.foldl see s.keyboard.pressed = s.down
  room : ∀ e ∈ s.keyboard.elements, 8 ≤ e

theorem flushLoop_keeps : ∀ (k : VirtioInputDevice) (elements : List Nat) (pending : List InputEvent),
    (∀ e ∈ elements, 8 ≤ e) →
    (k.flushLoop elements pending).pending.foldl see (k.flushLoop elements pending).pressed = pending.foldl see k.pressed ∧
      ∀ e ∈ (k.flushLoop elements pending).elements, 8 ≤ e
  | k, [], pending, h => ⟨rfl, h⟩
  | k, element :: elements, [], h => ⟨rfl, h⟩
  | k, element :: elements, ev :: pending, h => by
    obtain ⟨hone, hrest⟩ := forall_mem_cons.1 h
    have hloop := flushLoop_keeps { k with guest := k.guest ++ [bytes ev], sent := k.sent + 1 } elements pending hrest
    have hpressed : VirtioInputDevice.pressed { k with guest := k.guest ++ [bytes ev], sent := k.sent + 1 } = see k.pressed ev := by
      unfold VirtioInputDevice.pressed
      rw [foldl_append]
      exact read_bytes _ ev
    rw [hpressed] at hloop
    unfold flushLoop
    rw [if_pos (show (bytes ev).length ≤ element from hone)]
    exact hloop

theorem flush_keeps {k : VirtioInputDevice} (h : ∀ e ∈ k.elements, 8 ≤ e) :
    k.flush.pending.foldl see k.flush.pressed = k.pending.foldl see k.pressed ∧ ∀ e ∈ k.flush.elements, 8 ≤ e :=
  flushLoop_keeps k k.elements k.pending h

/-- **What has to hold of a step**: no batch is refused, no key is typed that is held, no buffer is too short for an event, and
the device is not reset while a key is down. -/
def Meets (s : InputRouter) : Event → Prop
  | .run             => ∀ block ∈ s.blocks.head?,
    s.keyboard.driverOK = true ∧ s.keyboard.pending.length + block.length ≤ 4096
  | .tap code        => code ∉ s.down
  | .chord codes     => ∀ c ∈ codes, c ∉ s.down
  | .flags keyCode _ => s.enabled = true → keyCode = 0x39 → 58 ∉ s.down
  | .posted elements => ∀ e ∈ elements, 8 ≤ e
  | .reset           => s.down = ∅
  | _                => True

instance (s : InputRouter) : ∀ a, Decidable (Meets s a)
  | .run             => inferInstanceAs (Decidable (∀ block ∈ s.blocks.head?, _ ∧ _))
  | .tap code        => inferInstanceAs (Decidable (code ∉ s.down))
  | .chord codes     => inferInstanceAs (Decidable (∀ c ∈ codes, c ∉ s.down))
  | .flags keyCode _ => inferInstanceAs (Decidable (s.enabled = true → keyCode = 0x39 → 58 ∉ s.down))
  | .posted elements => inferInstanceAs (Decidable (∀ e ∈ elements, 8 ≤ e))
  | .reset           => inferInstanceAs (Decidable (s.down = ∅))
  | .key _ _ _       => inferInstanceAs (Decidable True)
  | .releaseAll _    => inferInstanceAs (Decidable True)
  | .enable _        => inferInstanceAs (Decidable True)
  | .driverOk        => inferInstanceAs (Decidable True)

section

variable {s s' : InputRouter} (hs : Agrees s)
include hs

theorem Agrees.post (events : List InputEvent) {down : Finset UInt16} (h : events.foldl see s.down = down) :
    Agrees { s.post events with down } where
  keys := by
    change (s.keyboard.pending ++ (s.blocks ++ [events]).flatten).foldl see s.keyboard.pressed = down
    rw [flatten_append, flatten_singleton, ← append_assoc, foldl_append, ← h]
    exact congrArg (events.foldl see) hs.keys
  room := hs.room

theorem Agrees.send (code : UInt16) (pressed : Bool) : Agrees (s.send code pressed) := by
  cases pressed with
  | true => exact hs.post (stroke 1 code) rfl
  | false => exact hs.post (stroke 0 code) rfl

theorem Agrees.tap {code : UInt16} (h : code ∉ s.down) : Agrees (s.tap code) := by
  apply hs.post (stroke 1 code ++ stroke 0 code)
  exact see_chord [code] (fun c hc => mem_singleton.1 hc ▸ h)

theorem Agrees.key (keyCode : UInt16) (isARepeat pressed : Bool) : Agrees (s.key keyCode isARepeat pressed) := by
  unfold InputRouter.key
  split
  · exact hs
  split
  · exact hs
  split
  · exact hs
  · exact hs.send _ pressed

theorem Agrees.flags {keyCode : UInt16} (modifierFlags : UInt64) (h : Meets s (.flags keyCode modifierFlags)) :
    Agrees (s.flags keyCode modifierFlags) := by
  unfold InputRouter.flags
  split
  · exact hs
  rename_i hon
  split
  · rename_i hcaps
    exact hs.tap (h (by simpa using hon) hcaps)
  split
  · exact hs
  · exact hs.send _ _

theorem Agrees.releaseAll {order : List UInt16} (h : s.releaseAll order = some s') : Agrees s' := by
  unfold InputRouter.releaseAll at h
  split at h
  · cases h
    exact hs
  split at h
  · rename_i horder
    cases h
    apply hs.post
    rw [see_releases, horder.2]
    exact Finset.sdiff_self _
  · cases h

theorem Agrees.run {block : List InputEvent} {blocks : List (List InputEvent)} (hb : s.blocks = block :: blocks)
    (hok : s.keyboard.driverOK = true) (hfits : s.keyboard.pending.length + block.length ≤ 4096) :
    Agrees { s with blocks, keyboard := s.keyboard.send block } := by
  obtain ⟨hkeys, hroom⟩ := flush_keeps (k := { s.keyboard with pending := s.keyboard.pending ++ block }) hs.room
  have hsend : s.keyboard.send block = flush { s.keyboard with pending := s.keyboard.pending ++ block } := by
    unfold VirtioInputDevice.send
    rw [if_neg (by simp [hok]), if_neg (by omega)]
  have hcoming := hs.keys
  unfold InputRouter.coming at hcoming
  rw [hb, flatten_cons, ← append_assoc, foldl_append] at hcoming
  constructor
  · change ((s.keyboard.send block).pending ++ blocks.flatten).foldl see (s.keyboard.send block).pressed = s.down
    rw [hsend, foldl_append, hkeys]
    exact hcoming
  · rw [hsend]
    exact hroom

theorem Agrees.posted {elements : List Nat} (h : ∀ e ∈ elements, 8 ≤ e) :
    Agrees { s with keyboard := { s.keyboard with elements := s.keyboard.elements ++ elements }.flush } := by
  obtain ⟨hkeys, hroom⟩ := flush_keeps (k := { s.keyboard with elements := s.keyboard.elements ++ elements })
    (fun e he => (mem_append.1 he).elim (hs.room e) (h e))
  refine ⟨?_, hroom⟩
  unfold InputRouter.coming
  rw [foldl_append, hkeys, ← hs.keys]
  exact (foldl_append ..).symm

/-- The guest begins anew; nothing that still comes presses a key, for nothing is down behind it. -/
theorem Agrees.reset (h : s.down = ∅) :
    Agrees { s with keyboard := { s.keyboard with driverOK := false, elements := [], pending := [], guest := [] } } := by
  refine ⟨?_, fun e he => absurd he not_mem_nil⟩
  change s.blocks.flatten.foldl see ∅ = s.down
  have hcoming := hs.keys
  unfold InputRouter.coming at hcoming
  rw [h, foldl_append] at hcoming
  rw [h, ← Finset.subset_empty]
  exact (see_mono (Finset.empty_subset _)).trans hcoming.subset

theorem step_agrees {a : Event} (hm : Meets s a) (h : step s a = some s') : Agrees s' := by
  cases a with
  | key keyCode isARepeat pressed =>
    cases h
    exact hs.key keyCode isARepeat pressed
  | flags keyCode modifierFlags =>
    cases h
    exact hs.flags modifierFlags hm
  | tap code =>
    cases h
    exact hs.tap hm
  | chord codes =>
    cases h
    exact hs.post _ (see_chord codes hm)
  | releaseAll order => exact hs.releaseAll h
  | enable on =>
    cases h
    exact ⟨hs.keys, hs.room⟩
  | run =>
    cases hb : s.blocks with
    | nil => simp [step, hb] at h
    | cons block blocks =>
      simp only [step, hb] at h
      cases h
      obtain ⟨hok, hfits⟩ := hm block (by simp [hb])
      exact hs.run hb hok hfits
  | posted elements =>
    cases h
    exact hs.posted hm
  | driverOk =>
    cases h
    exact ⟨hs.keys, hs.room⟩
  | reset =>
    cases h
    exact hs.reset hm

end

/-- **Where no pending event is left, the guest's keys are those that are down**, up to the batches the queue has yet to run. -/
theorem keyboard_agrees (es : List Event) (s : InputRouter) (hmeets : Runs.Along step Meets {} es)
    (hrun : Runs.run step {} es = some s) :
    s.keyboard.pending = [] → s.blocks.flatten.foldl see s.keyboard.pressed = s.down := by
  intro hempty
  have h := (Runs.run_inv (I := Agrees) (fun _ _ _ hs hm ht => step_agrees hs hm ht)
    ⟨rfl, fun e he => absurd he not_mem_nil⟩ hmeets hrun).keys
  unfold InputRouter.coming at h
  rwa [hempty] at h

/-- `A` is pressed before the driver is ready: the batch is refused, and `A` is down. -/
theorem key_before_driver : ¬ ∀ (es : List Event) (s : InputRouter), Runs.run step {} es = some s →
    s.keyboard.pending = [] → s.blocks = [] → s.keyboard.pressed = s.down := by
  intro h
  obtain ⟨s, hrun, hempty, hblocks, hpressed, hdown⟩ : ∃ s : InputRouter,
      Runs.run step {} [.key 0x00 false true, .run] = some s ∧ s.keyboard.pending = [] ∧ s.blocks = [] ∧
      s.keyboard.pressed = ∅ ∧ s.down = {30} :=
    ⟨_, rfl, rfl, rfl, rfl, rfl⟩
  have hnone := (h _ s hrun hempty hblocks).symm.trans hpressed
  rw [hdown] at hnone
  exact Finset.singleton_ne_empty _ hnone

theorem keyboard_agrees_typed : ∃ s : InputRouter,
    Runs.run step {} [.driverOk, .posted [8, 8], .key 0x00 false true, .run, .releaseAll [30], .run, .posted [8, 8]] = some s ∧
    s.keyboard.pending = [] ∧ s.blocks.flatten.foldl see s.keyboard.pressed = s.down := by
  obtain ⟨s, hrun, hempty⟩ : ∃ s : InputRouter, Runs.run step {}
      [.driverOk, .posted [8, 8], .key 0x00 false true, .run, .releaseAll [30], .run, .posted [8, 8]] = some s ∧
      s.keyboard.pending = [] :=
    ⟨_, rfl, rfl⟩
  exact ⟨s, hrun, hempty, keyboard_agrees _ s (by decide) hrun hempty⟩

end Input
end Prose
