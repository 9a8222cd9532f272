import Mathlib.Logic.Function.Basic
import Prose.Runs
import Prose.Tasks
/-!
# VirtioRing — the used ring of a virtio queue, looked at again

`VirtioQueue::Interrupt`, on as many CPUs as run it, and a device.  `avail->flags` is in memory; what a CPU stores there others
see later, in its order, and at the latest when a full barrier is over.  The device publishes its index, which counts all it has
ever completed and is kept in 16 bits, has a full barrier of its own, and then looks at the flag.  The driver drains the ring in
its callback or in a thread, when it likes.
-/
namespace Prose
namespace Virtio

open Tasks

/-- `kMaxRounds`. -/
def maxRounds : Nat := 64

/-- `used->idx`, after so many completions. -/
def index (completions : Nat) : UInt16 := completions.toUInt16

/-- What `Interrupt` does where others can see it. -/
inductive Act
  | disable
  | enable
  /-- `memory_full_barrier` -/
  | barrier
  /-- `_UsedIndex`, first and, of a round, last -/
  | usedIndex
  | usedAgain (round seen : Nat)
  /-- `fRingUsedIndex` -/
  | ringUsedIndex
  | callback
  /-- `fLateCompletions` -/
  | late

/-- What it gets for it; an index is known by the completions it stands for. -/
abbrev Answer : Act → Type
  | .usedIndex | .usedAgain _ _ => Nat
  | .ringUsedIndex => UInt16
  | _ => Unit

abbrev Hook := Prog Act Answer

abbrev ask (a : Act) : Hook (Answer a) := Prog.one a

def leaves (round seen again : Nat) : Bool := index again = index seen ∨ maxRounds ≤ round

theorem leaves_max {round seen again : Nat} (h : leaves round seen again = false) : round < maxRounds := by
  unfold leaves at h
  simp only [decide_eq_false_iff_not, not_or] at h
  omega

def countLate (round : Nat) (consumed now : UInt16) : Hook Unit :=
  if 0 < round ∧ now ≠ consumed then ask .late else pure ()

/-- `Interrupt`, from that round on. -/
def interrupt (round : Nat) : Hook Unit := do
  ask .disable
  let seen ← ask .usedIndex
  let consumed ← ask .ringUsedIndex
  ask .callback
  let now ← ask .ringUsedIndex
  countLate round consumed now
  ask .enable
  ask .barrier
  let again ← ask (.usedAgain round seen)
  match _h : leaves round seen again with
  | true => pure ()
  | false => interrupt (round + 1)
termination_by maxRounds - round
decreasing_by
  have := leaves_max _h
  omega

/-- The queue, its device, and the CPUs that run `Interrupt` or have. -/
structure State where
  /-- how many completions the device has posted, and how many it has not yet looked at the flag for -/
  posted : Nat := 0
  unchecked : Nat := 0
  /-- an interrupt is pending -/
  raised : Bool := false
  /-- whose store it is that turned the queue's interrupt off, if it is -/
  off : Option Nat := none
  /-- what the CPUs have stored there that is not in memory yet: whether that turns it off -/
  stores : Nat → List Bool := fun _ => []
  ringUsedIndex : UInt16 := 0
  lateCompletions : Nat := 0
  /-- after how many completions the callback was started -/
  starts : List Nat := []
  threads : List (Hook Unit) := []

namespace State

def store (s : State) (i : Nat) (off : Bool) : State :=
  { s with stores := Function.update s.stores i (s.stores i ++ [off]) }

def perform (s : State) (i : Nat) : (a : Act) → Option (State × Answer a)
  | .disable => some (s.store i true, ())
  | .enable => some (s.store i false, ())
  | .barrier => if s.stores i = [] then some (s, ()) else none
  | .usedIndex => some (s, s.posted)
  | .usedAgain _ _ => some (s, s.posted)
  | .ringUsedIndex => some (s, s.ringUsedIndex)
  | .callback => some ({ s with starts := s.posted :: s.starts }, ())
  | .late => some ({ s with lateCompletions := s.lateCompletions + 1 }, ())

def flush (s : State) (i : Nat) : Option State :=
  match s.stores i with
  | [] => none
  | off :: rest => some { s with off := if off then some i else none, stores := Function.update s.stores i rest }

end State

inductive Event
  /-- the device posts so many completions -/
  | post (n : Nat)
  /-- it has had its barrier, and looks at the flag -/
  | check
  /-- a CPU takes the queue's interrupt, or is told by another's -/
  | interrupt (own : Bool)
  | act (i : Nat)
  | flush (i : Nat)
  /-- the driver takes a completion off the ring -/
  | dequeue

namespace State

def step (s : State) : Event → Option State
  | .post n => if n ≠ 0 then some { s with posted := s.posted + n, unchecked := s.unchecked + 1 } else none
  | .check =>
    if s.unchecked ≠ 0 then some { s with unchecked := s.unchecked - 1, raised := s.raised || s.off.isNone } else none
  | .interrupt own =>
    if own = true → s.raised = true then
      some { s with raised := if own then false else s.raised, threads := s.threads ++ [Virtio.interrupt 0] }
    else none
  | .act i =>
    match s.threads[i]? with
    | some (.act a k) => (s.perform i a).map fun x => { x.1 with threads := x.1.threads.set i (k x.2) }
    | _ => none
  | .flush i => s.flush i
  | .dequeue => if s.ringUsedIndex ≠ index s.posted then some { s with ringUsedIndex := s.ringUsedIndex + 1 } else none

end State

/-! ## What is promised -/

/-- No `Interrupt` is running, none is pending, and the device is not about to raise one. -/
structure Quiet (s : State) : Prop where
  threads : ∀ p ∈ s.threads, p.done = true
  raised : s.raised = false
  checked : s.unchecked = 0

instance (s : State) : Decidable (Quiet s) :=
  decidable_of_iff ((∀ p ∈ s.threads, p.done = true) ∧ s.raised = false ∧ s.unchecked = 0)
    ⟨fun h => ⟨h.1, h.2.1, h.2.2⟩, fun h => ⟨h.threads, h.raised, h.checked⟩⟩

/-- **The first so many completions** have all been there for a callback that started after they were posted. -/
def Seen (s : State) (completions : Nat) : Prop := ∀ k < completions, ∃ p ∈ s.starts, k < p

/-- What no round may come to: that the index is as it was 65536 completions ago, or moves in the last one too. -/
def FineAct (s : State) : Act → Prop
  | .usedAgain round seen => s.posted < seen + 65536 ∧ (maxRounds ≤ round → s.posted = seen)
  | _ => True

def Fine (s : State) : Event → Prop
  | .act i =>
    match s.threads[i]? with
    | some (.act a _) => FineAct s a
    | _ => True
  | _ => True

instance (s : State) : (a : Act) → Decidable (FineAct s a)
  | .usedAgain round seen => inferInstanceAs (Decidable (s.posted < seen + 65536 ∧ (maxRounds ≤ round → s.posted = seen)))
  | .disable | .enable | .barrier | .usedIndex | .ringUsedIndex | .callback | .late => isTrue trivial

instance (s : State) : (e : Event) → Decidable (Fine s e)
  | .act i => by
    unfold Fine
    dsimp only
    split <;> infer_instance
  | .post _ | .check | .interrupt _ | .flush _ | .dequeue => isTrue trivial

/-! ## Where a CPU is -/

inductive Stage
  | fresh
  | disabled
  | looked (seen : Nat)
  | called (seen : Nat)
  | enabled (seen : Nat)
  | fenced (seen : Nat)
  | left

def after : (a : Act) → Answer a → Stage → Stage
  | .disable, _, _ => .disabled
  | .usedIndex, seen, _ => .looked seen
  | .callback, _, .looked seen => .called seen
  | .enable, _, .called seen => .enabled seen
  | .barrier, _, .enabled seen => .fenced seen
  | .usedAgain round seen, again, _ => if leaves round seen again then .left else .fresh
  | _, _, g => g

def ready : Act → Stage → Prop
  | .disable, g => g = .fresh
  | .usedIndex, g => g = .disabled
  | .callback, g => ∃ seen, g = .looked seen
  | .enable, g => ∃ seen, g = .called seen
  | .barrier, g => ∃ seen, g = .enabled seen
  | .usedAgain _ seen, g => g = .fenced seen
  | .ringUsedIndex, g | .late, g => g ≠ .left

abbrev Owing (p : Hook Unit) (g : Stage) : Prop := Honest ready after (fun _ _ => True) (· = .left) p g

/-- **`Interrupt` leaves** by the last look at the index only. -/
theorem interrupt_owing (round : Nat) : Owing (interrupt round) .fresh := by
  fun_induction interrupt round with
  | case1 round ih =>
    refine settles_bind.2 (settles_one.2 ⟨rfl, fun _ _ => settles_bind.2 (settles_one.2 ⟨rfl, fun seen _ => ?_⟩)⟩)
    refine settles_bind.2 (settles_one.2 ⟨nofun, fun consumed _ => ?_⟩)
    refine settles_bind.2 (settles_one.2 ⟨⟨seen, rfl⟩, fun _ _ => ?_⟩)
    refine settles_bind.2 (settles_one.2 ⟨nofun, fun now _ => ?_⟩)
    have hrest : Settles ready after (fun _ _ => True) (do
        ask .enable
        ask .barrier
        let again ← ask (.usedAgain round seen)
        match _h : leaves round seen again with
        | true => pure ()
        | false => interrupt (round + 1)) (.called seen) (fun _ g => g = .left) := by
      refine settles_bind.2 (settles_one.2 ⟨⟨seen, rfl⟩, fun _ _ => ?_⟩)
      refine settles_bind.2 (settles_one.2 ⟨⟨seen, rfl⟩, fun _ _ => ?_⟩)
      refine settles_bind.2 (settles_one.2 ⟨rfl, fun again _ => ?_⟩)
      show Settles ready after _ _ (if leaves round seen again = true then Stage.left else .fresh) _
      split
      · next h =>
        rw [if_pos h]
        rfl
      · next h =>
        rw [if_neg (by rw [h]; exact Bool.false_ne_true)]
        exact ih seen again h
    refine settles_bind.2 ?_
    unfold countLate
    split
    · exact settles_one.2 ⟨nofun, fun _ _ => hrest⟩
    · exact hrest

end Virtio
end Prose
