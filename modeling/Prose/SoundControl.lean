import Prose.Runs
import Mathlib.Data.List.Basic
/-!
# SoundControl — the control queue of the sound driver

`snd_command` puts a request, and room for its response, on the one command page, queues the two and waits for a semaphore that
every interrupt releases.  The device takes the requests in order: it reads one when it comes to it, and writes its response later.
-/
namespace Prose
namespace SoundControl

open List

inductive Phase
  | idle
  /-- in `acquire_sem_etc`, for five seconds at most -/
  | waiting (id : Nat)
  /-- it spins until it can dequeue an entry -/
  | spinning (id : Nat)
  deriving DecidableEq

/-- A response: the request it answers, and whether its code is `VIRTIO_SND_S_OK`. -/
structure Response where
  request : Nat
  ok : Bool

structure State where
  calls : Nat := 0
  phase : Phase := .idle
  request : Option Nat := none
  /-- `none` where the response area is zeros. -/
  response : Option Response := none
  /-- What the device holds, in order, with the request it has read for it. -/
  held : List (Nat × Option Nat) := []
  used : List Nat := []
  cmdDone : Nat := 0
  /-- A call has returned with its request still queued. -/
  timedOut : Bool := false

inductive Event
  /-- `snd_command` to its wait, and whether `queue_request_v` succeeds -/
  | call (queued : Bool)
  /-- the device reads the request it has come to -/
  | fetch
  /-- it writes the response, and the entry is used -/
  | complete (ok : Bool)
  /-- `snd_control_callback`, for whatever reason -/
  | callback
  | acquire
  | timeout
  /-- `queue_dequeue` succeeds, and the call returns -/
  | dequeue

namespace State

variable (s : State)

/-- The response of a call that returns `B_OK`; of zeros and of an error the call makes `B_ERROR`. -/
def returned : Option Response := s.response.filter Response.ok

def step : Event → Option State
  | .call queued =>
    if s.phase = .idle then
      some { s with
        calls := s.calls + 1
        phase := if queued then .waiting s.calls else .idle
        request := some s.calls
        response := none
        held := if queued then s.held ++ [(s.calls, none)] else s.held }
    else none
  | .fetch       => match s.held with
    | (id, none) :: held => some { s with held := (id, s.request) :: held }
    | _                  => none
  | .complete ok => match s.held with
    | (id, some request) :: held => some { s with held, used := s.used ++ [id], response := some ⟨request, ok⟩ }
    | _                          => none
  | .callback    => some { s with cmdDone := s.cmdDone + 1 }
  | .acquire     => match s.phase with
    | .waiting id => if 0 < s.cmdDone then some { s with cmdDone := s.cmdDone - 1, phase := .spinning id } else none
    | _           => none
  | .timeout     => match s.phase with
    | .waiting _ => if s.cmdDone = 0 then some { s with phase := .idle, timedOut := true } else none
    | _          => none
  | .dequeue     => match s.phase, s.used with
    | .spinning _, _ :: used => some { s with phase := .idle, used }
    | _, _                   => none

end State

/-- **What is to hold of a step**: the request area is written while the device holds nothing, and what a call returns with `B_OK`
answers its own request. -/
def Keeps (s : State) : Event → Prop
  | .call _  => s.phase = .idle → s.held = []
  | .dequeue => ∀ id, s.phase = .spinning id → s.used ≠ [] → ∀ r ∈ s.returned, r.request = id
  | _        => True

/-- **No call comes behind one that has timed out.** -/
def Meets (s : State) : Event → Prop
  | .call _ => s.timedOut = false
  | _       => True

instance (s : State) : ∀ e, Decidable (Meets s e)
  | .call _ => inferInstanceAs (Decidable (_ = _))
  | .fetch | .complete _ | .callback | .acquire | .timeout | .dequeue => isTrue trivial

/-- A request is on its way: the device has it, or has read it, or has written its response. -/
def OnItsWay (s : State) (id : Nat) : Prop :=
  s.request = some id ∧ (s.used = [] ∧ s.held = [(id, none)] ∨ s.used = [] ∧ s.held = [(id, some id)] ∨
    s.used = [id] ∧ s.held = [] ∧ ∃ ok, s.response = some ⟨id, ok⟩)

/-- **Until a call times out, the device holds the request of the call that waits, and none else.** -/
structure Ok (s : State) : Prop where
  idle : s.timedOut = false → s.phase = .idle → s.held = [] ∧ s.used = []
  busy : ∀ id, s.phase = .waiting id ∨ s.phase = .spinning id → s.timedOut = false ∧ OnItsWay s id

theorem ok_keeps {s : State} (hs : Ok s) {e : Event} (hm : Meets s e) : Keeps s e := by
  cases e with
  | call queued => exact fun hidle => (hs.idle hm hidle).1
  | dequeue =>
    intro id hp hused r hr
    obtain ⟨-, -, ⟨h, -⟩ | ⟨h, -⟩ | ⟨-, -, ok, hresponse⟩⟩ := hs.busy id (.inr hp)
    · exact absurd h hused
    · exact absurd h hused
    · unfold State.returned at hr
      rw [hresponse] at hr
      rw [← Option.some.inj (Option.filter_eq_some_iff.1 hr).1]
  | fetch | complete _ | callback | acquire | timeout => trivial

theorem Ok.call {s : State} (hs : Ok s) (ht : s.timedOut = false) (hidle : s.phase = .idle) (queued : Bool) :
    Ok { s with
      calls := s.calls + 1
      phase := if queued then .waiting s.calls else .idle
      request := some s.calls
      response := none
      held := if queued then s.held ++ [(s.calls, none)] else s.held } := by
  obtain ⟨hheld, hused⟩ := hs.idle ht hidle
  cases queued with
  | false => exact ⟨fun _ _ => ⟨hheld, hused⟩, fun id hp => by rcases hp with hp | hp <;> cases hp⟩
  | true =>
    refine ⟨fun _ hp => (by cases hp), fun id hp => ?_⟩
    rcases hp with hp | hp <;> cases hp
    exact ⟨ht, rfl, .inl ⟨hused, by rw [hheld]; rfl⟩⟩

theorem Ok.fetch {s : State} (hs : Ok s) {id : Nat} {held : List (Nat × Option Nat)} (hheld : s.held = (id, none) :: held) :
    Ok { s with held := (id, s.request) :: held } := by
  refine ⟨fun ht hp => ?_, fun id' hp => ?_⟩
  · rw [(hs.idle ht hp).1] at hheld
    cases hheld
  · obtain ⟨ht, hrequest, ⟨hused, h⟩ | ⟨-, h⟩ | ⟨-, h, -⟩⟩ := hs.busy id' hp
    all_goals rw [hheld] at h; cases h
    refine ⟨ht, hrequest, .inr (.inl ⟨hused, ?_⟩)⟩
    rw [hrequest]

theorem Ok.complete {s : State} (hs : Ok s) {id request : Nat} {held : List (Nat × Option Nat)}
    (hheld : s.held = (id, some request) :: held) (ok : Bool) :
    Ok { s with held, used := s.used ++ [id], response := some ⟨request, ok⟩ } := by
  refine ⟨fun ht hp => ?_, fun id' hp => ?_⟩
  · rw [(hs.idle ht hp).1] at hheld
    cases hheld
  · obtain ⟨ht, hrequest, ⟨-, h⟩ | ⟨hused, h⟩ | ⟨-, h, -⟩⟩ := hs.busy id' hp
    all_goals rw [hheld] at h; cases h
    refine ⟨ht, hrequest, .inr (.inr ⟨?_, rfl, ok, rfl⟩)⟩
    show s.used ++ [id] = [id]
    rw [hused, nil_append]

theorem Ok.dequeue {s : State} (hs : Ok s) {id u : Nat} {used : List Nat} (hp : s.phase = .spinning id) (hused : s.used = u :: used) :
    Ok { s with phase := .idle, used } := by
  refine ⟨fun _ _ => ?_, fun id' hp' => by rcases hp' with hp' | hp' <;> cases hp'⟩
  obtain ⟨-, -, ⟨h, -⟩ | ⟨h, -⟩ | ⟨h, hheld, -⟩⟩ := hs.busy id (.inr hp)
  all_goals rw [hused] at h; cases h
  exact ⟨hheld, rfl⟩

theorem step_ok {s s' : State} (hs : Ok s) {e : Event} (hm : Meets s e) (h : s.step e = some s') : Ok s' := by
  unfold State.step at h
  cases e with
  | call queued =>
    obtain ⟨hidle, h⟩ := Option.ite_none_right_eq_some.1 h
    cases h
    exact hs.call hm hidle queued
  | fetch =>
    dsimp only at h
    split at h
    · cases h
      exact hs.fetch ‹_›
    · cases h
  | complete ok =>
    dsimp only at h
    split at h
    · cases h
      exact hs.complete ‹_› ok
    · cases h
  | callback =>
    cases h
    exact ⟨hs.idle, hs.busy⟩
  | acquire =>
    dsimp only at h
    split at h
    · rename_i id hp
      obtain ⟨-, h⟩ := Option.ite_none_right_eq_some.1 h
      cases h
      refine ⟨fun _ hp' => (by cases hp'), fun id' hp' => ?_⟩
      rcases hp' with hp' | hp' <;> cases hp'
      exact hs.busy id (.inl hp)
    · cases h
  | timeout =>
    dsimp only at h
    split at h
    · obtain ⟨-, h⟩ := Option.ite_none_right_eq_some.1 h
      cases h
      exact ⟨fun ht => (by cases ht), fun id hp => by rcases hp with hp | hp <;> cases hp⟩
    · cases h
  | dequeue =>
    dsimp only at h
    split at h
    · rename_i hp hused
      cases h
      exact hs.dequeue hp hused
    · cases h

/-- **In every run without a call behind one that timed out, every answer is the call's own**, and no request is written over
one that the device holds. -/
theorem answers_kept (es : List Event) (hmeets : Runs.Along State.step Meets {} es) : Runs.Along State.step Keeps {} es :=
  Runs.along_of_inv (I := Ok) (fun _ _ _ hs hm h => step_ok hs hm h) (fun _ _ hs hm => ok_keeps hs hm)
    ⟨fun _ _ => ⟨rfl, rfl⟩, fun id hp => by rcases hp with hp | hp <;> cases hp⟩ hmeets

/-- The device comes to answer the first request behind its timeout, and the second call takes the answer. -/
theorem answer_shifted : ¬ ∀ es, Runs.Along State.step Keeps {} es := by
  intro h
  have hlast := Runs.along_iff.1 (h [.call true, .fetch, .timeout, .call true, .complete true, .callback, .acquire, .dequeue])
    [.call true, .fetch, .timeout, .call true, .complete true, .callback, .acquire] .dequeue [] _ rfl rfl
  exact absurd (hlast 1 rfl (by decide) ⟨0, true⟩ rfl) (by decide)

theorem answers_kept_twice : Runs.Along State.step Keeps {} [.call true, .fetch, .complete true, .callback, .acquire, .dequeue,
    .callback, .call true, .acquire, .fetch, .complete true, .dequeue] :=
  answers_kept _ (by decide)

end SoundControl
end Prose
