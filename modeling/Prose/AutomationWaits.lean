import Mathlib.Data.Rat.Floor
import Prose.Runs
/-!
# AutomationWaits — what an automation operation waits for

`watch` and `tick` of `automation.swift`.  A `Date` is a rational number of seconds here.  What a condition says when it is
looked at, and what a waiter's completion then asks to watch in turn, is the tick's to choose: a condition is a closure over
the machine, and a completion any code.
-/
namespace Prose
namespace Automation

open List

/-- What `watch` is given, and when. -/
structure Ask where
  describe : String
  deadline : ℚ
  started : ℚ
  deriving DecidableEq

structure Waiter where
  id : Nat
  ask : Ask
  deriving DecidableEq

inductive Result
  | done (waited : ℚ) (what : String)
  | timedOut (detail : String)

/-- The timer's block runs: the time, the conditions that hold, and what each completion asks to watch. -/
structure Tick where
  now : ℚ
  met : List Nat := []
  asks : List (Nat × Ask) := []

/-- `round`: halves go away from zero. -/
def round (x : ℚ) : Int := if 0 ≤ x then ⌊x + 1 / 2⌋ else ⌈x - 1 / 2⌉

namespace Waiter

def done (w : Waiter) (t : Tick) : Result := .done (round ((t.now - w.ask.started) * 10) / 10) w.ask.describe

def timedOut (w : Waiter) : Result := .timedOut ("waiting for " ++ w.ask.describe)

/-- What `tick` does with it, if anything. -/
def verdict (w : Waiter) (t : Tick) : Option Result :=
  if w.id ∈ t.met then some (w.done t) else if t.now ≥ w.ask.deadline then some w.timedOut else none

end Waiter

/-- `waiters`, and the timers outstanding.  Also what was asked, and after how many ticks; what was answered; and the ticks. -/
structure State where
  waiters : List Waiter := []
  timers : Nat := 0
  asked : List (Ask × Nat) := []
  answers : List (Nat × Result) := []
  ticks : List Tick := []

namespace State

/-- `tick`. -/
def tick (s : State) : State := { s with timers := s.timers + 1 }

/-- `watch`. -/
def watch (s : State) (a : Ask) : State :=
  let s := { s with waiters := s.waiters ++ [⟨s.asked.length, a⟩], asked := s.asked ++ [(a, s.ticks.length)] }
  if s.waiters.length = 1 then s.tick else s

def complete (s : State) (t : Tick) (w : Waiter) (r : Result) : State :=
  ((t.asks.filter (·.1 = w.id)).map (·.2)).foldl watch { s with answers := s.answers ++ [(w.id, r)] }

/-- The loop of `tick`, over the waiters it began with. -/
def visit (t : Tick) : State → List Waiter → List Waiter → State × List Waiter
  | s, [], remaining => (s, remaining)
  | s, w :: ws, remaining =>
    match w.verdict t with
    | some r => visit t (s.complete t w r) ws remaining
    | none   => visit t s ws (remaining ++ [w])

def fire (s : State) (t : Tick) : State :=
  let s := { s with timers := s.timers - 1, ticks := s.ticks ++ [t] }
  if s.waiters = [] then s
  else
    let (s, remaining) := visit t s s.waiters []
    let s := { s with waiters := remaining }
    if s.waiters ≠ [] then s.tick else s

end State

/-- What the main queue does: it watches something, or the timer's block runs. -/
inductive Event
  | watch (a : Ask)
  | fire (t : Tick)

def State.step (s : State) : Event → Option State
  | .watch a => some (s.watch a)
  | .fire t  => if s.timers ≠ 0 then some (s.fire t) else none

/-! ## What a waiter is owed -/

namespace State

def answersOf (s : State) (id : Nat) : List Result := (s.answers.filter (·.1 = id)).map (·.2)

end State

def Due (w : Waiter) (t : Tick) : Prop := w.id ∈ t.met ∨ w.ask.deadline ≤ t.now

instance (w : Waiter) (t : Tick) : Decidable (Due w t) := inferInstanceAs (Decidable (_ ∨ _))

/-- **What a waiter is owed** after these ticks: nothing before the first at which it is due, and then one answer. -/
def owed (w : Waiter) (ticks : List Tick) : List Result :=
  match ticks.find? (fun t => Due w t) with
  | some t => [if w.id ∈ t.met then w.done t else w.timedOut]
  | none   => []

/-- **Every waiter has had what it is owed** after the ticks since it was added, and while one has had nothing, there is a tick
to come; there are never two. -/
structure Answered (s : State) : Prop where
  owed : ∀ id a since, s.asked[id]? = some (a, since) → s.answersOf id = owed ⟨id, a⟩ (s.ticks.drop since)
  next : ∀ id a since, s.asked[id]? = some (a, since) → s.answersOf id = [] → s.timers = 1
  one : s.timers ≤ 1

def Fine (s : State) : Event → Prop
  | .watch _ => True
  | .fire t  => ∀ w ∈ s.waiters, Due w t → ∀ x ∈ t.asks, x.1 ≠ w.id

instance (s : State) : (e : Event) → Decidable (Fine s e)
  | .watch _ => isTrue trivial
  | .fire t  => inferInstanceAs (Decidable (∀ w ∈ s.waiters, Due w t → ∀ x ∈ t.asks, x.1 ≠ w.id))

/-! ## One tick -/

theorem verdict_due (w : Waiter) (t : Tick) :
    w.verdict t = if Due w t then some (if w.id ∈ t.met then w.done t else w.timedOut) else none := by
  unfold Waiter.verdict
  by_cases hm : w.id ∈ t.met
  · have hd : Due w t := .inl hm
    rw [if_pos hm, if_pos hd, if_pos hm]
  · rw [if_neg hm, if_neg hm]
    have hiff : Due w t ↔ t.now ≥ w.ask.deadline := ⟨fun h => h.resolve_left hm, Or.inr⟩
    simp only [hiff]

theorem owed_append (w : Waiter) (ticks : List Tick) (t : Tick) :
    owed w (ticks ++ [t]) = if owed w ticks = [] then (w.verdict t).toList else owed w ticks := by
  unfold owed
  rw [find?_append]
  cases h : ticks.find? (fun t => Due w t) with
  | some t' => rfl
  | none =>
    rw [Option.none_or, verdict_due]
    by_cases hd : Due w t <;> simp [hd]

theorem answersOf_append (s : State) (id : Nat) (l : List (Nat × Result)) :
    ({ s with answers := s.answers ++ l } : State).answersOf id = s.answersOf id ++ (l.filter (·.1 = id)).map (·.2) := by
  unfold State.answersOf
  rw [filter_append, map_append]

section
variable {t : Tick}

theorem complete_quiet {w : Waiter} (h : ∀ x ∈ t.asks, x.1 ≠ w.id) (s : State) (r : Result) :
    s.complete t w r = { s with answers := s.answers ++ [(w.id, r)] } := by
  have hnone : t.asks.filter (·.1 = w.id) = [] := filter_eq_nil_iff.2 fun x hx => by simp [h x hx]
  unfold State.complete
  rw [hnone]
  rfl

/-- **The loop**, if no completion asks for anything: who is due is answered, in order, and the others remain. -/
theorem visit_quiet : ∀ (ws : List Waiter) (s : State) (remaining : List Waiter),
    (∀ w ∈ ws, Due w t → ∀ x ∈ t.asks, x.1 ≠ w.id) →
    s.visit t ws remaining = ({ s with answers := s.answers ++ ws.filterMap fun w => (w.verdict t).map (w.id, ·) },
      remaining ++ ws.filter fun w => ¬ Due w t)
  | [], s, remaining, _ => by simp [State.visit]
  | w :: ws, s, remaining, h => by
    have hrest : ∀ w ∈ ws, Due w t → ∀ x ∈ t.asks, x.1 ≠ w.id := fun w hw => h w (mem_cons_of_mem _ hw)
    unfold State.visit
    by_cases hd : Due w t
    · rw [verdict_due, if_pos hd]
      dsimp only
      rw [complete_quiet (h w mem_cons_self hd), visit_quiet ws _ remaining hrest]
      simp [verdict_due, hd, append_assoc]
    rw [verdict_due, if_neg hd]
    dsimp only
    rw [visit_quiet ws s _ hrest]
    simp [verdict_due, hd, append_assoc]

theorem visited_answers {ws : List Waiter} (hid : (ws.map Waiter.id).Nodup) {w : Waiter} (hw : w ∈ ws) :
    ((ws.filterMap fun w => (w.verdict t).map (w.id, ·)).filter (·.1 = w.id)).map (·.2) = (w.verdict t).toList := by
  have hnone (ws : List Waiter) (h : w.id ∉ ws.map Waiter.id) :
      ((ws.filterMap fun w => (w.verdict t).map (w.id, ·)).filter (·.1 = w.id)).map (·.2) = [] := by
    rw [map_eq_nil_iff, filter_eq_nil_iff]
    intro x hx
    obtain ⟨v, hv, hvx⟩ := mem_filterMap.1 hx
    obtain ⟨r, -, rfl⟩ := Option.map_eq_some_iff.1 hvx
    have : v.id ≠ w.id := fun he => h (mem_map.2 ⟨v, hv, he⟩)
    simp [this]
  induction ws with
  | nil => exact absurd hw not_mem_nil
  | cons v ws ih =>
    obtain ⟨hv, hid⟩ := nodup_cons.1 hid
    rcases mem_cons.1 hw with rfl | hw
    · cases hver : w.verdict t with
      | none =>
        rw [filterMap_cons_none (by rw [hver]; rfl), hnone ws hv]
        rfl
      | some r =>
        rw [filterMap_cons_some (b := (w.id, r)) (by rw [hver]; rfl), filter_cons_of_pos (by simp), map_cons,
          hnone ws hv]
        rfl
    · have hne : v.id ≠ w.id := fun he => hv (mem_map.2 ⟨w, hw, he.symm⟩)
      cases hver : v.verdict t with
      | none => rw [filterMap_cons_none (by rw [hver]; rfl), ih hid hw]
      | some r =>
        rw [filterMap_cons_some (b := (v.id, r)) (by rw [hver]; rfl), filter_cons_of_neg (by simpa using hne),
          ih hid hw]

end

/-! ## The run -/

/-- Between two blocks: who has not been answered is in the list, once, and a timer is outstanding if the list is not empty. -/
structure Listed (s : State) : Prop where
  ids : (s.waiters.map Waiter.id).Nodup
  asked : ∀ w ∈ s.waiters, ∃ since, s.asked[w.id]? = some (w.ask, since)
  waiting : ∀ id a since, s.asked[id]? = some (a, since) → (s.answersOf id = [] ↔ ⟨id, a⟩ ∈ s.waiters)
  owed : ∀ id a since, s.asked[id]? = some (a, since) → since ≤ s.ticks.length ∧
    s.answersOf id = owed ⟨id, a⟩ (s.ticks.drop since)
  known : ∀ x ∈ s.answers, x.1 < s.asked.length
  timers : s.timers = if s.waiters = [] then 0 else 1

theorem Listed.answered {s : State} (h : Listed s) : Answered s where
  owed := fun id a since ha => (h.owed id a since ha).2
  next := fun id a since ha hn => by
    have hmem := (h.waiting id a since ha).1 hn
    rw [h.timers, if_neg (ne_nil_of_mem hmem)]
  one := by
    rw [h.timers]
    split <;> omega

theorem Listed.watch {s : State} (h : Listed s) (a : Ask) : Listed (s.watch a) := by
  have hnew : s.answersOf s.asked.length = [] := by
    unfold State.answersOf
    rw [map_eq_nil_iff, filter_eq_nil_iff]
    intro x hx
    have := h.known x hx
    simp
    omega
  have hlt (w : Waiter) (hw : w ∈ s.waiters) : w.id < s.asked.length := by
    obtain ⟨since, hs⟩ := h.asked w hw
    exact (List.getElem?_eq_some_iff.1 hs).1
  have hstep : Listed { s with
      waiters := s.waiters ++ [⟨s.asked.length, a⟩], asked := s.asked ++ [(a, s.ticks.length)], timers := 1 } := by
    refine ⟨?_, fun w hw => ?_, fun id b since hb => ?_, fun id b since hb => ?_, fun x hx => ?_, ?_⟩
    · rw [map_append, nodup_append]
      refine ⟨h.ids, by simp, fun i hi j hj he => ?_⟩
      obtain ⟨w, hw, rfl⟩ := mem_map.1 hi
      have := hlt w hw
      simp only [map_cons, map_nil, mem_singleton] at hj
      omega
    · rcases mem_append.1 hw with hw | hw
      · obtain ⟨since, hs⟩ := h.asked w hw
        exact ⟨since, by rw [getElem?_append_left (hlt w hw)]; exact hs⟩
      · obtain rfl := mem_singleton.1 hw
        exact ⟨s.ticks.length, by simp⟩
    · rcases Nat.lt_or_ge id s.asked.length with hid | hid
      · rw [getElem?_append_left hid] at hb
        have hne : (⟨id, b⟩ : Waiter) ≠ ⟨s.asked.length, a⟩ := fun he => by
          have := congrArg Waiter.id he
          simp only at this
          omega
        refine (h.waiting id b since hb).trans ⟨fun hm => mem_append_left _ hm, fun hm => ?_⟩
        rcases mem_append.1 hm with hm | hm
        · exact hm
        · exact absurd (mem_singleton.1 hm) hne
      · rw [getElem?_append_right hid, getElem?_singleton] at hb
        obtain ⟨hz, hb⟩ := Option.ite_none_right_eq_some.1 hb
        cases hb
        have hid : id = s.asked.length := by omega
        subst hid
        exact ⟨fun _ => mem_append_right _ (mem_singleton.2 rfl), fun _ => hnew⟩
    · rcases Nat.lt_or_ge id s.asked.length with hid | hid
      · rw [getElem?_append_left hid] at hb
        exact h.owed id b since hb
      rw [getElem?_append_right hid, getElem?_singleton] at hb
      obtain ⟨hz, hb⟩ := Option.ite_none_right_eq_some.1 hb
      cases hb
      have hid : id = s.asked.length := by omega
      subst hid
      refine ⟨le_refl _, hnew.trans ?_⟩
      rw [drop_length]
      rfl
    · have := h.known x hx
      rw [length_append]
      exact Nat.lt_add_right _ this
    · rw [if_neg (by simp)]
  unfold State.watch State.tick
  dsimp only
  have htimers := h.timers
  by_cases hempty : s.waiters = []
  · rw [if_pos hempty] at htimers
    rw [if_pos (by simp [hempty]), htimers]
    exact hstep
  rw [if_neg hempty] at htimers
  rw [if_neg (by simpa using hempty)]
  rw [← htimers] at hstep
  exact hstep

/-- **The block of the timer**, if no completion asks for anything. -/
theorem Listed.fire {s : State} (h : Listed s) {t : Tick} (hfine : Fine s (.fire t)) (htimer : s.timers ≠ 0) :
    Listed (s.fire t) := by
  have hne : s.waiters ≠ [] := fun he => htimer (by rw [h.timers, if_pos he])
  have hone : s.timers = 1 := by rw [h.timers, if_neg hne]
  have hother (id : Nat) (a : Ask) (hw : (⟨id, a⟩ : Waiter) ∉ s.waiters) (since : Nat) (ha : s.asked[id]? = some (a, since)) :
      ((s.waiters.filterMap fun w => (w.verdict t).map (w.id, ·)).filter (·.1 = id)).map (·.2) = [] := by
    rw [map_eq_nil_iff, filter_eq_nil_iff]
    intro x hx
    obtain ⟨v, hv, hvx⟩ := mem_filterMap.1 hx
    obtain ⟨r, -, rfl⟩ := Option.map_eq_some_iff.1 hvx
    have hvid : v.id ≠ id := fun he => by
      obtain ⟨since', hs⟩ := h.asked v hv
      rw [he, ha] at hs
      obtain ⟨hask, -⟩ := Prod.mk.inj (Option.some.inj hs)
      apply hw
      rw [← he, hask]
      exact hv
    simp [hvid]
  have hanswers (id : Nat) (a : Ask) (since : Nat) (ha : s.asked[id]? = some (a, since)) :
      ((s.waiters.filterMap fun w => (w.verdict t).map (w.id, ·)).filter (·.1 = id)).map (·.2) =
        if s.answersOf id = [] then ((⟨id, a⟩ : Waiter).verdict t).toList else [] := by
    by_cases hw : (⟨id, a⟩ : Waiter) ∈ s.waiters
    · rw [if_pos ((h.waiting id a since ha).2 hw)]
      exact visited_answers h.ids hw
    · rw [if_neg (fun he => hw ((h.waiting id a since ha).1 he))]
      exact hother id a hw since ha
  have hstep : Listed { s with
      waiters := s.waiters.filter fun w => ¬ Due w t
      answers := s.answers ++ s.waiters.filterMap fun w => (w.verdict t).map (w.id, ·)
      ticks := s.ticks ++ [t]
      timers := if s.waiters.filter (fun w => ¬ Due w t) = [] then 0 else 1 } := by
    have hof (id : Nat) (a : Ask) (since : Nat) (ha : s.asked[id]? = some (a, since)) : (State.answersOf { s with
        waiters := s.waiters.filter fun w => ¬ Due w t
        answers := s.answers ++ s.waiters.filterMap fun w => (w.verdict t).map (w.id, ·)
        ticks := s.ticks ++ [t]
        timers := if s.waiters.filter (fun w => ¬ Due w t) = [] then 0 else 1 } id) =
          if s.answersOf id = [] then ((⟨id, a⟩ : Waiter).verdict t).toList else s.answersOf id := by
      refine (answersOf_append s id _).trans ?_
      rw [hanswers id a since ha]
      by_cases he : s.answersOf id = []
      · rw [if_pos he, if_pos he, he, nil_append]
      · rw [if_neg he, if_neg he, append_nil]
    refine ⟨?_, fun w hw => h.asked w (mem_of_mem_filter hw), fun id a since ha => ?_, fun id a since ha => ?_,
      fun x hx => ?_, rfl⟩
    · exact h.ids.sublist (List.Sublist.map _ filter_sublist)
    · rw [hof id a since ha, mem_filter, ← h.waiting id a since ha]
      by_cases he : s.answersOf id = []
      · rw [if_pos he, verdict_due]
        by_cases hd : Due ⟨id, a⟩ t <;> simp [hd, he]
      · simp [he]
    · obtain ⟨hle, howed⟩ := h.owed id a since ha
      refine ⟨by rw [length_append]; exact Nat.le_add_right_of_le hle, ?_⟩
      rw [hof id a since ha, drop_append_of_le_length hle, owed_append, howed]
    · rcases mem_append.1 hx with hx | hx
      · exact h.known x hx
      obtain ⟨v, hv, hvx⟩ := mem_filterMap.1 hx
      obtain ⟨r, -, rfl⟩ := Option.map_eq_some_iff.1 hvx
      obtain ⟨since, hs⟩ := h.asked v hv
      exact (List.getElem?_eq_some_iff.1 hs).1
  unfold State.fire
  dsimp only
  rw [if_neg hne, visit_quiet s.waiters _ [] hfine]
  dsimp only [State.tick]
  rw [nil_append, hone]
  by_cases hempty : s.waiters.filter (fun w => ¬ Due w t) = []
  · rw [if_neg (not_not.2 hempty)]
    rw [if_pos hempty] at hstep
    exact hstep
  · rw [if_pos hempty]
    rw [if_neg hempty] at hstep
    exact hstep

theorem listed_none : Listed {} where
  ids := nodup_nil
  asked := fun _ hw => absurd hw not_mem_nil
  waiting := fun _ _ _ ha => nomatch ha
  owed := fun _ _ _ ha => nomatch ha
  known := fun _ hx => absurd hx not_mem_nil
  timers := rfl

theorem Listed.step (s : State) (e : Event) (s' : State) (h : Listed s) (hfine : Fine s e) (hs : s.step e = some s') :
    Listed s' := by
  cases e with
  | watch a =>
    cases hs
    exact h.watch a
  | fire t =>
    obtain ⟨ht, hs⟩ := Option.ite_none_right_eq_some.1 hs
    cases hs
    exact h.fire hfine ht

/-- **Every wait is answered once**, at the first tick at which it is due, in every run in which no completion the timer's block
calls asks to watch something in turn. -/
theorem waits_answered {es : List Event} {s : State} (hr : Runs.run State.step {} es = some s)
    (hf : Runs.Along State.step Fine {} es) : Answered s :=
  (Runs.run_inv Listed.step listed_none hf hr).answered

def twoWaits : List Event :=
  [.watch ⟨"desktop", 120, 0⟩, .watch ⟨"picture", 1, 0⟩, .fire { now := 1 / 4, met := [0] }, .fire { now := 5 / 4 }]

theorem twoWaits_runs : (Runs.run State.step {} twoWaits).isSome = true := by decide +kernel

theorem twoWaits_answered : Answered ((Runs.run State.step {} twoWaits).get twoWaits_runs) :=
  waits_answered (Option.some_get twoWaits_runs).symm (by decide +kernel)

/-- A script: the desktop is there, and its next step waits for the picture. -/
def twoSteps : List Event :=
  [.watch ⟨"desktop", 120, 0⟩, .fire { now := 1 / 4, met := [0], asks := [(0, ⟨"picture", 121, 1 / 4⟩)] }]

/-- **The loop forgets who was added while it ran**: the second step is never looked at again. -/
theorem next_step_forgotten : ∃ s, Runs.run State.step {} twoSteps = some s ∧ ¬ Answered s := by
  refine ⟨_, rfl, fun h => ?_⟩
  have := h.next 1 ⟨"picture", 121, 1 / 4⟩ 1 (by decide +kernel) (by decide)
  exact absurd this (by decide)

end Automation
end Prose
