import Prose.SoundModel
/-!
# SoundDebts — what a call knows of the session

A call knows, step by step, whether a session is on, how far it has come with its first buffers, and what becomes of the buffer
it sends or has taken from the ring.  A callback has a submission in its hand, or a count the semaphore is to get.
-/
namespace Prose
namespace Sound

open Tasks

inductive Know
  | nothing
  /-- the session is reset -/
  | fresh
  /-- the buffers before that one are submitted -/
  | loop (i : Nat)
  | loopMarked (i : Nat) (sub : Sub)
  /-- a session is on -/
  | live
  /-- the mixer's last buffer is to be submitted; and is -/
  | mine (index : Nat)
  | mineMarked (sub : Sub)
  | sent
  /-- a count of the semaphore, and the completion it stands for -/
  | acquired
  | taken (t : Taken)
  /-- nothing runs any more; and no session is on -/
  | stopped
  | cleared
  deriving DecidableEq

structure Debt where
  op : Bool := false
  know : Know := .nothing
  hand : Option Sub := none
  releasing : Bool := false

def Know.marked (sub : Sub) : Know → Know
  | .loop i => .loopMarked i sub
  | _ => .mineMarked sub

def Know.queued (ok : Bool) : Know → Know
  | .loopMarked i sub => if ok then .loop (i + 1) else .loopMarked i sub
  | .mineMarked sub => if ok then .sent else .mineMarked sub
  | k => k

def Know.unmarked : Know → Know
  | .loopMarked i _ => .loop i
  | _ => .sent

def after : (a : Act) → Answer a → Debt → Debt
  | .running, b, g => { g with know := if b then .live else .nothing }
  | .toSubmit, index, g => { g with know := index.elim .live .mine }
  | .reset, _, g => { g with know := .fresh }
  | .clearToSubmit, _, g => { g with know := if g.know = .fresh then .loop 0 else .live }
  | .started, _, g => { g with know := .live }
  | .mark _, sub, g => { g with know := g.know.marked sub }
  | .queue _, ok, g => { g with know := g.know.queued ok }
  | .unmark _, _, g => { g with know := g.know.unmarked }
  | .acquire, ok, g => { g with know := if ok then .acquired else .live }
  | .takeCompleted, t, g => { g with know := .taken t }
  | .exchanged _, _, g => { g with know := .live }
  | .stopped, _, g => { g with know := .stopped }
  | .clear, _, g => { g with know := .cleared }
  | .finish, _, g => { g with op := false, know := .nothing }
  | .dequeue, sub, g => { g with hand := sub }
  | .take _, counted, g => { g with hand := none, releasing := counted }
  | .releaseSem, _, g => { g with releasing := false }
  | _, _, g => g

def ready (c : Config) : Act → Debt → Prop
  | .running, g => g.op = true ∧ g.know = .nothing
  | .toSubmit, g => g.op = true ∧ g.know = .live
  | .reset, g => g.op = true ∧ g.know = .nothing
  | .clearToSubmit, g => g.op = true ∧ (g.know = .fresh ∨ g.know = .sent)
  | .started, g => g.op = true ∧ ∃ i, g.know = .loop i
  | .mark index, g => g.op = true ∧ (g.know = .loop index ∧ index < c.bufferCount ∨ g.know = .mine index)
  | .queue sub, g => g.op = true ∧ ((∃ i, g.know = .loopMarked i sub) ∨ g.know = .mineMarked sub)
  | .unmark sub, g => g.op = true ∧ ((∃ i, g.know = .loopMarked i sub) ∨ g.know = .mineMarked sub)
  | .acquire, g => g.op = true ∧ g.know = .live
  | .takeCompleted, g => g.op = true ∧ g.know = .acquired
  | .exchanged t, g => g.op = true ∧ g.know = .taken t
  | .stopped, g => g.op = true ∧ (g.know = .nothing ∨ g.know = .live)
  | .clear, g => g.op = true ∧ g.know = .stopped
  | .drainSem, g => g.op = true ∧ g.know = .cleared
  | .finish, g => g.op = true ∧ (g.know = .nothing ∨ g.know = .live ∨ g.know = .cleared ∨ ∃ i, g.know = .loop i)
  | .dequeue, g => g.op = false ∧ g.hand = none ∧ g.releasing = false
  | .take sub, g => g.op = false ∧ g.hand = some sub
  | .releaseSem, g => g.op = false ∧ g.releasing = true
  | _, g => g.op = true

def may (c : Config) : (a : Act) → Answer a → Prop
  | .dequeue, sub => ∀ x, sub = some x → x.index < c.bufferCount
  | _, _ => True

/-- A thread that ends is no call any more, and has no count to give. -/
abbrev Owing (c : Config) (p : Hook Unit) (g : Debt) : Prop :=
  Honest (ready c) after (may c) (fun g => g.op = false ∧ g.releasing = false) p g

abbrev From (c : Config) {α : Type} (p : Hook α) (g : Debt) (Q : α → Debt → Prop) : Prop :=
  Settles (ready c) after (may c) p g Q

abbrev Debt.of (k : Know) : Debt := { op := true, know := k }

section
variable {c : Config}

theorem finish_owing {k : Know} (h : k = .nothing ∨ k = .live ∨ k = .cleared ∨ ∃ i, k = .loop i) :
    Owing c (ask .finish) (.of k) := settles_one.2 ⟨⟨rfl, h⟩, fun _ _ => ⟨rfl, rfl⟩⟩

/-- **`snd_submit`**, in the loop of a start. -/
theorem submit_loop {i : Nat} (hi : i < c.bufferCount) {Q : Bool → Debt → Prop} (hok : Q true (.of (.loop (i + 1))))
    (hno : Q false (.of (.loop i))) : From c (submit i) (.of (.loop i)) Q := by
  refine settles_bind.2 (settles_one.2 ⟨⟨rfl, .inl ⟨rfl, hi⟩⟩, fun sub _ => ?_⟩)
  refine settles_bind.2 (settles_one.2 ⟨⟨rfl, .inl ⟨i, rfl⟩⟩, fun ok _ => ?_⟩)
  cases ok
  · exact settles_bind.2 (settles_one.2 ⟨⟨rfl, .inl ⟨i, rfl⟩⟩, fun _ _ => hno⟩)
  · exact settles_bind.2 (settles_one.2 ⟨rfl, fun _ _ => hok⟩)

theorem submit_mine (index : Nat) {Q : Bool → Debt → Prop} (hq : ∀ ok, Q ok (.of .sent)) :
    From c (submit index) (.of (.mine index)) Q := by
  refine settles_bind.2 (settles_one.2 ⟨⟨rfl, .inr rfl⟩, fun sub _ => ?_⟩)
  refine settles_bind.2 (settles_one.2 ⟨⟨rfl, .inr rfl⟩, fun ok _ => ?_⟩)
  cases ok
  · exact settles_bind.2 (settles_one.2 ⟨⟨rfl, .inr rfl⟩, fun _ _ => hq false⟩)
  · exact settles_bind.2 (settles_one.2 ⟨rfl, fun _ _ => hq true⟩)

theorem submitFrom_settles {Q : Bool → Debt → Prop} (hq : ∀ ok i, Q ok (.of (.loop i))) : ∀ (n i : Nat),
    i + n = c.bufferCount → From c (submitFrom i n) (.of (.loop i)) Q
  | 0, i, _ => hq true i
  | n + 1, i, hi => by
    refine settles_bind.2 (submit_loop (by omega) ?_ (hq false i))
    exact submitFrom_settles hq n (i + 1) (by omega)

/-- **`snd_pcm_start`**: a session is on, or some loop of a start has come to an end. -/
theorem start_settles {Q : Bool → Debt → Prop} (hnothing : Q false (.of .nothing)) (hloop : ∀ i, Q false (.of (.loop i)))
    (hlive : Q true (.of .live)) : From c (start c) (.of .nothing) Q := by
  refine settles_bind.2 (settles_one.2 ⟨rfl, fun ok _ => ?_⟩)
  cases ok
  · exact hnothing
  refine settles_bind.2 (settles_one.2 ⟨rfl, fun ok _ => ?_⟩)
  cases ok
  · exact hnothing
  refine settles_bind.2 (settles_one.2 ⟨rfl, fun _ _ => ?_⟩)
  refine settles_bind.2 (settles_one.2 ⟨⟨rfl, rfl⟩, fun _ _ => ?_⟩)
  refine settles_bind.2 (settles_one.2 ⟨⟨rfl, .inl rfl⟩, fun _ _ => settles_bind.2 ?_⟩)
  refine submitFrom_settles (fun ok i => ?_) c.bufferCount 0 (Nat.zero_add _)
  cases ok
  · exact hloop i
  refine settles_bind.2 (settles_one.2 ⟨rfl, fun ok _ => ?_⟩)
  cases ok
  · exact hloop i
  · exact settles_bind.2 (settles_one.2 ⟨⟨rfl, i, rfl⟩, fun _ _ => hlive⟩)

/-- **`buffer_exchange`.** -/
theorem bufferExchange_owing : Owing c (bufferExchange c) (.of .nothing) := by
  refine settles_bind.2 (settles_one.2 ⟨rfl, fun ok _ => ?_⟩)
  cases ok
  · exact finish_owing (.inl rfl)
  show From c (if c.area = true then _ else _) _ _
  split
  swap
  · exact finish_owing (.inl rfl)
  have hexchange : Owing c exchange (.of .live) := by
    refine settles_bind.2 (settles_one.2 ⟨⟨rfl, rfl⟩, fun ok _ => ?_⟩)
    cases ok
    · exact finish_owing (.inr (.inl rfl))
    refine settles_bind.2 (settles_one.2 ⟨⟨rfl, rfl⟩, fun t _ => settles_bind.2 (settles_one.2 ⟨⟨rfl, rfl⟩, fun info _ => ?_⟩)⟩)
    exact settles_bind.2 (settles_one.2 ⟨rfl, fun _ _ => finish_owing (.inr (.inl rfl))⟩)
  refine settles_bind.2 (settles_one.2 ⟨⟨rfl, rfl⟩, fun running _ => settles_bind.2 ?_⟩)
  cases running
  · exact start_settles (finish_owing (.inl rfl)) (fun i => finish_owing (.inr (.inr (.inr ⟨i, rfl⟩)))) hexchange
  · refine settles_bind.2 (settles_one.2 ⟨⟨rfl, rfl⟩, fun index _ => ?_⟩)
    cases index with
    | none => exact hexchange
    | some index =>
      refine settles_bind.2 (submit_mine index fun _ => ?_)
      exact settles_bind.2 (settles_one.2 ⟨⟨rfl, .inr rfl⟩, fun _ _ => hexchange⟩)

/-- **`snd_pcm_stop`.** -/
theorem stop_owing : Owing c stop (.of .nothing) := by
  have hrest (k : Know) (hk : k = .nothing ∨ k = .live) : Owing c (do
      let prepared ← ask .prepared
      giveBack prepared
      ask .stopped
      ask .clear
      ask .drainSem
      ask .finish) (.of k) := by
    have hend : Owing c (do
        ask .stopped
        ask .clear
        ask .drainSem
        ask .finish) (.of k) := by
      refine settles_bind.2 (settles_one.2 ⟨⟨rfl, hk⟩, fun _ _ => settles_bind.2 (settles_one.2 ⟨⟨rfl, rfl⟩, fun _ _ => ?_⟩)⟩)
      refine settles_bind.2 (settles_one.2 ⟨⟨rfl, rfl⟩, fun _ _ => ?_⟩)
      exact finish_owing (.inr (.inr (.inl rfl)))
    refine settles_bind.2 (settles_one.2 ⟨rfl, fun prepared _ => settles_bind.2 ?_⟩)
    cases prepared
    · exact hend
    · exact settles_bind.2 (settles_one.2 ⟨rfl, fun _ _ => settles_bind.2 (settles_one.2 ⟨rfl, fun _ _ => hend⟩)⟩)
  refine settles_bind.2 (settles_one.2 ⟨⟨rfl, rfl⟩, fun running _ => settles_bind.2 ?_⟩)
  cases running
  · exact hrest .nothing (.inl rfl)
  · exact settles_bind.2 (settles_one.2 ⟨rfl, fun _ _ => hrest .live (.inr rfl)⟩)

/-- **`snd_tx_callback`.** -/
theorem txCallback_owing : ∀ n : Nat, Owing c (txCallback c n) {}
  | 0 => ⟨rfl, rfl⟩
  | n + 1 => by
    refine settles_bind.2 (settles_one.2 ⟨⟨rfl, rfl, rfl⟩, fun sub hsub => ?_⟩)
    cases sub with
    | none => exact ⟨rfl, rfl⟩
    | some sub =>
      show From c (if c.bufferCount ≤ sub.index then _ else _) _ _
      rw [if_neg (Nat.not_le.2 (hsub sub rfl))]
      refine settles_bind.2 (settles_one.2 ⟨⟨rfl, rfl⟩, fun counted _ => ?_⟩)
      cases counted
      · exact txCallback_owing n
      · exact settles_bind.2 (settles_one.2 ⟨⟨rfl, rfl⟩, fun _ _ => txCallback_owing n⟩)

end

end Sound
end Prose
