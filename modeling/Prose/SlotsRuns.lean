import Prose.SlotsSteps
/-!
# SlotsRuns — virtio_fs over every run

Any number of calls, interrupts and completions, in any order.  `delivered` is what the slots are for, where every
notification that finds a call in its loop comes for a request that is completed; `lateNotification` is a run with one that
does not.
-/
namespace Prose
namespace VirtioFs

open List

variable {T I : Type}

def State.given (s : State T I) : List Nat := s.pending.map (·.ticket) ++ s.completions.map (·.ticket)

structure Ticketed (s : State T I) : Prop where
  calls : ∀ t k, (s.calls t).ticket = some k → k < s.tickets
  apart : ∀ t u k, (s.calls t).ticket = some k → (s.calls u).ticket = some k → t = u
  given : ∀ k ∈ s.given, k < s.tickets ∧ ((∃ t, (s.calls t).ticket = some k) ∨ ∃ c ∈ s.returned, c.ticket = some k)
  given_nodup : s.given.Nodup
  returned : ∀ c ∈ s.returned, ∀ k, c.ticket = some k → k < s.tickets ∧ ∀ t, (s.calls t).ticket ≠ some k
  returned_nodup : (s.returned.filterMap (·.ticket)).Nodup

namespace Ticketed

variable {s s' : State T I} {t : T} {c : Call}

theorem same (h : Ticketed s) (hc : ∀ t, (s'.calls t).ticket = (s.calls t).ticket) (hg : s'.given = s.given)
    (hr : s'.returned = s.returned) (ht : s'.tickets = s.tickets) : Ticketed s' where
  calls := fun t k hk => by
    rw [hc] at hk
    rw [ht]
    exact h.calls t k hk
  apart := fun t u k h1 h2 => by
    rw [hc] at h1 h2
    exact h.apart t u k h1 h2
  given := fun k hk => by
    rw [hg] at hk
    rw [ht, hr]
    simp only [hc]
    exact h.given k hk
  given_nodup := hg ▸ h.given_nodup
  returned := fun c hcr k hk => by
    rw [hr] at hcr
    rw [ht]
    simp only [hc]
    exact h.returned c hcr k hk
  returned_nodup := hr ▸ h.returned_nodup

variable [DecidableEq T]

theorem setCall (h : Ticketed s) (hc : c.ticket = (s.calls t).ticket) : Ticketed (s.setCall t c) := by
  refine h.same (fun u => ?_) rfl rfl rfl
  rw [State.setCall_calls]
  split
  · next hu => rw [hc, hu]
  · rfl

theorem leave (h : Ticketed s) (hc : c.ticket = (s.calls t).ticket) : Ticketed (s.leave t c) := by
  have hcalls (u : T) : (s.leave t c).calls u = if u = t then {} else s.calls u := State.setCall_calls ..
  have hkept {u : T} {k : Nat} (hk : ((s.leave t c).calls u).ticket = some k) : u ≠ t ∧ (s.calls u).ticket = some k := by
    rw [hcalls] at hk
    split at hk
    · exact nomatch hk
    · exact ⟨by assumption, hk⟩
  refine ⟨fun u k hk => h.calls u k (hkept hk).2, fun u v k hu hv => h.apart u v k (hkept hu).2 (hkept hv).2,
    fun k hk => ?_, h.given_nodup, fun d hd k hk => ?_, ?_⟩
  · obtain ⟨hlt, ⟨u, hu⟩ | ⟨d, hd, hdk⟩⟩ := h.given k hk
    · refine ⟨hlt, ?_⟩
      by_cases hut : u = t
      · exact .inr ⟨c, mem_cons_self .., by rw [hc, ← hut, hu]⟩
      · exact .inl ⟨u, by rw [hcalls, if_neg hut, hu]⟩
    · exact ⟨hlt, .inr ⟨d, mem_cons_of_mem _ hd, hdk⟩⟩
  · rcases mem_cons.1 hd with rfl | hd
    · rw [hc] at hk
      exact ⟨h.calls t k hk, fun u hu => (hkept hu).1 (h.apart u t k (hkept hu).2 hk)⟩
    · exact ⟨(h.returned d hd k hk).1, fun u hu => (h.returned d hd k hk).2 u (hkept hu).2⟩
  · show ((c :: s.returned).filterMap _).Nodup
    cases hk : c.ticket with
    | none =>
      rw [filterMap_cons_none hk]
      exact h.returned_nodup
    | some k =>
      rw [filterMap_cons_some hk, nodup_cons]
      refine ⟨fun hmem => ?_, h.returned_nodup⟩
      obtain ⟨d, hd, hdk⟩ := mem_filterMap.1 hmem
      exact (h.returned d hd k hdk).2 t (by rw [← hc, hk])

theorem queue_ok (h : Ticketed s) (hn : (s.calls t).ticket = none) : Ticketed (s.queue t .ok) := by
  have hcalls (u : T) : ((s.queue t .ok).calls u).ticket = if u = t then some s.tickets else (s.calls u).ticket := by
    show ((s.setCall t _).calls u).ticket = _
    rw [State.setCall_calls]
    split <;> rfl
  have hgiven : (s.queue t .ok).given = s.pending.map (·.ticket) ++ [s.tickets] ++ s.completions.map (·.ticket) := by
    show (s.pending ++ [_]).map _ ++ _ = _
    rw [map_append]
    rfl
  have hperm : (s.queue t .ok).given.Perm (s.tickets :: s.given) := by
    rw [hgiven, append_assoc]
    exact perm_middle
  refine ⟨fun u k hk => ?_, fun u v k hu hv => ?_, fun k hk => ?_, ?_, fun d hd k hk => ?_, h.returned_nodup⟩
  · show k < s.tickets + 1
    rw [hcalls] at hk
    split at hk
    · have := Option.some.inj hk
      omega
    · have := h.calls u k hk
      omega
  · rw [hcalls] at hu hv
    split at hu <;> split at hv
    · next h1 h2 => rw [h1, h2]
    · have := h.calls v k hv
      have := Option.some.inj hu
      omega
    · have := h.calls u k hu
      have := Option.some.inj hv
      omega
    · exact h.apart u v k hu hv
  · rcases mem_cons.1 (hperm.mem_iff.1 hk) with rfl | hk
    · exact ⟨Nat.lt_succ_self _, .inl ⟨t, by rw [hcalls, if_pos rfl]⟩⟩
    obtain ⟨hlt, hor⟩ := h.given k hk
    refine ⟨Nat.lt_succ_of_lt hlt, hor.imp (fun ⟨u, hu⟩ => ⟨u, ?_⟩) id⟩
    rw [hcalls, if_neg (fun hut => by rw [hut, hn] at hu; exact nomatch hu)]
    exact hu
  · rw [hperm.nodup_iff, nodup_cons]
    exact ⟨fun hmem => Nat.lt_irrefl _ (h.given _ hmem).1, h.given_nodup⟩
  · obtain ⟨hlt, hne⟩ := h.returned d hd k hk
    refine ⟨Nat.lt_succ_of_lt hlt, fun u hu => ?_⟩
    rw [hcalls] at hu
    split at hu
    · have := Option.some.inj hu
      omega
    · exact hne u hu

omit [DecidableEq T] in
theorem complete (h : Ticketed s) {k : Nat} {written : List UInt8} {used : Nat}
    (hs : s.complete k written used = some s') : Ticketed s' := by
  obtain ⟨d, hd, hs⟩ := Option.bind_eq_some_iff.1 hs
  obtain ⟨-, hs⟩ := Option.ite_none_right_eq_some.1 hs
  cases hs
  obtain ⟨hk, rfl⟩ := List.getElem?_eq_some_iff.1 hd
  have hperm : ((s.pending.eraseIdx k).map (·.ticket) ++ s.pending[k].ticket :: s.completions.map (·.ticket)).Perm s.given := by
    refine perm_middle.trans ?_
    rw [← cons_append]
    refine List.Perm.append_right _ ?_
    have := (getElem_cons_eraseIdx_perm hk).map (·.ticket)
    rwa [map_cons] at this
  exact ⟨h.calls, h.apart, fun i hi => h.given i (hperm.mem_iff.1 hi), hperm.nodup_iff.2 h.given_nodup, h.returned,
    h.returned_nodup⟩

variable [DecidableEq I]

theorem step {place : Fin slotCount → Place T I} (h : Ticketed s) (hp : Placed place s) {e : Event T I}
    (hs : s.step e = some s') : Ticketed s' := by
  cases e with
  | call t request =>
    obtain ⟨hi, hs⟩ := Option.ite_none_right_eq_some.1 hs
    cases hs
    have hn := (hp.fit t).new (by rw [hi]; rfl) (by rw [hi]; exact nofun) (by rw [hi]; exact nofun)
    unfold State.begin
    split
    · exact h.leave hn.symm
    · exact h.setCall hn.symm
  | acquire t ok =>
    obtain ⟨-, hs⟩ := Option.ite_none_right_eq_some.1 hs
    split at hs
    · split at hs
      · exact nomatch hs
      · exact Option.some.inj hs ▸ (h.setCall (t := t) (c := { s.calls t with phase := .acquired }) rfl).same
          (fun _ => rfl) rfl rfl rfl
    · exact Option.some.inj hs ▸ h.leave rfl
  | pick t =>
    obtain ⟨-, hs⟩ := Option.ite_none_right_eq_some.1 hs
    obtain ⟨i, -, rfl⟩ := Option.map_eq_some_iff.1 hs
    exact (h.setCall (t := t) (c := { s.calls t with phase := .picked, slot := i }) rfl).same (fun _ => rfl) rfl rfl rfl
  | copy t inData ok =>
    obtain ⟨-, hs⟩ := Option.ite_none_right_eq_some.1 hs
    cases hs
    have hset (m : Slot) : Ticketed (s.setSlot (s.calls t).slot m) := h.same (fun _ => rfl) rfl rfl rfl
    unfold State.copyIn
    split
    · exact (hset _).setCall rfl
    · exact (hset _).setCall rfl
  | stamp t =>
    obtain ⟨-, hs⟩ := Option.ite_none_right_eq_some.1 hs
    exact Option.some.inj hs ▸ (h.setCall (t := t) (c := { s.calls t with phase := .stamped, unique := s.nextUnique }) rfl).same
      (fun _ => rfl) rfl rfl rfl
  | arm t =>
    obtain ⟨-, hs⟩ := Option.ite_none_right_eq_some.1 hs
    exact Option.some.inj hs ▸ (h.setCall (t := t) (c := { s.calls t with phase := .armed }) rfl).same (fun _ => rfl) rfl rfl rfl
  | queue t status =>
    obtain ⟨ha, hs⟩ := Option.ite_none_right_eq_some.1 hs
    cases hs
    by_cases hok : status = .ok
    · rw [hok]
      exact h.queue_ok (hp.before ha rfl rfl nofun).2.2.2.1
    · unfold State.queue
      rw [if_neg hok]
      exact h.setCall rfl
  | finish t copied =>
    obtain ⟨-, hs⟩ := Option.ite_none_right_eq_some.1 hs
    exact Option.some.inj hs ▸ h.setCall (read_ticket ..)
  | clear t =>
    obtain ⟨-, hs⟩ := Option.ite_none_right_eq_some.1 hs
    exact Option.some.inj hs ▸ (h.setCall (t := t) (c := { s.calls t with phase := .releasing }) rfl).same (fun _ => rfl) rfl rfl rfl
  | release t =>
    obtain ⟨-, hs⟩ := Option.ite_none_right_eq_some.1 hs
    exact Option.some.inj hs ▸ (h.leave (t := t) rfl).same (fun _ => rfl) rfl rfl rfl
  | complete k written used => exact h.complete hs
  | dequeue x hiprio =>
    obtain ⟨-, hs⟩ := Option.ite_none_right_eq_some.1 hs
    unfold State.dequeue at hs
    split at hs
    · exact nomatch hs
    · exact Option.some.inj hs ▸ h.same (fun _ => rfl) rfl rfl rfl
  | measure x =>
    unfold State.step at hs
    dsimp only at hs
    split at hs
    · exact Option.some.inj hs ▸ h.same (fun _ => rfl) rfl rfl rfl
    · exact nomatch hs
  | flag x =>
    unfold State.step at hs
    dsimp only at hs
    split at hs
    · exact Option.some.inj hs ▸ h.same (fun _ => rfl) rfl rfl rfl
    · exact nomatch hs
  | notify x =>
    unfold State.step at hs
    dsimp only at hs
    split at hs
    · next i _ =>
      refine Option.some.inj hs ▸ h.same (fun t => ?_) rfl rfl rfl
      obtain ⟨e, he, -⟩ := Placed.notify_calls s i t
      show ((s.notify i).calls t).ticket = _
      rw [he]
    · exact nomatch hs
  | add t | wake t | expire t | look t | again t | drained t | lookAgain t =>
    obtain ⟨-, hs⟩ := Option.ite_none_right_eq_some.1 hs
    exact Option.some.inj hs ▸ h.setCall rfl

end Ticketed
/-- **What the slots are for**: no slot of a request that the device has not completed is another's, a call that succeeds
has the reply to its own request, and every request completed is one call's. -/
structure Delivered (s : State T I) : Prop where
  held : ∀ d ∈ s.pending, ∃ t, (s.calls t).phase.sent = true ∧ (s.calls t).slot = d.slot ∧
    (s.calls t).ticket = some d.ticket ∧ ∀ u, (s.calls u).phase.owns = true → (s.calls u).slot = d.slot → u = t
  own : ∀ c ∈ s.returned, Served s.completions c
  caller : ∀ d ∈ s.completions, (∃ t, (s.calls t).ticket = some d.ticket) ∨ ∃ c ∈ s.returned, c.ticket = some d.ticket
  once : (s.completions.map (·.ticket)).Nodup ∧ (s.returned.filterMap (·.ticket)).Nodup
  apart : ∀ t k, (s.calls t).ticket = some k → (∀ u, (s.calls u).ticket = some k → u = t) ∧
    ∀ c ∈ s.returned, c.ticket ≠ some k

theorem placed_initial : Placed (fun _ => .nowhere) ({} : State T I) where
  busy := fun _ h => nomatch h
  alone := fun _ _ h => nomatch h
  fit := fun _ => Fit.idle _ _ _
  carried := fun _ h => absurd rfl h
  pending := fun _ h => absurd h not_mem_nil
  pending_nodup := nodup_nil
  ring := fun _ _ h => absurd h not_mem_nil
  ring_nodup := fun _ => nodup_nil
  taken := fun _ _ _ h => nomatch h
  measured := fun _ _ h => nomatch h
  returned := fun _ h => absurd h not_mem_nil

theorem ticketed_initial : Ticketed ({} : State T I) where
  calls := fun _ _ h => nomatch h
  apart := fun _ _ _ h => nomatch h
  given := fun _ h => absurd h not_mem_nil
  given_nodup := nodup_nil
  returned := fun _ h => absurd h not_mem_nil
  returned_nodup := nodup_nil

/-- **Where no notification finds a call whose request is not completed, every call gets its reply and its slot.** -/
theorem delivered [DecidableEq T] [DecidableEq I] (events : List (Event T I)) (s : State T I)
    (hrun : Runs.run State.step {} events = some s) (hfine : Runs.Along State.step State.Fine {} events) : Delivered s := by
  have h : (∃ place, Placed place s) ∧ Ticketed s :=
    Runs.run_inv (I := fun s => (∃ place, Placed place s) ∧ Ticketed s) (fun _ _ _ hi hf hs => by
      obtain ⟨⟨place, hp⟩, ht⟩ := hi
      exact ⟨step_placed hp hf hs, ht.step hp hs⟩) ⟨⟨_, placed_initial⟩, ticketed_initial⟩ hfine hrun
  obtain ⟨⟨place, hp⟩, ht⟩ := h
  refine ⟨fun d hd => ?_, hp.returned, fun d hd => ?_, ⟨?_, ht.returned_nodup⟩, fun t k hk => ⟨fun u hu => ?_, fun c hc he => ?_⟩⟩
  · obtain ⟨-, t, hs, hti, hticket, -⟩ := hp.pending d hd
    exact ⟨t, hs, hti, hticket, fun u hu hui => hp.alone u t hu (Phase.owns_of_sent hs) (hui.trans hti.symm)⟩
  · exact (ht.given _ (mem_append_right _ (mem_map_of_mem hd))).2
  · exact (nodup_append.1 ht.given_nodup).2.1
  · exact ht.apart u t k hu hk
  · exact (ht.returned c hc k he).2 t hk

/-! ## One notification too late -/

/-- A request for sixteen bytes, and replies to the first and the second of them. -/
def short : Request := { inSize := 16, outSize := 16 }

def replyTo (unique : UInt8) : List UInt8 := [16, 0, 0, 0, 0, 0, 0, 0, unique, 0, 0, 0, 0, 0, 0, 0]

def send (t : Bool) : List (Event Bool Unit) :=
  [.call t short, .acquire t true, .pick t, .copy t [] true, .stamp t, .arm t, .add t, .queue t .ok]

def receive (t : Bool) : List (Event Bool Unit) := [.finish t true, .clear t, .release t]

/-- The device replies, and an interrupt takes the reply up to where it would notify. -/
def interrupted : List (Event Bool Unit) :=
  [.complete 0 (replyTo 2) 16, .dequeue (.inr ()) false, .measure (.inr ()), .flag (.inr ())]

def roundTrip : List (Event Bool Unit) := send false ++ interrupted ++ [.notify (.inr ()), .wake false] ++ receive false

theorem roundTrip_runs : (Runs.run State.step {} roundTrip).isSome = true := by decide

theorem roundTrip_delivered : Delivered ((Runs.run State.step {} roundTrip).get roundTrip_runs) :=
  delivered roundTrip _ (Option.some_get roundTrip_runs).symm (by decide)

/-- The first call's wait runs out, it finds its request completed, and the second call gets its slot. -/
def lateNotification : List (Event Bool Unit) :=
  send false ++ interrupted ++ [.expire false, .look false] ++ receive false ++
    send true ++ [.notify (.inr ()), .wake true] ++ receive true ++ send false

theorem lateNotification_runs : (Runs.run State.step {} lateNotification).isSome = true := by decide

/-- **The notification wakes the second call, and a third gets the slot the device still has.** -/
theorem lateNotification_lost : ∃ s, Runs.run State.step {} lateNotification = some s ∧ ¬ Delivered s := by
  refine ⟨_, (Option.some_get lateNotification_runs).symm, fun h => ?_⟩
  obtain ⟨t, -, -, ht, -⟩ := h.held ⟨0, 1, false, 16, 0⟩ (by decide)
  cases t
  · exact absurd ht (by decide)
  · exact absurd ht (by decide)

end VirtioFs
end Prose
