import Prose.SlotsModel
/-!
# SlotsSound — where a slot's request is

From `queue_request_v` to `completed` a request is in one place: with the device, on a used ring, or with a handler.
`Placed` has a place for every slot; what a call may take for granted at each phase is `Fit`.  One notification undoes it:
one that comes for an earlier request and finds the next one's entry on the variable.
-/
namespace Prose
namespace VirtioFs

def Phase.owns : Phase → Bool
  | .idle | .checked | .acquired | .releasing => false
  | _ => true

def Phase.sent : Phase → Bool
  | .waiting | .expired | .retrying | .draining | .drained | .finishing => true
  | _ => false

def Phase.waits : Phase → Bool
  | .added | .waiting | .expired | .retrying | .draining | .drained => true
  | _ => false

theorem Phase.owns_of_sent : ∀ {p : Phase}, p.sent = true → p.owns = true
  | .waiting, _ | .expired, _ | .retrying, _ | .draining, _ | .drained, _ | .finishing, _ => rfl

theorem Phase.owns_of_waits : ∀ {p : Phase}, p.waits = true → p.owns = true
  | .added, _ | .waiting, _ | .expired, _ | .retrying, _ | .draining, _ | .drained, _ => rfl

inductive Place (T I : Type)
  | nowhere
  | device
  | ring (hiprio : Bool) (used : Nat)
  | taken (x : T ⊕ I) (used : Nat)
  | measured (x : T ⊕ I)

def padded (written : List UInt8) : Nat → UInt8 := overlaid written 0 fun _ => 0

structure Answer (m : Slot) (r : Request) (d : Completion) : Prop where
  bytes : ∀ k b, d.written[k]? = some b → if k < r.outSize then m.out k = b else m.data (k - r.outSize) = b
  header : r.hiprio = false → ∀ k < prefixSize, m.out k = padded d.written k
  room : r.hiprio = false → d.written.length ≤ r.outSize + r.outDataSize
  length : d.written.length ≤ d.used

def Answered (D : List Completion) (c : Call) (m : Slot) (used : Nat) : Prop :=
  ∃ d ∈ D, c.ticket = some d.ticket ∧ d.used = used ∧ Answer m c.request d

def Zero (m : Slot) (r : Request) : Prop := r.hiprio = false → ∀ k < prefixSize, m.out k = 0

/-- The call returned what the device wrote: its bytes, as far as the reply's own length goes. -/
structure Reads (c : Call) (d : Completion) : Prop where
  unique : word64 (padded d.written) 8 = c.unique
  out : ∀ k b, d.written[k]? = some b → k < word32 (padded d.written) 0 → k < c.request.outSize → c.out[k]? = some b
  data : ∀ k b, d.written[k]? = some b → k < word32 (padded d.written) 0 → c.request.outSize ≤ k →
    c.data[k - c.request.outSize]? = some b

/-- A call that succeeds has been answered, and has the answer where there is one. -/
def Served (D : List Completion) (c : Call) : Prop :=
  ∀ k, c.ticket = some k → c.status = .ok → ∃ d ∈ D, d.ticket = k ∧ (c.request.hiprio = false → Reads c d)

section
variable {T I : Type}

/-- What a request with the device, or on its way back, has in its slot. -/
def Carried (D : List Completion) (m : Slot) (c : Call) : Place T I → Prop
  | .nowhere => m.completed = true ∧ Answered D c m m.usedLength
  | .device => m.completed = false ∧ Zero m c.request
  | .ring _ used => m.completed = false ∧ Answered D c m used
  | .taken _ used => m.completed = false ∧ Answered D c m used
  | .measured _ => m.completed = false ∧ Answered D c m m.usedLength

structure Fit (D : List Completion) (m : Slot) (p : Place T I) (c : Call) : Prop where
  /-- a request that is not with the device is nowhere -/
  unsent : c.phase.owns = true → c.phase.sent = false → p = .nowhere
  sent : c.phase.sent = true → Carried D m c p
  allowed : c.phase ≠ .idle → c.request.refused = none
  zero : c.phase = .stamped ∨ c.phase = .armed ∨ c.phase = .added → Zero m c.request
  unset : c.phase = .armed ∨ c.phase = .added → m.completed = false
  told : c.phase.waits = true → c.entry = .notified → m.completed = true
  done : c.phase = .finishing → m.completed = true
  new : c.phase.sent = false → c.phase ≠ .clearing → c.phase ≠ .releasing → c.ticket = none
  served : c.phase = .clearing ∨ c.phase = .releasing → Served D c

/-- **Every slot's request is in one place**, and every call has what its phase takes for granted. -/
structure Placed (place : Fin slotCount → Place T I) (s : State T I) : Prop where
  busy : ∀ t, (s.calls t).phase.owns = true → s.slotBusy (s.calls t).slot = true
  alone : ∀ t t', (s.calls t).phase.owns = true → (s.calls t').phase.owns = true →
    (s.calls t).slot = (s.calls t').slot → t = t'
  fit : ∀ t, Fit s.completions (s.slots (s.calls t).slot) (place (s.calls t).slot) (s.calls t)
  carried : ∀ i, place i ≠ .nowhere → ∃ t, (s.calls t).phase.sent = true ∧ (s.calls t).slot = i
  pending : ∀ c ∈ s.pending, place c.slot = .device ∧ ∃ t, (s.calls t).phase.sent = true ∧ (s.calls t).slot = c.slot ∧
    (s.calls t).ticket = some c.ticket ∧ (s.calls t).request.hiprio = c.hiprio ∧
    (s.calls t).request.outSize = c.outSize ∧ (s.calls t).request.outDataSize = c.outDataSize
  pending_nodup : (s.pending.map (·.slot)).Nodup
  ring : ∀ q, ∀ x ∈ s.ring q, place x.1 = .ring q x.2
  ring_nodup : ∀ q, ((s.ring q).map Prod.fst).Nodup
  taken : ∀ x i used, s.handlers x = .taken i used → place i = .taken x used
  measured : ∀ x i, s.handlers x = .measured i → place i = .measured x
  returned : ∀ c ∈ s.returned, Served s.completions c

end

theorem Served.mono {D D' : List Completion} {c : Call} (hD : ∀ d ∈ D, d ∈ D') (h : Served D c) : Served D' c := by
  intro k hk hs
  obtain ⟨d, hd, hdk, hr⟩ := h k hk hs
  exact ⟨d, hD d hd, hdk, hr⟩

theorem Answered.mono {D D' : List Completion} {c : Call} {m : Slot} {used : Nat} (hD : ∀ d ∈ D, d ∈ D')
    (h : Answered D c m used) : Answered D' c m used := by
  obtain ⟨d, hd, hrest⟩ := h
  exact ⟨d, hD d hd, hrest⟩

variable {T I : Type}

theorem Carried.mono {D D' : List Completion} {m : Slot} {c : Call} (hD : ∀ d ∈ D, d ∈ D') :
    ∀ {p : Place T I}, Carried D m c p → Carried D' m c p
  | .nowhere, h => ⟨h.1, h.2.mono hD⟩
  | .device, h => h
  | .ring _ _, h => ⟨h.1, h.2.mono hD⟩
  | .taken _ _, h => ⟨h.1, h.2.mono hD⟩
  | .measured _, h => ⟨h.1, h.2.mono hD⟩

theorem Carried.congr {D : List Completion} {m : Slot} {c c' : Call} (hr : c'.request = c.request)
    (ht : c'.ticket = c.ticket) : ∀ {p : Place T I}, Carried D m c p → Carried D m c' p := by
  intro p h
  cases p <;> simpa only [Carried, Answered, hr, ht] using h

theorem Fit.mono {D D' : List Completion} {m : Slot} {p : Place T I} {c : Call} (hD : ∀ d ∈ D, d ∈ D')
    (h : Fit D m p c) : Fit D' m p c :=
  { h with
    sent := fun hs => (h.sent hs).mono hD
    served := fun hs => (h.served hs).mono hD }

theorem Phase.not_sent_of_not_owns {p : Phase} (h : p.owns = false) : p.sent = false := by
  cases hs : p.sent with
  | false => rfl
  | true => rw [Phase.owns_of_sent hs] at h; exact h

theorem Fit.elsewhere {D : List Completion} {m m' : Slot} {p p' : Place T I} {c : Call} (ho : c.phase.owns = false)
    (h : Fit D m p c) : Fit D m' p' c where
  unsent := fun h' => by rw [ho] at h'; exact nomatch h'
  sent := fun hs => by rw [Phase.not_sent_of_not_owns ho] at hs; exact nomatch hs
  allowed := h.allowed
  zero := fun hs => by rcases hs with hs | hs | hs <;> (rw [hs] at ho; exact nomatch ho)
  unset := fun hs => by rcases hs with hs | hs <;> (rw [hs] at ho; exact nomatch ho)
  told := fun hs => by rw [Phase.owns_of_waits hs] at ho; exact nomatch ho
  done := fun hs => by rw [hs] at ho; exact nomatch ho
  new := h.new
  served := h.served

theorem Fit.idle (D : List Completion) (m : Slot) (p : Place T I) : Fit D m p {} where
  unsent := fun h => nomatch h
  sent := fun h => nomatch h
  allowed := fun h => absurd rfl h
  zero := fun h => by rcases h with h | h | h <;> exact nomatch h
  unset := fun h => by rcases h with h | h <;> exact nomatch h
  told := fun h => nomatch h
  done := fun h => nomatch h
  new := fun _ _ _ => rfl
  served := fun h => by rcases h with h | h <;> exact nomatch h

theorem Fit.goOn {D : List Completion} {m : Slot} {p : Place T I} {c : Call} (h : Fit D m p c)
    (hs : c.phase.sent = true) {q : Phase} {e : Entry} (hq : q.sent = true)
    (told : q.waits = true → e = .notified → m.completed = true) (done : q = .finishing → m.completed = true) :
    Fit D m p { c with phase := q, entry := e } where
  unsent := fun _ hn => by rw [show q.sent = false from hn] at hq; exact nomatch hq
  sent := fun _ => (h.sent hs).congr rfl rfl
  allowed := fun _ => h.allowed fun hi => by rw [hi] at hs; exact nomatch hs
  zero := fun hp => by rcases hp with hp | hp | hp <;> (rw [show q = _ from hp] at hq; exact nomatch hq)
  unset := fun hp => by rcases hp with hp | hp <;> (rw [show q = _ from hp] at hq; exact nomatch hq)
  told := told
  done := done
  new := fun hn => by rw [show q.sent = false from hn] at hq; exact nomatch hq
  served := fun hp => by rcases hp with hp | hp <;> (rw [show q = _ from hp] at hq; exact nomatch hq)

/-! ## Replies -/

theorem outSize_of_refused {r : Request} (h : r.refused = none) (hr : r.hiprio = false) : prefixSize ≤ r.outSize := by
  unfold Request.refused at h
  split at h
  · exact nomatch h
  split at h
  · exact nomatch h
  · next hn =>
    simp only [not_or, not_and, Nat.not_lt] at hn
    exact (hn.2.2.2.2.2 hr).1

theorem reply_answer {m : Slot} {r : Request} (hz : Zero m r) (hr : r.refused = none) {written : List UInt8}
    {used ticket : Nat} (hroom : r.hiprio = false → written.length ≤ r.outSize + r.outDataSize)
    (hlen : written.length ≤ used) : Answer (m.reply r.outSize written) r ⟨ticket, written, used⟩ where
  bytes := fun k b hk => by
    have hk : written[k]? = some b := hk
    split
    · next ho =>
      show (if k < r.outSize then overlaid written 0 m.out k else m.out k) = b
      rw [if_pos ho, overlaid, Nat.zero_add, hk]
      rfl
    rename_i ho
    show overlaid written r.outSize m.data (k - r.outSize) = b
    rw [overlaid, show r.outSize + (k - r.outSize) = k by omega, hk]
    rfl
  header := fun hh k hk => by
    have hout := outSize_of_refused hr hh
    show (if k < r.outSize then overlaid written 0 m.out k else m.out k) = _
    rw [if_pos (by omega)]
    simp only [overlaid, padded, hz hh k hk]
  room := hroom
  length := hlen

theorem word32_congr {f g : Nat → UInt8} {k : Nat} (h : ∀ i < prefixSize, f i = g i) (hk : k + 4 ≤ prefixSize) :
    word32 f k = word32 g k := by
  unfold word32
  rw [h k (by omega), h (k + 1) (by omega), h (k + 2) (by omega), h (k + 3) (by omega)]

@[simp] theorem read_ticket (c : Call) (m : Slot) (copied : Bool) : (c.read m copied).ticket = c.ticket := by
  unfold Call.read
  split_ifs <;> rfl

@[simp] theorem read_request (c : Call) (m : Slot) (copied : Bool) : (c.read m copied).request = c.request := by
  unfold Call.read
  split_ifs <;> rfl

@[simp] theorem read_unique (c : Call) (m : Slot) (copied : Bool) : (c.read m copied).unique = c.unique := by
  unfold Call.read
  split_ifs <;> rfl

@[simp] theorem read_slot (c : Call) (m : Slot) (copied : Bool) : (c.read m copied).slot = c.slot := by
  unfold Call.read
  split_ifs <;> rfl

theorem read_ok {c : Call} {m : Slot} {copied : Bool} (hh : c.request.hiprio = false)
    (hok : (c.read m copied).status = .ok) :
    word64 m.out 8 = c.unique ∧
    (c.read m copied).out =
      (List.range c.request.outSize).map (fun k => if k < min (Call.used m) c.request.outSize then m.out k else 0) ∧
    (c.request.outSize < Call.used m → 0 < c.request.outDataSize → (c.read m copied).data =
      (List.range (min (Call.used m - c.request.outSize) c.request.outDataSize)).map m.data) := by
  unfold Call.read at hok ⊢
  rw [hh, if_neg Bool.false_ne_true] at hok ⊢
  by_cases hbad : m.usedLength < prefixSize ∨ word64 m.out 8 ≠ c.unique
  · rw [if_pos hbad] at hok
    exact nomatch hok
  rw [if_neg hbad] at hok ⊢
  rw [not_or, not_not] at hbad
  refine ⟨hbad.2, rfl, fun h1 h2 => ?_⟩
  cases copied with
  | true => simp only [h1, h2, and_self, if_true]
  | false =>
    simp only [h1, h2, and_self, if_true] at hok
    exact nomatch hok

theorem getElem?_map_range {f : Nat → UInt8} {n k : Nat} {b : UInt8} (hk : k < n) (hb : f k = b) :
    ((List.range n).map f)[k]? = some b := by
  rw [List.getElem?_map, List.getElem?_range hk, Option.map_some, hb]

/-- **A call that has been answered reads its answer.** -/
theorem read_served {D : List Completion} {m : Slot} {c : Call} (ha : Answered D c m m.usedLength)
    (copied : Bool) : Served D { c.read m copied with phase := .clearing } := by
  intro k hk hok
  obtain ⟨d, hd, hdk, hdu, ha⟩ := ha
  have hdk' : d.ticket = k := Option.some.inj (hdk.symm.trans ((read_ticket c m copied).symm.trans hk))
  refine ⟨d, hd, hdk', fun hh => ?_⟩
  have hh : c.request.hiprio = false := read_request c m copied ▸ hh
  obtain ⟨hunique, hout, hdata⟩ := read_ok hh hok
  have hword : word32 m.out 0 = word32 (padded d.written) 0 := word32_congr (ha.header hh) (by decide)
  have hlen := ha.length
  have hroom := ha.room hh
  -- a byte that was written, and that the reply's length takes in, is among those read
  have hused {i : Nat} {b : UInt8} (hi : d.written[i]? = some b) (hil : i < word32 (padded d.written) 0) :
      i < Call.used m ∧ i < c.request.outSize + c.request.outDataSize := by
    have hiw := (List.getElem?_eq_some_iff.1 hi).1
    refine ⟨?_, by omega⟩
    unfold Call.used
    split
    · rw [hword]
      exact hil
    · omega
  refine ⟨?_, fun i b hi hil hio => ?_, fun i b hi hil hio => ?_⟩
  · show _ = (c.read m copied).unique
    rw [read_unique, ← hunique]
    unfold word64
    rw [word32_congr (ha.header hh) (by decide), word32_congr (ha.header hh) (by decide)]
  · have hio : i < c.request.outSize := read_request c m copied ▸ hio
    have hb := ha.bytes i b hi
    rw [if_pos hio] at hb
    show (c.read m copied).out[i]? = some b
    rw [hout]
    exact getElem?_map_range hio (by rw [if_pos (lt_min (hused hi hil).1 hio), hb])
  · have hio : c.request.outSize ≤ i := read_request c m copied ▸ hio
    have hb := ha.bytes i b hi
    rw [if_neg (by omega)] at hb
    show (c.read m copied).data[i - (c.read m copied).request.outSize]? = some b
    have hlt := hused hi hil
    rw [read_request, hdata (by omega) (by omega)]
    exact getElem?_map_range (by omega) hb

/-! ## Calls -/

theorem Placed.other {place : Fin slotCount → Place T I} {s : State T I} (h : Placed place s) {t : T}
    (ht : (s.calls t).phase.owns = true) {t' : T} (hne : t' ≠ t) (ho : (s.calls t').phase.owns = true) :
    (s.calls t').slot ≠ (s.calls t).slot :=
  fun he => hne (h.alone t' t ho ht he)

variable [DecidableEq T]

namespace State

theorem setCall_calls (s : State T I) (t : T) (c : Call) (t' : T) :
    (s.setCall t c).calls t' = if t' = t then c else s.calls t' := Function.update_apply ..

end State

namespace Placed

variable {place : Fin slotCount → Place T I} {s : State T I} {t : T} {c : Call}

/-- **A call changes**, in a slot nobody else has, and takes its request along if that is anywhere. -/
theorem setCall (h : Placed place s) (hbusy : c.phase.owns = true → s.slotBusy c.slot = true)
    (hfree : c.phase.owns = true → ∀ u ≠ t, (s.calls u).phase.owns = true → (s.calls u).slot ≠ c.slot)
    (hsent : (s.calls t).phase.sent = true → place (s.calls t).slot = .nowhere ∨
      (c.phase.sent = true ∧ c.slot = (s.calls t).slot ∧ c.request = (s.calls t).request ∧ c.ticket = (s.calls t).ticket))
    (hfit : Fit s.completions (s.slots c.slot) (place c.slot) c) : Placed place (s.setCall t c) where
  busy := fun u hu => by
    rw [State.setCall_calls] at hu ⊢
    split at hu
    · next hut =>
      rw [if_pos hut]
      exact hbusy hu
    · next hut =>
      rw [if_neg hut]
      exact h.busy u hu
  alone := fun u u' hu hu' he => by
    rw [State.setCall_calls] at hu hu' he
    rw [State.setCall_calls s t c u'] at he
    by_cases h1 : u = t <;> by_cases h2 : u' = t
    · rw [h1, h2]
    · rw [if_pos h1] at hu he
      rw [if_neg h2] at hu' he
      exact absurd he.symm (hfree hu u' h2 hu')
    · rw [if_neg h1] at hu he
      rw [if_pos h2] at hu' he
      exact absurd he (hfree hu' u h1 hu)
    · rw [if_neg h1] at hu he
      rw [if_neg h2] at hu' he
      exact h.alone u u' hu hu' he
  fit := fun u => by
    rw [State.setCall_calls]
    split
    · exact hfit
    · exact h.fit u
  carried := fun i hi => by
    obtain ⟨u, hu, hui⟩ := h.carried i hi
    refine ⟨u, ?_⟩
    rw [State.setCall_calls]
    split
    · next hut =>
      rw [hut] at hu hui
      rcases hsent hu with hn | ⟨hc, hs, -, -⟩
      · exact absurd (hui ▸ hn) hi
      · exact ⟨hc, hs.trans hui⟩
    · exact ⟨hu, hui⟩
  pending := fun d hd => by
    obtain ⟨hp, u, hu, hui, hrest⟩ := h.pending d hd
    refine ⟨hp, u, ?_⟩
    rw [State.setCall_calls]
    split
    · next hut =>
      rw [hut] at hu hui hrest
      rcases hsent hu with hn | ⟨hc, hs, hr, ht⟩
      · rw [hui, hp] at hn
        exact nomatch hn
      · rw [hr, ht]
        exact ⟨hc, hs.trans hui, hrest⟩
    · exact ⟨hu, hui, hrest⟩
  pending_nodup := h.pending_nodup
  ring := h.ring
  ring_nodup := h.ring_nodup
  taken := h.taken
  measured := h.measured
  returned := h.returned

theorem keepSlot (h : Placed place s) (ho : (s.calls t).phase.owns = true) (hslot : c.slot = (s.calls t).slot)
    (hsent : (s.calls t).phase.sent = true → place (s.calls t).slot = .nowhere ∨
      (c.phase.sent = true ∧ c.request = (s.calls t).request ∧ c.ticket = (s.calls t).ticket))
    (hfit : Fit s.completions (s.slots (s.calls t).slot) (place (s.calls t).slot) c) : Placed place (s.setCall t c) :=
  h.setCall (fun _ => hslot ▸ h.busy t ho) (fun _ _ hne hu => hslot ▸ h.other ho hne hu)
    (fun hs => (hsent hs).imp_right fun hc => ⟨hc.1, hslot, hc.2⟩) (hslot ▸ hfit)

theorem noSlot (h : Placed place s) (hs : (s.calls t).phase.sent = false) (ho : c.phase.owns = false)
    (hfit : Fit s.completions (s.slots c.slot) (place c.slot) c) : Placed place (s.setCall t c) :=
  h.setCall (fun h' => by rw [ho] at h'; exact nomatch h') (fun h' => by rw [ho] at h'; exact nomatch h')
    (fun h' => by rw [hs] at h'; exact nomatch h') hfit

omit [DecidableEq T] in
theorem counts (h : Placed place s) (slotsFree nextUnique tickets : Nat) :
    Placed place { s with slotsFree, nextUnique, tickets } :=
  ⟨h.busy, h.alone, h.fit, h.carried, h.pending, h.pending_nodup, h.ring, h.ring_nodup, h.taken, h.measured, h.returned⟩

omit [DecidableEq T] in
theorem setBusy (h : Placed place s) (i : Fin slotCount) (b : Bool)
    (hb : ∀ u, (s.calls u).phase.owns = true → (s.calls u).slot = i → b = true) :
    Placed place { s with slotBusy := Function.update s.slotBusy i b } where
  busy := fun u hu => by
    show Function.update s.slotBusy i b _ = true
    rw [Function.update_apply]
    split
    · next hi => exact hb u hu hi
    · exact h.busy u hu
  alone := h.alone
  fit := h.fit
  carried := h.carried
  pending := h.pending
  pending_nodup := h.pending_nodup
  ring := h.ring
  ring_nodup := h.ring_nodup
  taken := h.taken
  measured := h.measured
  returned := h.returned

theorem leave (h : Placed place s) (hs : (s.calls t).phase.sent = false) (hc : Served s.completions c) :
    Placed place (s.leave t c) :=
  have h' := h.noSlot (c := {}) hs rfl (Fit.idle _ _ _)
  ⟨h'.busy, h'.alone, h'.fit, h'.carried, h'.pending, h'.pending_nodup, h'.ring, h'.ring_nodup, h'.taken, h'.measured,
    fun d hd => by
      rcases List.mem_cons.1 hd with rfl | hd
      · exact hc
      · exact h.returned d hd⟩

omit [DecidableEq T] in
theorem setSlot (h : Placed place s) (ho : (s.calls t).phase.owns = true) {m : Slot}
    (hfit : Fit s.completions m (place (s.calls t).slot) (s.calls t)) : Placed place (s.setSlot (s.calls t).slot m) where
  busy := h.busy
  alone := h.alone
  fit := fun u => by
    show Fit s.completions (Function.update s.slots (s.calls t).slot m (s.calls u).slot) _ _
    rw [Function.update_apply]
    split
    · next hi =>
      cases hu : (s.calls u).phase.owns with
      | false => exact (h.fit u).elsewhere hu
      | true =>
        rw [h.alone u t hu ho hi]
        exact hfit
    · exact h.fit u
  carried := h.carried
  pending := h.pending
  pending_nodup := h.pending_nodup
  ring := h.ring
  ring_nodup := h.ring_nodup
  taken := h.taken
  measured := h.measured
  returned := h.returned

/-- **A request moves** to another place, with whatever that does to its slot and its call. -/
theorem move (h : Placed place s) {s' : State T I} {m : Slot} {p : Place T I} (ho : (s.calls t).phase.owns = true)
    (hc : c.phase.sent = true) (hslot : c.slot = (s.calls t).slot) (hcalls : s'.calls = Function.update s.calls t c)
    (hbusy : s'.slotBusy = s.slotBusy) (hslots : s'.slots = Function.update s.slots c.slot m)
    (hD : ∀ d ∈ s.completions, d ∈ s'.completions) (hret : s'.returned = s.returned) (hfit : Fit s'.completions m p c)
    (hpend : ∀ d ∈ s'.pending, d ∈ s.pending ∧ d.slot ≠ c.slot ∨ p = .device ∧ d.slot = c.slot ∧
      c.ticket = some d.ticket ∧ c.request.hiprio = d.hiprio ∧ c.request.outSize = d.outSize ∧
      c.request.outDataSize = d.outDataSize)
    (hpn : (s'.pending.map (·.slot)).Nodup)
    (hring : ∀ q, ∀ x ∈ s'.ring q, x ∈ s.ring q ∧ x.1 ≠ c.slot ∨ p = .ring q x.2 ∧ x.1 = c.slot)
    (hrn : ∀ q, ((s'.ring q).map Prod.fst).Nodup)
    (htaken : ∀ x i used, s'.handlers x = .taken i used →
      s.handlers x = .taken i used ∧ i ≠ c.slot ∨ p = .taken x used ∧ i = c.slot)
    (hmeasured : ∀ x i, s'.handlers x = .measured i → s.handlers x = .measured i ∧ i ≠ c.slot ∨ p = .measured x ∧ i = c.slot) :
    Placed (Function.update place c.slot p) s' := by
  have hcall (u : T) : s'.calls u = if u = t then c else s.calls u := by rw [hcalls, Function.update_apply]
  have howns : c.phase.owns = true := Phase.owns_of_sent hc
  refine ⟨fun u hu => ?_, fun u u' hu hu' he => ?_, fun u => ?_, fun i hi => ?_, fun d hd => ?_, hpn, fun q x hx => ?_, hrn,
    fun x i used hx => ?_, fun x i hx => ?_, fun d hd => ?_⟩
  · rw [hbusy]
    rw [hcall] at hu ⊢
    split
    · rw [hslot]
      exact h.busy t ho
    · next hut =>
      rw [if_neg hut] at hu
      exact h.busy u hu
  · rw [hcall] at hu hu' he
    rw [hcall u'] at he
    by_cases h1 : u = t <;> by_cases h2 : u' = t
    · rw [h1, h2]
    · rw [if_pos h1, if_neg h2] at he
      rw [if_neg h2] at hu'
      exact absurd (he.symm.trans hslot) (h.other ho h2 hu')
    · rw [if_neg h1, if_pos h2] at he
      rw [if_neg h1] at hu
      exact absurd (he.trans hslot) (h.other ho h1 hu)
    · rw [if_neg h1, if_neg h2] at he
      rw [if_neg h1] at hu
      rw [if_neg h2] at hu'
      exact h.alone u u' hu hu' he
  · rw [hcall, hslots]
    split
    · rw [Function.update_self, Function.update_self]
      exact hfit
    rename_i hut
    by_cases hi : (s.calls u).slot = c.slot
    · have hu : (s.calls u).phase.owns = false := by
        cases hu : (s.calls u).phase.owns with
        | false => rfl
        | true => exact absurd (hi.trans hslot) (h.other ho hut hu)
      exact ((h.fit u).mono hD).elsewhere hu
    · rw [Function.update_of_ne hi, Function.update_of_ne hi]
      exact (h.fit u).mono hD
  · by_cases hic : i = c.slot
    · exact ⟨t, by rw [hcall, if_pos rfl]; exact hc, by rw [hcall, if_pos rfl, hic]⟩
    rw [Function.update_of_ne hic] at hi
    obtain ⟨u, hu, hui⟩ := h.carried i hi
    have hut : u ≠ t := fun he => hic (by rw [← hui, he, hslot])
    exact ⟨u, by rw [hcall, if_neg hut]; exact hu, by rw [hcall, if_neg hut]; exact hui⟩
  · rcases hpend d hd with ⟨hd, hne⟩ | ⟨hp, hdc, hrest⟩
    · rw [Function.update_of_ne hne]
      obtain ⟨hp, u, hu, hui, hrest⟩ := h.pending d hd
      have hut : u ≠ t := fun he => hne (by rw [← hui, he, hslot])
      refine ⟨hp, u, ?_⟩
      rw [hcall, if_neg hut]
      exact ⟨hu, hui, hrest⟩
    · refine ⟨by rw [hdc, Function.update_self, hp], t, ?_⟩
      rw [hcall, if_pos rfl]
      exact ⟨hc, hdc.symm, hrest⟩
  · rcases hring q x hx with ⟨hx, hne⟩ | ⟨hp, hxc⟩
    · rw [Function.update_of_ne hne]
      exact h.ring q x hx
    · rw [hxc, Function.update_self, hp]
  · rcases htaken x i used hx with ⟨hx, hne⟩ | ⟨hp, hic⟩
    · rw [Function.update_of_ne hne]
      exact h.taken x i used hx
    · rw [hic, Function.update_self, hp]
  · rcases hmeasured x i hx with ⟨hx, hne⟩ | ⟨hp, hic⟩
    · rw [Function.update_of_ne hne]
      exact h.measured x i hx
    · rw [hic, Function.update_self, hp]
  · rw [hret] at hd
    exact (h.returned d hd).mono hD

end Placed
end VirtioFs
end Prose
