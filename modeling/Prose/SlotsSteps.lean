import Mathlib.Data.Fintype.Defs
import Mathlib.Data.List.Perm.Basic
import Prose.SlotsSound
/-!
# SlotsSteps — every step keeps the requests in their places

One lemma a step.  A call that is not in the loop has its slot to itself; in the loop it has what its request's place tells.
Only `notify` has a condition.
-/
namespace Prose
namespace VirtioFs

open List

variable {T I : Type}

/-! ## What a call may take for granted, step by step -/

theorem Phase.added_of_waits : ∀ {p : Phase}, p.waits = true → p.sent = false → p = .added
  | .added, _, _ => rfl

theorem Fit.early {D : List Completion} {m : Slot} {p : Place T I} {c : Call} (hs : c.phase.sent = false)
    (hp : c.phase.owns = true → p = .nowhere) (ha : c.request.refused = none)
    (hz : c.phase = .stamped ∨ c.phase = .armed ∨ c.phase = .added → Zero m c.request)
    (hu : c.phase = .armed ∨ c.phase = .added → m.completed = false) (he : c.phase = .added → c.entry ≠ .notified)
    (hn : c.ticket = none) : Fit D m p c where
  unsent := fun ho _ => hp ho
  sent := fun h => by rw [hs] at h; exact nomatch h
  allowed := fun _ => ha
  zero := hz
  unset := hu
  told := fun hw ht => absurd ht (he (Phase.added_of_waits hw hs))
  done := fun hd => by rw [hd] at hs; exact nomatch hs
  new := fun _ _ _ => hn
  served := fun _ k hk => by rw [hn] at hk; exact nomatch hk

theorem Fit.late {D : List Completion} {m : Slot} {p : Place T I} {c : Call} (hc : c.phase = .clearing ∨ c.phase = .releasing)
    (hp : c.phase.owns = true → p = .nowhere) (ha : c.request.refused = none) (hd : Served D c) : Fit D m p c where
  unsent := fun ho _ => hp ho
  sent := fun h => by rcases hc with hc | hc <;> (rw [hc] at h; exact nomatch h)
  allowed := fun _ => ha
  zero := fun h => by rcases hc with hc | hc <;> (rw [hc] at h; rcases h with h | h | h <;> exact nomatch h)
  unset := fun h => by rcases hc with hc | hc <;> (rw [hc] at h; rcases h with h | h <;> exact nomatch h)
  told := fun h => by rcases hc with hc | hc <;> (rw [hc] at h; exact nomatch h)
  done := fun h => by rcases hc with hc | hc <;> (rw [hc] at h; exact nomatch h)
  new := fun _ h1 h2 => by
    rcases hc with hc | hc
    · exact absurd hc h1
    · exact absurd hc h2
  served := fun _ => hd

theorem Fit.moved {D D' : List Completion} {m m' : Slot} {p p' : Place T I} {c : Call} (h : Fit D m p c)
    (hs : c.phase.sent = true) (hc : Carried D' m' c p') (hm : m.completed = false ∨ m'.completed = true) :
    Fit D' m' p' c where
  unsent := fun _ hn => by rw [hn] at hs; exact nomatch hs
  sent := fun _ => hc
  allowed := h.allowed
  zero := fun hp => by rcases hp with hp | hp | hp <;> (rw [hp] at hs; exact nomatch hs)
  unset := fun hp => by rcases hp with hp | hp <;> (rw [hp] at hs; exact nomatch hs)
  told := fun hw he => hm.resolve_left (by rw [h.told hw he]; exact nofun)
  done := fun hd => hm.resolve_left (by rw [h.done hd]; exact nofun)
  new := fun hn => by rw [hn] at hs; exact nomatch hs
  served := fun hp => by rcases hp with hp | hp <;> (rw [hp] at hs; exact nomatch hs)

theorem Served.rest {D : List Completion} {c : Call} (h : Served D c) (q : Phase) (e : Entry) :
    Served D { c with phase := q, entry := e } := by
  intro k hk hs
  obtain ⟨d, hd, hdk, hr⟩ := h k hk hs
  exact ⟨d, hd, hdk, fun hh => ⟨(hr hh).unique, (hr hh).out, (hr hh).data⟩⟩

theorem Fit.entry {D : List Completion} {m : Slot} {p : Place T I} {c : Call} (h : Fit D m p c) {e : Entry}
    (he : c.phase.waits = true → e = .notified → m.completed = true) : Fit D m p { c with entry := e } where
  unsent := h.unsent
  sent := fun hs => (h.sent hs).congr rfl rfl
  allowed := h.allowed
  zero := h.zero
  unset := h.unset
  told := he
  done := h.done
  new := h.new
  served := fun hp => (h.served hp).rest c.phase e

theorem Carried.nowhere {D : List Completion} {m : Slot} {c : Call} {p : Place T I} (h : Carried D m c p)
    (hm : m.completed = true) : p = .nowhere ∧ Answered D c m m.usedLength := by
  cases p with
  | nowhere => exact ⟨rfl, h.2⟩
  | _ => rw [h.1] at hm; exact nomatch hm

namespace Placed

variable {place : Fin slotCount → Place T I} {s s' : State T I} {t : T} {i : Fin slotCount}

theorem pending_ne (h : Placed place s) (hp : place i ≠ .device) {d : Chain} (hd : d ∈ s.pending) : d.slot ≠ i :=
  fun he => hp (he ▸ (h.pending d hd).1)

theorem ring_ne (h : Placed place s) {q : Bool} {x : Fin slotCount × Nat} (hp : place i ≠ .ring q x.2)
    (hx : x ∈ s.ring q) : x.1 ≠ i :=
  fun he => hp (he ▸ h.ring q x hx)

theorem taken_ne (h : Placed place s) {x : T ⊕ I} {used : Nat} {j : Fin slotCount} (hp : place i ≠ .taken x used)
    (hx : s.handlers x = .taken j used) : j ≠ i :=
  fun he => hp (he ▸ h.taken x j used hx)

theorem measured_ne (h : Placed place s) {x : T ⊕ I} {j : Fin slotCount} (hp : place i ≠ .measured x)
    (hx : s.handlers x = .measured j) : j ≠ i :=
  fun he => hp (he ▸ h.measured x j hx)

theorem owner (h : Placed place s) {p : Place T I} (hp : place i = p) (hn : p ≠ .nowhere) :
    ∃ t, (s.calls t).phase.sent = true ∧ (s.calls t).slot = i ∧ Carried s.completions (s.slots i) (s.calls t) p := by
  obtain ⟨t, ht, hti⟩ := h.carried i (hp ▸ hn)
  refine ⟨t, ht, hti, ?_⟩
  have hc := (h.fit t).sent ht
  rw [hti, hp] at hc
  exact hc

theorem nowhere_of_free (h : Placed place s) (hi : s.slotBusy i = false) :
    place i = .nowhere ∧ ∀ u, (s.calls u).phase.owns = true → (s.calls u).slot ≠ i := by
  have hfree : ∀ u, (s.calls u).phase.owns = true → (s.calls u).slot ≠ i := fun u hu he => by
    have := h.busy u hu
    rw [he, hi] at this
    exact nomatch this
  refine ⟨?_, hfree⟩
  by_contra hn
  obtain ⟨u, hu, hui⟩ := h.carried i hn
  exact hfree u (Phase.owns_of_sent hu) hui

theorem before (h : Placed place s) {p : Phase} (hp : (s.calls t).phase = p) (ho : p.owns = true) (hs : p.sent = false)
    (hc : p ≠ .clearing) : (s.calls t).phase.owns = true ∧ (s.calls t).phase.sent = false ∧
      (s.calls t).request.refused = none ∧ (s.calls t).ticket = none ∧ place (s.calls t).slot = .nowhere := by
  have hf := h.fit t
  rw [← hp] at ho hs hc
  have hne {q : Phase} (hq : q.owns = false) : (s.calls t).phase ≠ q := fun he => by
    rw [he, hq] at ho
    exact nomatch ho
  exact ⟨ho, hs, hf.allowed (hne rfl), hf.new hs hc (hne rfl), hf.unsent ho hs⟩

variable [DecidableEq T]

/-! ## The calls' own steps -/

theorem begin (h : Placed place s) (request : Request) (hp : (s.calls t).phase = .idle) :
    Placed place (s.begin t request) := by
  have hs : (s.calls t).phase.sent = false := by rw [hp]; rfl
  unfold State.begin
  split
  · exact h.leave hs fun k hk => nomatch hk
  · next hr =>
    exact h.noSlot hs rfl (Fit.early rfl (fun ho => nomatch ho) hr (fun hc => by rcases hc with hc | hc | hc <;> exact nomatch hc)
      (fun hc => by rcases hc with hc | hc <;> exact nomatch hc) (fun hc => nomatch hc) rfl)

theorem acquire (h : Placed place s) (hp : (s.calls t).phase = .checked) :
    Placed place (s.setCall t { s.calls t with phase := .acquired }) := by
  have hs : (s.calls t).phase.sent = false := by rw [hp]; rfl
  have hf := h.fit t
  exact h.noSlot hs rfl (Fit.early rfl (fun ho => nomatch ho) (hf.allowed (by rw [hp]; exact nofun))
    (fun hc => by rcases hc with hc | hc | hc <;> exact nomatch hc)
    (fun hc => by rcases hc with hc | hc <;> exact nomatch hc) (fun hc => nomatch hc)
    (hf.new hs (by rw [hp]; exact nofun) (by rw [hp]; exact nofun)))

theorem pick (h : Placed place s) (hp : (s.calls t).phase = .acquired) (hs : s.pick t = some s') : Placed place s' := by
  obtain ⟨i, hi, rfl⟩ := Option.map_eq_some_iff.1 hs
  have hi : s.slotBusy i = false := by simpa using find?_some hi
  obtain ⟨hn, hfree⟩ := h.nowhere_of_free hi
  have hns : (s.calls t).phase.sent = false := by rw [hp]; rfl
  have hf := h.fit t
  have hset := h.setBusy i true fun _ _ _ => rfl
  exact hset.setCall (t := t) (c := { s.calls t with phase := .picked, slot := i })
    (fun _ => Function.update_self ..) (fun _ u _ hu => hfree u hu)
    (fun hs' => by rw [show (s.calls t).phase.sent = true from hs'] at hns; exact nomatch hns)
    (Fit.early rfl (fun _ => hn) (hf.allowed (by rw [hp]; exact nofun))
      (fun hc => by rcases hc with hc | hc | hc <;> exact nomatch hc)
      (fun hc => by rcases hc with hc | hc <;> exact nomatch hc) (fun hc => nomatch hc)
      (hf.new hns (by rw [hp]; exact nofun) (by rw [hp]; exact nofun)))

theorem copyIn (h : Placed place s) (inData : List UInt8) (ok : Bool) (hp : (s.calls t).phase = .picked) :
    Placed place (s.copyIn t inData ok) := by
  obtain ⟨ho, hs, hr, hn, hmine⟩ := h.before hp rfl rfl nofun
  unfold State.copyIn
  have hset := h.setSlot ho (m := { s.slots (s.calls t).slot with
      data := overlaid (inData.take (s.calls t).request.inDataSize) 0 (s.slots (s.calls t).slot).data })
    (Fit.early hs (fun _ => hmine) hr (fun hc => by rw [hp] at hc; rcases hc with hc | hc | hc <;> exact nomatch hc)
      (fun hc => by rw [hp] at hc; rcases hc with hc | hc <;> exact nomatch hc) (fun hc => by rw [hp] at hc; exact nomatch hc) hn)
  have hgo (c : Call) (hslot : c.slot = (s.calls t).slot) (hcs : c.phase = .copied ∨ c.phase = .clearing)
      (hcr : c.request = (s.calls t).request) (hct : c.ticket = (s.calls t).ticket) :=
    hset.keepSlot (c := c) ho hslot (fun hs' => by rw [show (s.calls t).phase.sent = true from hs'] at hs; exact nomatch hs)
      (Fit.early (by rcases hcs with hc | hc <;> (rw [hc]; rfl)) (fun _ => hmine) (hcr ▸ hr)
        (fun hc => by rcases hcs with h' | h' <;> (rw [h'] at hc; rcases hc with hc | hc | hc <;> exact nomatch hc))
        (fun hc => by rcases hcs with h' | h' <;> (rw [h'] at hc; rcases hc with hc | hc <;> exact nomatch hc))
        (fun hc => by rcases hcs with h' | h' <;> (rw [h'] at hc; exact nomatch hc)) (hct.trans hn))
  split
  · exact hgo _ rfl (.inl rfl) rfl rfl
  · exact hgo _ rfl (.inr rfl) rfl rfl

theorem zero_stamp (m : Slot) (r : Request) (unique : Nat) : Zero (m.stamp r unique) r :=
  fun hh _ hk => if_pos ⟨hh, hk⟩

theorem stamp (h : Placed place s) (hp : (s.calls t).phase = .copied) : Placed place (s.stamp t) := by
  obtain ⟨ho, hs, hr, hn, hmine⟩ := h.before hp rfl rfl nofun
  have hset := h.setSlot ho (m := (s.slots (s.calls t).slot).stamp (s.calls t).request s.nextUnique)
    (Fit.early hs (fun _ => hmine) hr (fun _ => zero_stamp _ _ _)
      (fun hc => by rw [hp] at hc; rcases hc with hc | hc <;> exact nomatch hc) (fun hc => by rw [hp] at hc; exact nomatch hc) hn)
  have hgo := hset.keepSlot (c := { s.calls t with phase := .stamped, unique := s.nextUnique }) ho rfl
    (fun hs' => by rw [show (s.calls t).phase.sent = true from hs'] at hs; exact nomatch hs)
    (Fit.early rfl (fun _ => hmine) hr (fun _ => by
        show Zero (Function.update s.slots (s.calls t).slot _ (s.calls t).slot) _
        rw [Function.update_self]
        exact zero_stamp _ _ _)
      (fun hc => by rcases hc with hc | hc <;> exact nomatch hc) (fun hc => nomatch hc) hn)
  exact hgo.counts s.slotsFree ((s.nextUnique + 2) % 2 ^ 64) s.tickets

theorem arm (h : Placed place s) (hp : (s.calls t).phase = .stamped) : Placed place (s.arm t) := by
  obtain ⟨ho, hs, hr, hn, hmine⟩ := h.before hp rfl rfl nofun
  have hzero := (h.fit t).zero (.inl hp)
  have hset := h.setSlot ho (m := { s.slots (s.calls t).slot with completed := false })
    (Fit.early hs (fun _ => hmine) hr (fun _ => hzero) (fun _ => rfl) (fun hc => by rw [hp] at hc; exact nomatch hc) hn)
  refine hset.keepSlot (c := { s.calls t with phase := .armed }) ho rfl
    (fun hs' => by rw [show (s.calls t).phase.sent = true from hs'] at hs; exact nomatch hs) ?_
  show Fit _ (Function.update s.slots (s.calls t).slot _ (s.calls t).slot) _ _
  rw [Function.update_self]
  exact Fit.early rfl (fun _ => hmine) hr (fun _ => hzero) (fun _ => rfl) (fun hc => nomatch hc) hn

theorem add (h : Placed place s) (hp : (s.calls t).phase = .armed) :
    Placed place (s.setCall t { s.calls t with phase := .added, entry := .on }) := by
  obtain ⟨ho, hs, hr, hn, hmine⟩ := h.before hp rfl rfl nofun
  exact h.keepSlot ho rfl (fun _ => .inl hmine) (Fit.early rfl (fun _ => hmine) hr
    (fun _ => (h.fit t).zero (.inr (.inl hp))) (fun _ => (h.fit t).unset (.inl hp)) (fun _ => nofun) hn)

theorem queue_failed (h : Placed place s) (status : Status) (hp : (s.calls t).phase = .added) :
    Placed place (s.setCall t { s.calls t with phase := .clearing, status }) := by
  obtain ⟨ho, hs, hr, hn, hmine⟩ := h.before hp rfl rfl nofun
  exact h.keepSlot ho rfl (fun _ => .inl hmine) (Fit.early rfl (fun _ => hmine) hr
    (fun hc => by rcases hc with hc | hc | hc <;> exact nomatch hc) (fun hc => by rcases hc with hc | hc <;> exact nomatch hc)
    (fun hc => nomatch hc) hn)

theorem queue_ok (h : Placed place s) (hp : (s.calls t).phase = .added) :
    Placed (Function.update place (s.calls t).slot .device) (s.queue t .ok) := by
  obtain ⟨ho, hs, hr, hn, hmine⟩ := h.before hp rfl rfl nofun
  have hunset := (h.fit t).unset (.inr hp)
  have hzero := (h.fit t).zero (.inr (.inr hp))
  have hnone : place (s.calls t).slot ≠ .device := by rw [hmine]; exact nofun
  refine h.move (t := t) (c := { s.calls t with phase := .waiting, ticket := some s.tickets })
    (m := s.slots (s.calls t).slot) ho rfl rfl rfl rfl (Function.update_eq_self _ _).symm (fun _ hd => hd) rfl ?_
    (fun d hd => ?_) ?_ (fun q x hx => .inl ⟨hx, h.ring_ne (by rw [hmine]; exact nofun) hx⟩) h.ring_nodup
    (fun x i used hx => .inl ⟨hx, h.taken_ne (by rw [hmine]; exact nofun) hx⟩)
    (fun x i hx => .inl ⟨hx, h.measured_ne (by rw [hmine]; exact nofun) hx⟩)
  · exact
      { unsent := fun _ hn => nomatch hn
        sent := fun _ => ⟨hunset, hzero⟩
        allowed := fun _ => hr
        zero := fun hc => by rcases hc with hc | hc | hc <;> exact nomatch hc
        unset := fun hc => by rcases hc with hc | hc <;> exact nomatch hc
        told := fun _ he => (h.fit t).told (by rw [hp]; rfl) he
        done := fun hc => nomatch hc
        new := fun hn => nomatch hn
        served := fun hc => by rcases hc with hc | hc <;> exact nomatch hc }
  · rcases mem_append.1 hd with hd | hd
    · exact .inl ⟨hd, h.pending_ne hnone hd⟩
    · rw [mem_singleton.1 hd]
      exact .inr ⟨rfl, rfl, rfl, rfl, rfl, rfl⟩
  · show ((s.pending ++ [_]).map _).Nodup
    rw [map_append, nodup_append]
    refine ⟨h.pending_nodup, nodup_singleton _, fun a ha b hb => ?_⟩
    obtain ⟨d, hd, rfl⟩ := mem_map.1 ha
    rw [mem_singleton.1 hb]
    exact h.pending_ne hnone hd

theorem goOn (h : Placed place s) {q : Phase} {e : Entry} (hs : (s.calls t).phase.sent = true) (hq : q.sent = true)
    (told : q.waits = true → e = .notified → (s.slots (s.calls t).slot).completed = true)
    (done : q = .finishing → (s.slots (s.calls t).slot).completed = true) :
    Placed place (s.setCall t { s.calls t with phase := q, entry := e }) :=
  h.keepSlot (Phase.owns_of_sent hs) rfl (fun _ => .inr ⟨hq, rfl, rfl⟩) ((h.fit t).goOn hs hq told done)

theorem looked (h : Placed place s) {q : Phase} (hs : (s.calls t).phase.sent = true) (hw : (s.calls t).phase.waits = true)
    (hq : q.sent = true) (hf : q ≠ .finishing) : Placed place (s.looked t q) := by
  have ht := (h.fit t).told hw
  refine h.goOn (e := (s.calls t).entry) hs ?_ (fun _ he => ht he) (fun hd => ?_)
  · split
    · rfl
    · exact hq
  · split at hd
    · assumption
    · exact absurd hd hf

theorem finish (h : Placed place s) (copied : Bool) (hp : (s.calls t).phase = .finishing) :
    Placed place (s.setCall t { (s.calls t).read (s.slots (s.calls t).slot) copied with phase := .clearing }) := by
  have hf := h.fit t
  obtain ⟨hn, ha⟩ := (hf.sent (by rw [hp]; rfl)).nowhere (hf.done hp)
  exact h.keepSlot (by rw [hp]; rfl) (read_slot ..) (fun _ => .inl hn) (Fit.late (.inl rfl) (fun _ => hn)
    ((read_request ..).symm ▸ hf.allowed (by rw [hp]; exact nofun)) (read_served ha copied))

theorem clear (h : Placed place s) (hp : (s.calls t).phase = .clearing) : Placed place (s.clear t) := by
  have hf := h.fit t
  have ho : (s.calls t).phase.owns = true := by rw [hp]; rfl
  have h' := h.noSlot (t := t) (c := { s.calls t with phase := .releasing }) (by rw [hp]; rfl) rfl
    (Fit.late (.inr rfl) (fun hc => nomatch hc) (hf.allowed (by rw [hp]; exact nofun))
      ((hf.served (.inl hp)).rest .releasing (s.calls t).entry))
  refine h'.setBusy (s.calls t).slot false fun u hu he => ?_
  rw [State.setCall_calls] at hu he
  split at hu
  · exact nomatch hu
  · next hut =>
    rw [if_neg hut] at he
    exact absurd he (h.other ho hut hu)

theorem release (h : Placed place s) (hp : (s.calls t).phase = .releasing) : Placed place (s.release t) :=
  (h.leave (by rw [hp]; rfl) ((h.fit t).served (.inr hp))).counts (s.slotsFree + 1) s.nextUnique s.tickets

/-! ## The device and the handlers -/

omit [DecidableEq T] in
theorem eraseIdx_ne (h : Placed place s) {k : Nat} {d e : Chain} (hd : s.pending[k]? = some d)
    (he : e ∈ s.pending.eraseIdx k) : e.slot ≠ d.slot := by
  obtain ⟨hk, rfl⟩ := List.getElem?_eq_some_iff.1 hd
  have hnd := (((getElem_cons_eraseIdx_perm hk).map (·.slot)).nodup_iff).2 h.pending_nodup
  rw [map_cons, nodup_cons] at hnd
  exact fun hs => hnd.1 (mem_map.2 ⟨e, he, hs⟩)

theorem complete (h : Placed place s) {k : Nat} {written : List UInt8} {used : Nat}
    (hs : s.complete k written used = some s') : ∃ place', Placed place' s' := by
  obtain ⟨d, hd, hs⟩ := Option.bind_eq_some_iff.1 hs
  obtain ⟨hroom, hs⟩ := Option.ite_none_right_eq_some.1 hs
  cases hs
  obtain ⟨hp, t, ht, hti, hticket, hh, hout, hdata⟩ := h.pending d (mem_of_getElem? hd)
  have hf := h.fit t
  have hr := hf.allowed (by intro hi; rw [hi] at ht; exact nomatch ht)
  rw [hti, hp] at hf
  obtain ⟨hm, hz⟩ := hf.sent ht
  have ha : Answer ((s.slots d.slot).reply d.outSize written) (s.calls t).request ⟨d.ticket, written, used⟩ := by
    rw [← hout]
    refine reply_answer hz hr (fun hhp => ?_) hroom.2
    have := hroom.1
    rw [← hh, hhp, if_neg Bool.false_ne_true] at this
    omega
  have hring {q : Bool} {u : Nat} : place d.slot ≠ .ring q u := by rw [hp]; exact nofun
  refine ⟨_, h.move (t := t) (c := s.calls t) (m := (s.slots d.slot).reply d.outSize written) (p := .ring d.hiprio used)
    (Phase.owns_of_sent ht) ht rfl (Function.update_eq_self _ _).symm rfl (by rw [hti]; rfl)
    (fun e he => mem_cons_of_mem _ he) rfl ?_ (fun e he => .inl ⟨mem_of_mem_eraseIdx he, ?_⟩) ?_
    (fun q x hx => ?_) (fun q => ?_) (fun x i u hx => .inl ⟨hx, ?_⟩) (fun x i hx => .inl ⟨hx, ?_⟩)⟩
  · exact hf.moved ht
      ⟨hm, _, mem_cons_self .., hticket, rfl, ha⟩ (.inl hm)
  · rw [hti]
    exact h.eraseIdx_ne hd he
  · exact h.pending_nodup.sublist ((eraseIdx_sublist _ _).map _)
  · change x ∈ Function.update s.ring d.hiprio _ q at hx
    rw [Function.update_apply] at hx
    split at hx
    · next hq =>
      rcases mem_append.1 hx with hx | hx
      · exact .inl ⟨hq ▸ hx, hti ▸ h.ring_ne hring hx⟩
      · rw [mem_singleton.1 hx, hq]
        exact .inr ⟨rfl, hti.symm⟩
    · exact .inl ⟨hx, hti ▸ h.ring_ne hring hx⟩
  · show ((Function.update s.ring d.hiprio _ q).map Prod.fst).Nodup
    rw [Function.update_apply]
    split
    · rw [map_append, nodup_append]
      refine ⟨h.ring_nodup d.hiprio, nodup_singleton _, fun a ha b hb => ?_⟩
      obtain ⟨x, hx, rfl⟩ := mem_map.1 ha
      rw [mem_singleton.1 hb]
      exact h.ring_ne hring hx
    · exact h.ring_nodup q
  · rw [hti]
    exact h.taken_ne (by rw [hp]; exact nofun) hx
  · rw [hti]
    exact h.measured_ne (by rw [hp]; exact nofun) hx

variable [DecidableEq I]

theorem dequeue (h : Placed place s) {x : T ⊕ I} {q : Bool} (hs : s.dequeue x q = some s') :
    ∃ place', Placed place' s' := by
  unfold State.dequeue at hs
  split at hs
  · exact nomatch hs
  rename_i i used rest hring
  cases hs
  have hp := h.ring q (i, used) (by rw [hring]; exact mem_cons_self ..)
  have hnd := h.ring_nodup q
  rw [hring, map_cons, nodup_cons] at hnd
  obtain ⟨t, ht, rfl, hcar⟩ := h.owner hp nofun
  refine ⟨_, h.move (t := t) (c := s.calls t) (m := s.slots (s.calls t).slot) (p := .taken x used)
    (Phase.owns_of_sent ht) ht rfl (Function.update_eq_self _ _).symm rfl (Function.update_eq_self _ _).symm
    (fun _ he => he) rfl ((h.fit t).moved ht hcar (.inl hcar.1))
    (fun e he => .inl ⟨he, h.pending_ne (by rw [hp]; exact nofun) he⟩) h.pending_nodup (fun q' y hy => .inl ?_)
    (fun q' => ?_) (fun y i u hy => ?_) (fun y i hy => .inl ?_)⟩
  · change y ∈ Function.update s.ring q rest q' at hy
    rw [Function.update_apply] at hy
    split at hy
    · next hq =>
      rw [hq, hring]
      exact ⟨mem_cons_of_mem _ hy, fun he => hnd.1 (mem_map.2 ⟨y, hy, he⟩)⟩
    · next hq =>
      exact ⟨hy, h.ring_ne (by rw [hp]; exact fun he => hq (Place.ring.inj he).1.symm) hy⟩
  · show ((Function.update s.ring q rest q').map Prod.fst).Nodup
    rw [Function.update_apply]
    split
    · exact hnd.2
    · exact h.ring_nodup q'
  · change Function.update s.handlers x _ y = _ at hy
    rw [Function.update_apply] at hy
    split at hy
    · next hyx =>
      obtain ⟨rfl, rfl⟩ := Handler.taken.inj hy
      exact .inr ⟨by rw [hyx], rfl⟩
    · exact .inl ⟨hy, h.taken_ne (by rw [hp]; exact nofun) hy⟩
  · change Function.update s.handlers x _ y = _ at hy
    rw [Function.update_apply] at hy
    split at hy
    · exact nomatch hy
    · exact ⟨hy, h.measured_ne (by rw [hp]; exact nofun) hy⟩

theorem measure (h : Placed place s) {x : T ⊕ I} {used : Nat} (hx : s.handlers x = .taken i used) :
    ∃ place', Placed place' ((s.setSlot i { s.slots i with usedLength := used }).setHandler x (.measured i)) := by
  have hp := h.taken x i used hx
  obtain ⟨t, ht, rfl, hm, d, hd, hdt, hdu, ha⟩ := h.owner hp nofun
  refine ⟨_, h.move (t := t) (c := s.calls t) (m := { s.slots (s.calls t).slot with usedLength := used })
    (p := .measured x) (Phase.owns_of_sent ht) ht rfl (Function.update_eq_self _ _).symm rfl rfl
    (fun _ he => he) rfl ((h.fit t).moved ht ⟨hm, d, hd, hdt, hdu, ⟨ha.bytes, ha.header, ha.room, ha.length⟩⟩ (.inl hm))
    (fun e he => .inl ⟨he, h.pending_ne (by rw [hp]; exact nofun) he⟩) h.pending_nodup
    (fun q y hy => .inl ⟨hy, h.ring_ne (by rw [hp]; exact nofun) hy⟩) h.ring_nodup (fun y i u hy => .inl ?_)
    (fun y i hy => ?_)⟩
  · change Function.update s.handlers x _ y = _ at hy
    rw [Function.update_apply] at hy
    split at hy
    · exact nomatch hy
    · next hyx =>
      exact ⟨hy, h.taken_ne (by rw [hp]; exact fun he => hyx (Place.taken.inj he).1.symm) hy⟩
  · change Function.update s.handlers x _ y = _ at hy
    rw [Function.update_apply] at hy
    split at hy
    · next hyx => exact .inr ⟨by rw [hyx], (Handler.measured.inj hy).symm⟩
    · exact .inl ⟨hy, h.measured_ne (by rw [hp]; exact nofun) hy⟩

theorem flag (h : Placed place s) {x : T ⊕ I} (hx : s.handlers x = .measured i) :
    ∃ place', Placed place' ((s.setSlot i { s.slots i with completed := true }).setHandler x (.flagged i)) := by
  have hp := h.measured x i hx
  obtain ⟨t, ht, rfl, hm, d, hd, hdt, hdu, ha⟩ := h.owner hp nofun
  refine ⟨_, h.move (t := t) (c := s.calls t) (m := { s.slots (s.calls t).slot with completed := true })
    (p := .nowhere) (Phase.owns_of_sent ht) ht rfl (Function.update_eq_self _ _).symm rfl rfl
    (fun _ he => he) rfl ((h.fit t).moved ht ⟨rfl, d, hd, hdt, hdu, ⟨ha.bytes, ha.header, ha.room, ha.length⟩⟩ (.inr rfl))
    (fun e he => .inl ⟨he, h.pending_ne (by rw [hp]; exact nofun) he⟩) h.pending_nodup
    (fun q y hy => .inl ⟨hy, h.ring_ne (by rw [hp]; exact nofun) hy⟩) h.ring_nodup (fun y i u hy => .inl ?_)
    (fun y i hy => .inl ?_)⟩
  · change Function.update s.handlers x _ y = _ at hy
    rw [Function.update_apply] at hy
    split at hy
    · exact nomatch hy
    · exact ⟨hy, h.taken_ne (by rw [hp]; exact nofun) hy⟩
  · change Function.update s.handlers x _ y = _ at hy
    rw [Function.update_apply] at hy
    split at hy
    · exact nomatch hy
    · next hyx =>
      exact ⟨hy, h.measured_ne (by rw [hp]; exact fun he => hyx (Place.measured.inj he).symm) hy⟩

omit [DecidableEq T] [DecidableEq I] in
theorem notify_calls (s : State T I) (i : Fin slotCount) (t : T) :
    ∃ e, (s.notify i).calls t = { s.calls t with entry := e } ∧
      (e = .notified → (s.calls t).entry = .notified ∨ (s.calls t).slot = i ∧ (s.calls t).entry = .on) := by
  show ∃ e, (if (s.calls t).slot = i ∧ (s.calls t).entry = .on then { s.calls t with entry := .notified }
    else s.calls t) = _ ∧ _
  split
  · next hc => exact ⟨.notified, rfl, fun _ => .inr hc⟩
  · exact ⟨(s.calls t).entry, rfl, .inl⟩

/-- **A notification** that finds no call in its loop whose request is not completed. -/
theorem notify (h : Placed place s) {x : T ⊕ I} (hf : ∀ t, (s.calls t).phase.waits = true → (s.calls t).slot = i →
    (s.calls t).entry = .on → (s.slots i).completed = true) : Placed place ((s.notify i).setHandler x .idle) := by
  have hrest (t : T) : ((s.notify i).calls t).phase = (s.calls t).phase ∧ ((s.notify i).calls t).slot = (s.calls t).slot ∧
      ((s.notify i).calls t).ticket = (s.calls t).ticket ∧ ((s.notify i).calls t).request = (s.calls t).request := by
    obtain ⟨e, he, -⟩ := notify_calls s i t
    rw [he]
    exact ⟨rfl, rfl, rfl, rfl⟩
  refine ⟨fun t ht => ?_, fun t u ht hu he => ?_, fun t => ?_, fun j hj => ?_, fun d hd => ?_, h.pending_nodup, h.ring,
    h.ring_nodup, fun y j used hy => ?_, fun y j hy => ?_, h.returned⟩
  · change ((s.notify i).calls t).phase.owns = true at ht
    show s.slotBusy ((s.notify i).calls t).slot = true
    rw [(hrest t).1] at ht
    rw [(hrest t).2.1]
    exact h.busy t ht
  · change ((s.notify i).calls t).phase.owns = true at ht
    change ((s.notify i).calls u).phase.owns = true at hu
    change ((s.notify i).calls t).slot = ((s.notify i).calls u).slot at he
    rw [(hrest t).1] at ht
    rw [(hrest u).1] at hu
    rw [(hrest t).2.1, (hrest u).2.1] at he
    exact h.alone t u ht hu he
  · show Fit s.completions (s.slots ((s.notify i).calls t).slot) (place ((s.notify i).calls t).slot) ((s.notify i).calls t)
    obtain ⟨e, he, htold⟩ := notify_calls s i t
    rw [he]
    refine (h.fit t).entry fun hw hn => ?_
    rcases htold hn with hn | ⟨hi, hon⟩
    · exact (h.fit t).told hw hn
    · rw [hi]
      exact hf t hw hi hon
  · obtain ⟨t, ht, htj⟩ := h.carried j hj
    exact ⟨t, by rw [← (hrest t).1] at ht; exact ht, by rw [← (hrest t).2.1] at htj; exact htj⟩
  · obtain ⟨hp, t, ht, hti, hticket, hrequest⟩ := h.pending d hd
    refine ⟨hp, t, ?_⟩
    show ((s.notify i).calls t).phase.sent = true ∧ ((s.notify i).calls t).slot = _ ∧ ((s.notify i).calls t).ticket = _ ∧
      ((s.notify i).calls t).request.hiprio = _ ∧ ((s.notify i).calls t).request.outSize = _ ∧
      ((s.notify i).calls t).request.outDataSize = _
    rw [(hrest t).1, (hrest t).2.1, (hrest t).2.2.1, (hrest t).2.2.2]
    exact ⟨ht, hti, hticket, hrequest⟩
  · change Function.update s.handlers x _ y = _ at hy
    rw [Function.update_apply] at hy
    split at hy
    · exact nomatch hy
    · exact h.taken y j used hy
  · change Function.update s.handlers x _ y = _ at hy
    rw [Function.update_apply] at hy
    split at hy
    · exact nomatch hy
    · exact h.measured y j hy

end Placed

/-! ## Every step -/

def State.notified (s : State T I) : Event T I → Option (Fin slotCount)
  | .notify x =>
    match s.handlers x with
    | .flagged i => some i
    | _ => none
  | _ => none

/-- A notification finds no call in its loop, on the variable, whose request is not completed. -/
def State.Fine (s : State T I) (e : Event T I) : Prop :=
  ∀ i, s.notified e = some i → ∀ t, (s.calls t).phase.waits = true → (s.calls t).slot = i → (s.calls t).entry = .on →
    (s.slots i).completed = true

instance [Fintype T] (s : State T I) (e : Event T I) : Decidable (s.Fine e) :=
  inferInstanceAs (Decidable (∀ i, s.notified e = some i → ∀ t, (s.calls t).phase.waits = true → (s.calls t).slot = i →
    (s.calls t).entry = .on → (s.slots i).completed = true))

variable [DecidableEq T] [DecidableEq I]

theorem step_placed {place : Fin slotCount → Place T I} {s s' : State T I} (h : Placed place s) {e : Event T I}
    (hf : s.Fine e) (hs : s.step e = some s') : ∃ place', Placed place' s' := by
  cases e with
  | call t request =>
    obtain ⟨hp, hs⟩ := Option.ite_none_right_eq_some.1 hs
    exact ⟨_, Option.some.inj hs ▸ h.begin request hp⟩
  | acquire t ok =>
    obtain ⟨hp, hs⟩ := Option.ite_none_right_eq_some.1 hs
    split at hs
    · split at hs
      · exact nomatch hs
      · exact ⟨_, Option.some.inj hs ▸ (h.acquire hp).counts (s.slotsFree - 1) s.nextUnique s.tickets⟩
    · refine ⟨_, Option.some.inj hs ▸ h.leave (by rw [hp]; rfl) fun k hk _ => ?_⟩
      have := (h.fit t).new (by rw [hp]; rfl) (by rw [hp]; exact nofun) (by rw [hp]; exact nofun)
      exact nomatch this.symm.trans hk
  | pick t =>
    obtain ⟨hp, hs⟩ := Option.ite_none_right_eq_some.1 hs
    exact ⟨_, h.pick hp hs⟩
  | copy t inData ok =>
    obtain ⟨hp, hs⟩ := Option.ite_none_right_eq_some.1 hs
    exact ⟨_, Option.some.inj hs ▸ h.copyIn inData ok hp⟩
  | stamp t =>
    obtain ⟨hp, hs⟩ := Option.ite_none_right_eq_some.1 hs
    exact ⟨_, Option.some.inj hs ▸ h.stamp hp⟩
  | arm t =>
    obtain ⟨hp, hs⟩ := Option.ite_none_right_eq_some.1 hs
    exact ⟨_, Option.some.inj hs ▸ h.arm hp⟩
  | add t =>
    obtain ⟨hp, hs⟩ := Option.ite_none_right_eq_some.1 hs
    exact ⟨_, Option.some.inj hs ▸ h.add hp⟩
  | queue t status =>
    obtain ⟨hp, hs⟩ := Option.ite_none_right_eq_some.1 hs
    cases hs
    by_cases hok : status = .ok
    · rw [hok]
      exact ⟨_, h.queue_ok hp⟩
    refine ⟨place, ?_⟩
    unfold State.queue
    rw [if_neg hok]
    exact h.queue_failed status hp
  | wake t =>
    obtain ⟨⟨hp, he⟩, hs⟩ := Option.ite_none_right_eq_some.1 hs
    cases hs
    exact ⟨place, h.goOn (q := .finishing) (by rw [hp]; rfl) rfl (fun hw => nomatch hw)
      (fun _ => (h.fit t).told (by rw [hp]; rfl) he)⟩
  | expire t =>
    obtain ⟨hp, hs⟩ := Option.ite_none_right_eq_some.1 hs
    cases hs
    exact ⟨place, h.goOn (q := .expired) (e := .off) (by rw [hp]; rfl) rfl nofun nofun⟩
  | look t =>
    obtain ⟨hp, hs⟩ := Option.ite_none_right_eq_some.1 hs
    cases hs
    exact ⟨place, h.looked (q := .retrying) (by rw [hp]; rfl) (by rw [hp]; rfl) rfl nofun⟩
  | again t =>
    obtain ⟨hp, hs⟩ := Option.ite_none_right_eq_some.1 hs
    cases hs
    exact ⟨place, h.goOn (q := .draining) (e := .on) (by rw [hp]; rfl) rfl nofun nofun⟩
  | drained t =>
    obtain ⟨⟨hp, -⟩, hs⟩ := Option.ite_none_right_eq_some.1 hs
    cases hs
    exact ⟨place, h.goOn (q := .drained) (by rw [hp]; rfl) rfl (fun _ => (h.fit t).told (by rw [hp]; rfl)) nofun⟩
  | lookAgain t =>
    obtain ⟨hp, hs⟩ := Option.ite_none_right_eq_some.1 hs
    cases hs
    exact ⟨place, h.looked (q := .waiting) (by rw [hp]; rfl) (by rw [hp]; rfl) rfl nofun⟩
  | finish t copied =>
    obtain ⟨hp, hs⟩ := Option.ite_none_right_eq_some.1 hs
    exact ⟨_, Option.some.inj hs ▸ h.finish copied hp⟩
  | clear t =>
    obtain ⟨hp, hs⟩ := Option.ite_none_right_eq_some.1 hs
    exact ⟨_, Option.some.inj hs ▸ h.clear hp⟩
  | release t =>
    obtain ⟨hp, hs⟩ := Option.ite_none_right_eq_some.1 hs
    exact ⟨_, Option.some.inj hs ▸ h.release hp⟩
  | complete k written used => exact h.complete hs
  | dequeue x hiprio =>
    obtain ⟨-, hs⟩ := Option.ite_none_right_eq_some.1 hs
    exact h.dequeue hs
  | measure x =>
    cases hx : s.handlers x with
    | taken i used =>
      simp only [State.step, hx, Option.some.injEq] at hs
      exact hs ▸ h.measure hx
    | _ => simp only [State.step, hx, reduceCtorEq] at hs
  | flag x =>
    cases hx : s.handlers x with
    | measured i =>
      simp only [State.step, hx, Option.some.injEq] at hs
      exact hs ▸ h.flag hx
    | _ => simp only [State.step, hx, reduceCtorEq] at hs
  | notify x =>
    cases hx : s.handlers x with
    | flagged i =>
      simp only [State.step, hx, Option.some.injEq] at hs
      exact ⟨_, hs ▸ h.notify (hf i (by simp only [State.notified, hx]))⟩
    | _ => simp only [State.step, hx, reduceCtorEq] at hs

end VirtioFs
end Prose
