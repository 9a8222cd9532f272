import Prose.PortalCalls
/-!
# PortalWaiting — requests that wait for a buffer

A request whose timer fires is no longer pending, but its frame goes on waiting, and the next buffer the guest posts takes
it.  So the guest hears no request that was reported as timed out exactly as long as no buffer takes such a frame
(`honest_iff`).
-/
namespace Prose
namespace Portal
namespace Device

open List

/-- The first is the report that a request timed out, the second its placing. -/
def late : Happening → Happening → Bool
  | .called k (.failure (.timedOut _)) _, .placed j => k = j
  | _, _                                            => false

/-- **No request is placed behind the report that it timed out.** -/
def Honest (s : Device) : Prop := s.happened.Pairwise (fun a b => late a b = false)

def told (s : Device) (k : Nat) : Bool := s.happened.any (fun a => late a (.placed k))

def Timely (s : Device) : Event → Prop
  | .posted elements => ∀ x ∈ (s.requestElements ++ elements).zip s.waiting,
      x.2.frame.length ≤ x.1.writeBuffersByteCount → s.told x.2.send = false
  | _                => True

/-- Buffers or frames wait, never both; and only requests are told anything. -/
structure Queued (s : Device) : Prop where
  idle : s.requestElements = [] ∨ s.waiting = []
  pending : ∀ x ∈ s.pending, x.2.send < s.sends.length
  called : ∀ k o n, Happening.called k o n ∈ s.happened → k < s.sends.length

/-! ## Filling buffers -/

theorem fill_idle : ∀ (es : List Element) (ws : List Waiting), (fill es ws).1 = [] ∨ (fill es ws).2.1 = []
  | [], _           => Or.inl rfl
  | _ :: _, []      => Or.inr rfl
  | _ :: es, _ :: ws => fill_idle es ws

theorem mem_fill : ∀ {es : List Element} {ws : List Waiting} {k : Nat}, Happening.placed k ∈ (fill es ws).2.2 ↔
    ∃ x ∈ es.zip ws, x.2.frame.length ≤ x.1.writeBuffersByteCount ∧ x.2.send = k
  | [], _, _             => by simp [fill]
  | _ :: _, [], _        => by simp [fill]
  | e :: es, w :: ws, k => by
    change Happening.placed k ∈ (if _ then [Happening.placed w.send] else []) ++ (fill es ws).2.2 ↔ _
    rw [mem_append, mem_fill, zip_cons_cons, exists_mem_cons_iff]
    refine or_congr ?_ Iff.rfl
    split
    · rename_i hle
      rw [mem_singleton, Happening.placed.injEq]
      exact ⟨fun he => ⟨hle, he.symm⟩, fun h => h.2.symm⟩
    · rename_i hle
      exact ⟨fun h => (nomatch h), fun h => absurd h.1 hle⟩

theorem told_iff {s : Device} {k : Nat} : s.told k = true ↔ ∃ a ∈ s.happened, late a (.placed k) = true := any_eq_true

theorem honest_called {s s' : Device} (h : Honest s) {more : List Happening} (hm : s'.happened = s.happened ++ more)
    (hc : ∀ b ∈ more, ∃ k o n, b = .called k o n) : Honest s' := by
  have hlate {a b : Happening} (hb : b ∈ more) : late a b = false := by
    obtain ⟨k, o, n, rfl⟩ := hc b hb
    cases a with
    | called j o' _ => cases o' with
      | success _ => rfl
      | failure f => cases f <;> rfl
    | placed _ => rfl
  unfold Honest
  rw [hm]
  exact pairwise_append.2 ⟨h, pairwise_of_forall_mem_list (fun _ _ b hb => hlate hb), fun _ _ b hb => hlate hb⟩

theorem honest_flushRequests {s : Device} (h : Honest s) : Honest s.flushRequests ↔
    ∀ x ∈ s.requestElements.zip s.waiting, x.2.frame.length ≤ x.1.writeBuffersByteCount → s.told x.2.send = false := by
  have hplaced {b : Happening} (hb : b ∈ (fill s.requestElements s.waiting).2.2) (c : Happening) : late b c = false := by
    obtain ⟨k, rfl⟩ := fill_placed _ _ b hb
    rfl
  change (s.happened ++ (fill s.requestElements s.waiting).2.2).Pairwise _ ↔ _
  rw [pairwise_append]
  constructor
  · rintro ⟨-, -, hcross⟩ x hx hle
    refine Bool.eq_false_iff.2 (fun ht => ?_)
    obtain ⟨a, ha, hl⟩ := told_iff.1 ht
    rw [hcross a ha _ (mem_fill.2 ⟨x, hx, hle, rfl⟩)] at hl
    exact nomatch hl
  · intro hall
    refine ⟨h, pairwise_of_forall_mem_list (fun b hb c _ => hplaced hb c), fun a ha b hb => ?_⟩
    obtain ⟨k, rfl⟩ := fill_placed _ _ b hb
    obtain ⟨x, hx, hle, rfl⟩ := mem_fill.1 hb
    refine Bool.eq_false_iff.2 (fun hl => ?_)
    have := hall x hx hle
    rw [told_iff.2 ⟨a, ha, hl⟩] at this
    exact nomatch this

theorem honest_flushRequests_of {s s' : Device} (h : Honest s) (hall : ∀ x ∈ s'.requestElements.zip s'.waiting,
    x.2.frame.length ≤ x.1.writeBuffersByteCount → s'.told x.2.send = false)
    (hs : s'.happened = s.happened := by rfl) : Honest s'.flushRequests := by
  refine (honest_flushRequests ?_).2 hall
  unfold Honest
  rw [hs]
  exact h

/-! ## What does not touch the queue -/

/-- Pending requests got on or were answered, and nothing else happened. -/
structure Answering (s s' : Device) : Prop where
  queue : s'.requestElements = s.requestElements ∧ s'.waiting = s.waiting ∧ s'.sends = s.sends
  pending : ∀ x ∈ s'.pending, ∃ y ∈ s.pending, y.2.send = x.2.send
  happened : ∃ more, s'.happened = s.happened ++ more ∧
    ∀ b ∈ more, ∃ k o n, b = .called k o n ∧ ∃ y ∈ s.pending, y.2.send = k

theorem Answering.kept {s s' : Device} (h : Answering s s') (hq : Queued s) (hh : Honest s) : Queued s' ∧ Honest s' := by
  obtain ⟨more, hm, hc⟩ := h.happened
  refine ⟨⟨?_, fun x hx => ?_, fun k o n hin => ?_⟩, honest_called hh hm (fun b hb => ?_)⟩
  · rw [h.queue.1, h.queue.2.1]
    exact hq.idle
  · obtain ⟨y, hy, he⟩ := h.pending x hx
    rw [h.queue.2.2, ← he]
    exact hq.pending y hy
  · rw [hm] at hin
    rw [h.queue.2.2]
    rcases mem_append.1 hin with hold | hnew
    · exact hq.called k o n hold
    · obtain ⟨j, o', n', he, y, hy, hs⟩ := hc _ hnew
      rw [(Happening.called.inj he).1, ← hs]
      exact hq.pending y hy
  · obtain ⟨k, o, n, he, -⟩ := hc b hb
    exact ⟨k, o, n, he⟩

theorem answering_same {s s' : Device} (hq : s'.requestElements = s.requestElements ∧ s'.waiting = s.waiting ∧ s'.sends = s.sends)
    (hp : s'.pending = s.pending) (hh : s'.happened = s.happened) : Answering s s' :=
  ⟨hq, fun x hx => ⟨x, hp ▸ hx, rfl⟩, [], by rw [hh, append_nil], fun _ hb => nomatch hb⟩

theorem answering_finish {s s' : Device} (hs : Answering s s') {id : UInt32} {p : Pending}
    (hp : ∃ y ∈ s.pending, y.2.send = p.send) (outcome : Outcome) : Answering s (s'.finish id p outcome) := by
  obtain ⟨more, hm, hc⟩ := hs.happened
  refine ⟨hs.queue, fun x hx => hs.pending x (mem_remove.1 hx).1, more ++ [.called p.send outcome s'.heard.length], ?_,
    fun b hb => ?_⟩
  · change s'.happened ++ _ = _
    rw [hm, append_assoc]
    rfl
  · rcases mem_append.1 hb with hb | hb
    · exact hc b hb
    · exact ⟨_, _, _, mem_singleton.1 hb, hp⟩

theorem answering_set {s s' : Device} (hs : Answering s s') (id : UInt32) {p : Pending}
    (hp : ∃ y ∈ s.pending, y.2.send = p.send) : Answering s (s'.set id p) := by
  refine ⟨hs.queue, fun x hx => ?_, hs.happened⟩
  rcases mem_cons.1 hx with rfl | hx
  · exact hp
  · exact hs.pending x (mem_filter.1 hx).1

theorem answering_finishIfComplete (decode : Bytes → String) {s s' : Device} (hs : Answering s s') (id : UInt32) {p : Pending}
    (hp : ∃ y ∈ s.pending, y.2.send = p.send) : Answering s (s'.finishIfComplete decode id p) := by
  unfold finishIfComplete
  split
  · split
    · exact answering_finish hs hp _
    · exact hs
  · exact hs

theorem answering_gather (decode : Bytes → String) {s s' : Device} (hs : Answering s s') (id : UInt32) {p : Pending}
    (hp : ∃ y ∈ s.pending, y.2.send = p.send) (r : Option Header) (body : Bytes) :
    Answering s ((s'.set id { p with result := r, body }).finishIfComplete decode id { p with result := r, body }) :=
  have hq : Answering s (s'.set id { p with result := r, body }) := answering_set hs id hp
  answering_finishIfComplete decode hq id hp

theorem answering_handle (decode : Bytes → String) (s : Device) (data : Bytes) : Answering s (s.handle decode data) := by
  have hsame {s' : Device} (hq : s'.requestElements = s.requestElements ∧ s'.waiting = s.waiting ∧ s'.sends = s.sends)
      (hp : s'.pending = s.pending) (hh : s'.happened = s.happened) : Answering s s' := answering_same hq hp hh
  unfold handle
  split
  · exact hsame ⟨rfl, rfl, rfl⟩ rfl rfl
  rename_i f _
  have h1 : Answering s { s with received := s.received + 1, heard := s.heard ++ [f] } := hsame ⟨rfl, rfl, rfl⟩ rfl rfl
  dsimp only
  split
  · exact hsame ⟨rfl, rfl, rfl⟩ rfl rfl
  split
  · exact h1
  rename_i p hget
  have hp : ∃ y ∈ s.pending, y.2.send = p.send := ⟨_, get_mem (s := s) hget, rfl⟩
  unfold answer
  split
  · exact answering_finish h1 hp _
  split
  · exact answering_finish h1 hp _
  split
  · split
    · exact answering_finish h1 hp _
    · exact answering_gather decode h1 f.id hp _ _
  split
  · split
    · exact answering_finish h1 hp _
    · exact answering_gather decode h1 f.id hp _ _
  · exact answering_finish h1 hp _

theorem answering_fire (s : Device) (t : Timer) : Answering s (s.fire t) := by
  unfold fire
  dsimp only
  split
  · exact answering_same ⟨rfl, rfl, rfl⟩ rfl rfl
  · rename_i p hget
    exact ⟨⟨rfl, rfl, rfl⟩, fun x hx => ⟨x, (mem_filter.1 hx).1, rfl⟩, [_], rfl,
      fun b hb => ⟨_, _, _, mem_singleton.1 hb, _, get_mem (s := s) hget, rfl⟩⟩

/-! ## Every event -/

theorem queued_flushRequests {s : Device} (hp : ∀ x ∈ s.pending, x.2.send < s.sends.length)
    (hc : ∀ k o n, Happening.called k o n ∈ s.happened → k < s.sends.length) : Queued s.flushRequests := by
  refine ⟨fill_idle _ _, hp, fun k o n hin => ?_⟩
  rcases mem_append.1 hin with hold | hnew
  · exact hc k o n hold
  · obtain ⟨j, hj⟩ := fill_placed _ _ _ hnew
    exact nomatch hj

theorem send_kept {s : Device} (hq : Queued s) (hh : Honest s) (type : UInt16) (payload : Bytes) (timeout : Rat) :
    Queued (s.send type payload timeout) ∧ Honest (s.send type payload timeout) := by
  have hrefuse (f : PortalFailure) : Queued ({ s with sends := s.sends ++ [none] }.call s.sends.length (.failure f)) ∧
      Honest ({ s with sends := s.sends ++ [none] }.call s.sends.length (.failure f)) := by
    have hlen : (s.sends ++ [none]).length = s.sends.length + 1 := length_append
    refine ⟨⟨hq.idle, fun x hx => ?_, fun k o n hin => ?_⟩, honest_called hh rfl (fun b hb => ⟨_, _, _, mem_singleton.1 hb⟩)⟩
    · have := hq.pending x hx
      change _ < (s.sends ++ [none]).length
      omega
    · change k < (s.sends ++ [none]).length
      rcases mem_append.1 hin with hold | hnew
      · have := hq.called k o n hold
        omega
      · rw [(Happening.called.inj (mem_singleton.1 hnew)).1]
        omega
  unfold Device.send
  dsimp only
  split
  · exact hrefuse _
  split
  · exact hrefuse _
  split
  · exact hrefuse _
  have hlen (a : Option Accepted) : (s.sends ++ [a]).length = s.sends.length + 1 := length_append
  refine ⟨queued_flushRequests (fun x hx => ?_) (fun k o n hin => ?_), honest_flushRequests_of hh (fun x hx _ => ?_)⟩
  · change _ < (s.sends ++ [_]).length
    rw [hlen]
    rcases mem_cons.1 hx with rfl | hx
    · exact Nat.lt_succ_self s.sends.length
    · exact Nat.lt_succ_of_lt (hq.pending x (mem_filter.1 hx).1)
  · change _ < (s.sends ++ [_]).length
    rw [hlen]
    exact Nat.lt_succ_of_lt (hq.called k o n hin)
  · -- a buffer is there only where nothing else waits for it
    change x ∈ s.requestElements.zip (s.waiting ++ [_]) at hx
    rcases hq.idle with he | hw
    · rw [he] at hx
      exact nomatch hx
    rw [hw] at hx
    have hsend : x.2.send = s.sends.length := by
      rw [mem_singleton.1 (of_mem_zip (a := x.1) (b := x.2) hx).2]
    rw [hsend]
    refine Bool.eq_false_iff.2 (fun ht => ?_)
    obtain ⟨a, ha, hl⟩ := told_iff.1 ht
    cases a with
    | placed j => exact nomatch hl
    | called k o n =>
      have hk := hq.called k o n ha
      cases o with
      | success r => exact nomatch hl
      | failure f =>
        cases f with
        | timedOut τ => exact absurd (of_decide_eq_true hl) (Nat.ne_of_lt hk)
        | noDevice => exact nomatch hl
        | notAnswering => exact nomatch hl
        | guestError m => exact nomatch hl
        | malformed => exact nomatch hl

theorem reset_kept {s : Device} (hq : Queued s) (hh : Honest s) : Queued s.willReset ∧ Honest s.willReset := by
  have hm : s.willReset.happened = s.happened ++
      s.pending.map (fun x => .called x.2.send (.failure .notAnswering) s.heard.length) := rfl
  refine ⟨⟨Or.inr rfl, fun x hx => (nomatch hx), fun k o n hin => ?_⟩, honest_called hh hm (fun b hb => ?_)⟩
  · rw [hm] at hin
    rcases mem_append.1 hin with hold | hnew
    · exact hq.called k o n hold
    · obtain ⟨x, hx, he⟩ := mem_map.1 hnew
      rw [← (Happening.called.inj he).1]
      exact hq.pending x hx
  · obtain ⟨x, -, rfl⟩ := mem_map.1 hb
    exact ⟨_, _, _, rfl⟩

theorem honest_step (decode : Bytes → String) {s : Device} (hq : Queued s) (hh : Honest s) (e : Event) :
    (∀ s' ∈ step decode s e, Queued s') ∧ ((∀ s' ∈ step decode s e, Honest s') ↔ Timely s e) := by
  have hkept {s' : Device} (h : Queued s' ∧ Honest s') (he : step decode s e = some s') (ht : Timely s e) :
      (∀ s' ∈ step decode s e, Queued s') ∧ ((∀ s' ∈ step decode s e, Honest s') ↔ Timely s e) := by
    rw [he]
    refine ⟨fun x hx => ?_, fun _ => ht, fun _ x hx => ?_⟩
    · rw [← Option.some.inj hx]
      exact h.1
    · rw [← Option.some.inj hx]
      exact h.2
  cases e with
  | created =>
    have hsame : Answering s { s with device := true } := answering_same ⟨rfl, rfl, rfl⟩ rfl rfl
    exact hkept (hsame.kept hq hh) rfl trivial
  | send type payload timeout => exact hkept (send_kept hq hh type payload timeout) rfl trivial
  | frame data => exact hkept ((answering_handle decode s data).kept hq hh) rfl trivial
  | reset => exact hkept (reset_kept hq hh) rfl trivial
  | fire k =>
    cases hf : s.timers.find? (fun t => t.send = k) with
    | none =>
      have hnone : step decode s (.fire k) = none := Option.map_eq_none_iff.2 hf
      rw [hnone]
      exact ⟨fun _ hx => (nomatch hx), fun _ => trivial, fun _ _ hx => (nomatch hx)⟩
    | some t => exact hkept ((answering_fire s t).kept hq hh) (Option.map_eq_some_iff.2 ⟨t, hf, rfl⟩) trivial
  | posted elements =>
    have hflush := @honest_flushRequests { s with requestElements := s.requestElements ++ elements } hh
    refine ⟨fun x hx => ?_, fun h => hflush.1 (h _ rfl), fun ht x hx => ?_⟩
    · rw [← Option.some.inj hx]
      exact queued_flushRequests hq.pending hq.called
    · rw [← Option.some.inj hx]
      exact hflush.2 ht

theorem queued_start : Queued {} := ⟨Or.inl rfl, fun _ h => (nomatch h), fun _ _ _ h => (nomatch h)⟩

/-- A request that times out while the guest's daemon is away, and a buffer that comes then. -/
def daemonAway : List Event := [.created, .frame helloData, .send 2 [] 0, .fire 0, .posted [⟨4096⟩]]

end Device
end Portal
end Prose
