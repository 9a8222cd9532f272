import Prose.PortalModel
import Mathlib.Data.List.Nodup
/-!
# PortalCalls — each completion is called once

Every request that was given an id is pending under it or has been answered, and its timer is set for as long as it is
pending.  So its completion is called once, by the reply, the timer or a reset, whichever comes first, as long as no id is
given out that is pending still.
-/
namespace Prose
namespace Portal

open List
/-! ## What the frames carry -/

def Frame.body (f : Frame) : Bytes :=
  if f.type = Portal.result then f.payload.drop 16 else if f.type = resultMore then f.payload else []

theorem Frame.body_result {f : Frame} (h : f.type = Portal.result) : f.body = f.payload.drop 16 := if_pos h

theorem Frame.body_more {f : Frame} (h : f.type = resultMore) : f.body = f.payload := by
  unfold Frame.body
  rw [h, if_neg (by decide), if_pos rfl]

def bodies (fs : List Frame) : Bytes := fs.flatMap Frame.body

def headerIn (fs : List Frame) : Option Header :=
  ((fs.filter (fun f => f.type = Portal.result)).getLast?).map (fun f => headerOf f.payload)

/-- The first `n` frames, those for a request. -/
def framesFor (heard : List Frame) (a : Accepted) (n : Nat) : List Frame :=
  ((heard.take n).drop a.heard).filter (fun f => f.id = a.id)

namespace Device

/-! ## What is counted -/

def callee : Happening → Option Nat
  | .called k _ _ => some k
  | .placed _     => none

/-- How often the completion of the `k`-th request was called. -/
def completions (s : Device) (k : Nat) : Nat := (s.happened.filterMap callee).count k

def Carries (decode : Bytes → String) (s : Device) (k : Nat) (r : PortalReply) (n : Nat) : Prop :=
  ∃ a h, s.sends[k]? = some (some a) ∧ n ≤ s.heard.length ∧ headerIn (framesFor s.heard a n) = some h ∧
    h.outLength + h.errorLength ≤ (bodies (framesFor s.heard a n)).length ∧
    r = replyOf decode h (bodies (framesFor s.heard a n))

structure Answered (decode : Bytes → String) (s : Device) : Prop where
  once : ∀ k, s.completions k ≤ 1
  fired : ∀ k ∈ s.fired, s.completions k = 1
  results : ∀ k r n, Happening.called k (.success r) n ∈ s.happened → r.type = Portal.result → Carries decode s k r n

def Fresh (s : Device) : Event → Prop
  | .send _ payload _ => s.device ∧ s.alive ∧ payload.length + 16 ≤ requestSize → s.get s.nextID = none
  | _                 => True

/-! ## The invariant -/

structure Sound (decode : Bytes → String) (s : Device) : Prop where
  keys : (s.pending.map Prod.fst).Nodup
  ids : ∀ x ∈ s.pending, ∃ a, s.sends[x.2.send]? = some (some a) ∧ a.id = x.1 ∧ a.heard ≤ s.heard.length
  done : ∀ k < s.sends.length, (∀ x ∈ s.pending, x.2.send ≠ k) → s.completions k = 1
  owing : ∀ x ∈ s.pending, s.completions x.2.send = 0
  unasked : ∀ k, s.sends.length ≤ k → s.completions k = 0
  timers : ∀ t ∈ s.timers, ∃ p, (t.id, p) ∈ s.pending ∧ p.send = t.send
  fired : ∀ k ∈ s.fired, k < s.sends.length ∧ ∀ x ∈ s.pending, x.2.send ≠ k
  results : ∀ k r n, Happening.called k (.success r) n ∈ s.happened → r.type = Portal.result → Carries decode s k r n

structure Gathered (s : Device) : Prop where
  whole : ∀ x ∈ s.pending, ∀ a, s.sends[x.2.send]? = some (some a) →
    x.2.body = bodies (framesFor s.heard a s.heard.length) ∧ x.2.result = headerIn (framesFor s.heard a s.heard.length)

variable {decode : Bytes → String}

theorem Sound.answered {s : Device} (h : Sound decode s) : Answered decode s where
  once k := by
    by_cases hk : k < s.sends.length
    · by_cases hp : ∀ x ∈ s.pending, x.2.send ≠ k
      · exact Nat.le_of_eq (h.done k hk hp)
      obtain ⟨x, hx⟩ := not_forall.1 hp
      obtain ⟨hx, he⟩ := Classical.not_imp.1 hx
      rw [← not_not.1 he, h.owing x hx]
      decide
    · rw [h.unasked k (Nat.not_lt.1 hk)]
      decide
  fired k hk := h.done k (h.fired k hk).1 (h.fired k hk).2
  results := h.results

theorem sound_start : Sound decode {} where
  keys := nodup_nil
  ids _ h := nomatch h
  done k h := absurd h (Nat.not_lt_zero k)
  owing _ h := nomatch h
  unasked _ _ := rfl
  timers _ h := nomatch h
  fired _ h := nomatch h
  results _ _ _ h := nomatch h

/-! ## Tables -/

theorem get_mem {s : Device} {id : UInt32} {p : Pending} (h : s.get id = some p) : (id, p) ∈ s.pending := by
  obtain ⟨l, r, he, -⟩ := lookup_eq_some_iff.1 h
  rw [he]
  exact mem_append_right _ mem_cons_self

theorem get_eq_none {s : Device} {id : UInt32} (h : s.get id = none) : ∀ x ∈ s.pending, x.1 ≠ id := fun x hx he => by
  have := lookup_eq_none_iff.1 h x hx
  rw [he] at this
  exact absurd this (by simp)

theorem mem_remove {s : Device} {id : UInt32} {x : UInt32 × Pending} :
    x ∈ (s.remove id).pending ↔ x ∈ s.pending ∧ x.1 ≠ id := by
  unfold remove
  rw [mem_filter, decide_eq_true_iff]

theorem Sound.unique {s : Device} (h : Sound decode s) {x y : UInt32 × Pending} (hx : x ∈ s.pending) (hy : y ∈ s.pending)
    (he : x.1 = y.1) : x = y := inj_on_of_nodup_map h.keys hx hy he

theorem Sound.unique_send {s : Device} (h : Sound decode s) {x y : UInt32 × Pending} (hx : x ∈ s.pending)
    (hy : y ∈ s.pending) (he : x.2.send = y.2.send) : x = y := by
  obtain ⟨a, ha, hax, -⟩ := h.ids x hx
  obtain ⟨b, hb, hby, -⟩ := h.ids y hy
  rw [he, hb] at ha
  obtain rfl := Option.some.inj (Option.some.inj ha)
  exact h.unique hx hy (hax.symm.trans hby)

theorem completions_append (s : Device) (more : List Happening) (k : Nat) :
    ({ s with happened := s.happened ++ more } : Device).completions k =
      s.completions k + (more.filterMap callee).count k := by
  unfold completions
  rw [filterMap_append, count_append]

theorem Carries.mono {s s' : Device} {k n : Nat} {r : PortalReply} (h : Carries decode s k r n) {sends : List (Option Accepted)}
    {heard : List Frame} (hs : s'.sends = s.sends ++ sends) (hh : s'.heard = s.heard ++ heard) : Carries decode s' k r n := by
  obtain ⟨a, hd, ha, hn, hrest⟩ := h
  have hfor : framesFor s'.heard a n = framesFor s.heard a n := by
    unfold framesFor
    rw [hh, take_append_of_le_length hn]
  refine ⟨a, hd, ?_, ?_, by rw [hfor]; exact hrest⟩
  · rw [hs, getElem?_append_left (List.getElem?_eq_some_iff.1 ha).1]
    exact ha
  · rw [hh, length_append]
    omega

/-! ## What each operation keeps -/

theorem Sound.finish {s : Device} (h : Sound decode s) {id : UInt32} {p : Pending} (hp : (id, p) ∈ s.pending)
    {outcome : Outcome} (hr : ∀ r, outcome = .success r → r.type = Portal.result → Carries decode s p.send r s.heard.length) :
    Sound decode (s.finish id p outcome) := by
  have hmem {x : UInt32 × Pending} : x ∈ (s.finish id p outcome).pending ↔ x ∈ s.pending ∧ x.1 ≠ id := mem_remove
  have hsend {x : UInt32 × Pending} (hx : x ∈ s.pending) : x.1 ≠ id ↔ x.2.send ≠ p.send :=
    not_congr ⟨fun he => by rw [h.unique hx hp he], fun he => congrArg Prod.fst (h.unique_send hx hp he)⟩
  obtain ⟨a, ha, -⟩ := h.ids _ hp
  have hlt := (List.getElem?_eq_some_iff.1 ha).1
  have hcount (k : Nat) : (s.finish id p outcome).completions k = s.completions k + if k = p.send then 1 else 0 := by
    refine (completions_append s [.called p.send outcome s.heard.length] k).trans (congrArg _ ?_)
    change List.count k [p.send] = _
    rw [count_singleton]
    exact if_congr (by rw [beq_iff_eq, eq_comm]) rfl rfl
  refine ⟨?_, fun x hx => h.ids x (hmem.1 hx).1, fun k hk hall => ?_, fun x hx => ?_, fun k hk => ?_, fun t ht => ?_,
    fun k hk => ?_, fun k r n hc ht => ?_⟩
  · exact h.keys.sublist (filter_sublist.map _)
  · rw [hcount]
    by_cases hkp : k = p.send
    · rw [hkp, if_pos rfl, h.owing _ hp]
    · rw [if_neg hkp, h.done k hk (fun x hx he => hall x (hmem.2 ⟨hx, (hsend hx).2 (he ▸ hkp)⟩) he)]
  · obtain ⟨hx, hne⟩ := hmem.1 hx
    rw [hcount, if_neg ((hsend hx).1 hne), h.owing x hx]
  · have hle : s.sends.length ≤ k := hk
    have hltp : p.send < s.sends.length := hlt
    rw [hcount, if_neg (by omega), h.unasked k hle]
  · obtain ⟨hts, hne⟩ := mem_filter.1 ht
    obtain ⟨q, hq, he⟩ := h.timers t hts
    refine ⟨q, hmem.2 ⟨hq, (hsend hq).2 ?_⟩, he⟩
    rw [show (t.id, q).2.send = t.send from he]
    exact of_decide_eq_true hne
  · obtain ⟨hks, hall⟩ := h.fired k hk
    exact ⟨hks, fun x hx => hall x (hmem.1 hx).1⟩
  · rcases mem_append.1 hc with hold | hnew
    · exact (h.results k r n hold ht).mono (append_nil _).symm (append_nil _).symm
    · obtain ⟨rfl, rfl, rfl⟩ := Happening.called.inj (mem_singleton.1 hnew)
      exact (hr r rfl ht).mono (append_nil _).symm (append_nil _).symm

theorem Sound.set {s : Device} (h : Sound decode s) {id : UInt32} {p q : Pending} (hp : (id, p) ∈ s.pending)
    (hq : q.send = p.send) : Sound decode (s.set id q) := by
  have hmem {x : UInt32 × Pending} : x ∈ (s.set id q).pending ↔ x = (id, q) ∨ x ∈ s.pending ∧ x.1 ≠ id := by
    unfold Device.set
    rw [mem_cons, mem_filter, decide_eq_true_iff]
  have hsends (k : Nat) : (∀ x ∈ (s.set id q).pending, x.2.send ≠ k) ↔ ∀ x ∈ s.pending, x.2.send ≠ k := by
    refine ⟨fun hall x hx => ?_, fun hall x hx => ?_⟩
    · by_cases hxi : x.1 = id
      · rw [h.unique hx hp hxi, ← hq]
        exact hall _ (hmem.2 (Or.inl rfl))
      · exact hall x (hmem.2 (Or.inr ⟨hx, hxi⟩))
    · rcases hmem.1 hx with rfl | ⟨hx, -⟩
      · rw [hq]
        exact hall _ hp
      · exact hall x hx
  refine ⟨?_, fun x hx => ?_, fun k hk hall => h.done k hk ((hsends k).1 hall), fun x hx => ?_, h.unasked,
    fun t ht => ?_, fun k hk => ?_, fun k r n hc ht => ?_⟩
  · refine nodup_cons.2 ⟨fun hin => ?_, h.keys.sublist (filter_sublist.map _)⟩
    obtain ⟨x, hx, he⟩ := mem_map.1 hin
    exact of_decide_eq_true (mem_filter.1 hx).2 he
  · rcases hmem.1 hx with rfl | ⟨hx, -⟩
    · have := h.ids _ hp
      rw [← hq] at this
      exact this
    · exact h.ids x hx
  · rcases hmem.1 hx with rfl | ⟨hx, -⟩
    · exact (congrArg s.completions hq).trans (h.owing _ hp)
    · exact h.owing x hx
  · obtain ⟨p', hp', he⟩ := h.timers t ht
    by_cases hti : t.id = id
    · refine ⟨q, hmem.2 (Or.inl (by rw [hti])), ?_⟩
      rw [hq, ← he, show p' = p from congrArg Prod.snd (h.unique hp' hp hti)]
    · exact ⟨p', hmem.2 (Or.inr ⟨hp', hti⟩), he⟩
  · exact ⟨(h.fired k hk).1, (hsends k).2 (h.fired k hk).2⟩
  · exact (h.results k r n hc ht).mono (append_nil _).symm (append_nil _).symm

theorem Sound.of_same {s s' : Device} (h : Sound decode s) (hp : s'.pending = s.pending) (ht : s'.timers = s.timers)
    (hs : s'.sends = s.sends) (hf : s'.fired = s.fired) {heard : List Frame} (hh : s'.heard = s.heard ++ heard)
    (hc : ∀ k, s'.completions k = s.completions k)
    (hr : ∀ k r n, Happening.called k (.success r) n ∈ s'.happened → Happening.called k (.success r) n ∈ s.happened) :
    Sound decode s' where
  keys := by rw [hp]; exact h.keys
  ids x hx := by
    rw [hp] at hx
    obtain ⟨a, ha, hid, hle⟩ := h.ids x hx
    exact ⟨a, by rw [hs]; exact ha, hid, by rw [hh, length_append]; omega⟩
  done k := by rw [hc, hs, hp]; exact h.done k
  owing x := by rw [hc, hp]; exact h.owing x
  unasked k := by rw [hc, hs]; exact h.unasked k
  timers := by rw [ht, hp]; exact h.timers
  fired := by rw [hf, hs, hp]; exact h.fired
  results k r n hin htype := (h.results k r n (hr k r n hin) htype).mono (by rw [hs, append_nil]) hh

theorem fill_placed : ∀ (es : List Element) (ws : List Waiting), ∀ x ∈ (fill es ws).2.2, ∃ k, x = .placed k
  | [], _, _, h           => nomatch h
  | _ :: _, [], _, h      => nomatch h
  | e :: es, w :: ws, x, h => by
    rcases mem_append.1 h with hx | hx
    · split at hx
      · exact ⟨w.send, mem_singleton.1 hx⟩
      · exact nomatch hx
    · exact fill_placed es ws x hx

theorem Sound.flushRequests {s : Device} (h : Sound decode s) : Sound decode s.flushRequests := by
  refine h.of_same rfl rfl rfl rfl (append_nil _).symm (fun k => ?_) (fun k r n hin => ?_)
  · refine (completions_append s _ k).trans ?_
    have hnone : (fill s.requestElements s.waiting).2.2.filterMap callee = [] :=
      filterMap_eq_nil_iff.2 fun x hx => by
        obtain ⟨j, rfl⟩ := fill_placed _ _ x hx
        rfl
    rw [hnone]
    rfl
  · refine (mem_append.1 hin).resolve_right (fun hx => ?_)
    obtain ⟨j, hj⟩ := fill_placed _ _ _ hx
    exact nomatch hj

theorem Sound.refuse {s : Device} (h : Sound decode s) (f : PortalFailure) :
    Sound decode ({ s with sends := s.sends ++ [none] }.call s.sends.length (.failure f)) := by
  have hcount (k : Nat) : ({ s with sends := s.sends ++ [none] }.call s.sends.length (.failure f)).completions k =
      s.completions k + if k = s.sends.length then 1 else 0 := by
    refine (completions_append s [.called s.sends.length (.failure f) s.heard.length] k).trans (congrArg _ ?_)
    change List.count k [s.sends.length] = _
    rw [count_singleton]
    exact if_congr (by rw [beq_iff_eq, eq_comm]) rfl rfl
  have hlen : ({ s with sends := s.sends ++ [none] }.call s.sends.length (.failure f)).sends.length =
      s.sends.length + 1 := length_append
  refine ⟨h.keys, fun x hx => ?_, fun k hk hall => ?_, fun x hx => ?_, fun k hk => ?_, h.timers, fun k hk => ?_,
    fun k r n hc ht => ?_⟩
  · obtain ⟨a, ha, hrest⟩ := h.ids x hx
    refine ⟨a, ?_, hrest⟩
    change (s.sends ++ [none])[_]? = _
    rw [getElem?_append_left (List.getElem?_eq_some_iff.1 ha).1]
    exact ha
  · rw [hlen] at hk
    rw [hcount]
    by_cases hkl : k = s.sends.length
    · rw [if_pos hkl, h.unasked k (Nat.le_of_eq hkl.symm)]
    · rw [if_neg hkl, h.done k (by omega) hall]
  · obtain ⟨a, ha, -⟩ := h.ids x hx
    have := (List.getElem?_eq_some_iff.1 ha).1
    rw [hcount, if_neg (by omega), h.owing x hx]
  · rw [hlen] at hk
    rw [hcount, if_neg (by omega), h.unasked k (by omega)]
  · refine ⟨?_, (h.fired k hk).2⟩
    have := (h.fired k hk).1
    rw [hlen]
    omega
  · rcases mem_append.1 hc with hold | hnew
    · exact (h.results k r n hold ht).mono rfl (append_nil _).symm
    · exact nomatch mem_singleton.1 hnew

theorem Sound.accept {s : Device} (h : Sound decode s) {id next : UInt32} (hfree : ∀ x ∈ s.pending, x.1 ≠ id) (type : UInt16)
    (timeout : Rat) (waiting : List Waiting) :
    Sound decode (({ s with
      sends := s.sends ++ [some (Accepted.mk id s.heard.length)]
      nextID := next
      timers := Timer.mk s.sends.length id timeout :: s.timers
      waiting } : Device).set id { type, send := s.sends.length }) := by
  generalize hs' : (({ s with
      sends := s.sends ++ [some (Accepted.mk id s.heard.length)]
      nextID := next
      timers := Timer.mk s.sends.length id timeout :: s.timers
      waiting } : Device).set id { type, send := s.sends.length }) = s'
  have hp : s'.pending = (id, { type, send := s.sends.length }) :: s.pending := by
    rw [← hs']
    refine congrArg _ (filter_eq_self.2 fun x hx => decide_eq_true (hfree x hx))
  have hsends : s'.sends = s.sends ++ [some (Accepted.mk id s.heard.length)] := by rw [← hs']; rfl
  have hheard : s'.heard = s.heard := by rw [← hs']; rfl
  have hlen : s'.sends.length = s.sends.length + 1 := by rw [hsends, length_append]; rfl
  have hcount (k : Nat) : s'.completions k = s.completions k := by rw [← hs']; rfl
  have hlt {x : UInt32 × Pending} (hx : x ∈ s.pending) : x.2.send < s.sends.length := by
    obtain ⟨a, ha, -⟩ := h.ids x hx
    exact (List.getElem?_eq_some_iff.1 ha).1
  refine ⟨?_, fun x hx => ?_, fun k hk hall => ?_, fun x hx => ?_, fun k hk => ?_, fun t ht => ?_, fun k hk => ?_,
    fun k r n hc ht => ?_⟩
  · rw [hp, map_cons]
    refine nodup_cons.2 ⟨fun hin => ?_, h.keys⟩
    obtain ⟨x, hx, he⟩ := mem_map.1 hin
    exact hfree x hx he
  · rw [hp] at hx
    rcases mem_cons.1 hx with rfl | hx
    · refine ⟨⟨id, s.heard.length⟩, ?_, rfl, Nat.le_of_eq (congrArg _ hheard.symm)⟩
      rw [hsends]
      exact getElem?_concat_length
    · obtain ⟨a, ha, hid, hle⟩ := h.ids x hx
      exact ⟨a, by rw [hsends, getElem?_append_left (hlt hx), ha], hid, by rw [hheard]; exact hle⟩
  · rw [hp] at hall
    have hne : s.sends.length ≠ k := hall _ mem_cons_self
    rw [hlen] at hk
    rw [hcount]
    exact h.done k (by omega) (fun x hx => hall x (mem_cons_of_mem _ hx))
  · rw [hp] at hx
    rw [hcount]
    rcases mem_cons.1 hx with rfl | hx
    · exact h.unasked _ (Nat.le_refl _)
    · exact h.owing x hx
  · rw [hlen] at hk
    rw [hcount]
    exact h.unasked k (by omega)
  · rw [hp]
    rw [show s'.timers = Timer.mk s.sends.length id timeout :: s.timers by rw [← hs']; rfl] at ht
    rcases mem_cons.1 ht with rfl | ht
    · exact ⟨_, mem_cons_self, rfl⟩
    · obtain ⟨p, hpp, he⟩ := h.timers t ht
      exact ⟨p, mem_cons_of_mem _ hpp, he⟩
  · rw [show s'.fired = s.fired by rw [← hs']; rfl] at hk
    obtain ⟨hks, hall⟩ := h.fired k hk
    refine ⟨by omega, fun x hx => ?_⟩
    rw [hp] at hx
    rcases mem_cons.1 hx with rfl | hx
    · exact Nat.ne_of_gt hks
    · exact hall x hx
  · rw [show s'.happened = s.happened by rw [← hs']; rfl] at hc
    exact (h.results k r n hc ht).mono hsends (by rw [hheard, append_nil])

theorem Sound.send {s : Device} (h : Sound decode s) (type : UInt16) (payload : Bytes) (timeout : Rat)
    (hfresh : Fresh s (.send type payload timeout)) : Sound decode (s.send type payload timeout) := by
  unfold Device.send
  dsimp only
  split
  · exact h.refuse _
  rename_i hd
  split
  · exact h.refuse _
  rename_i ha
  split
  · exact h.refuse _
  · rename_i hfit
    rw [Bool.not_eq_true', Bool.not_eq_false] at hd ha
    exact (h.accept (get_eq_none (hfresh ⟨hd, ha, by omega⟩)) type timeout _).flushRequests

theorem Sound.fire {s : Device} (h : Sound decode s) {t : Timer} (ht : t ∈ s.timers) : Sound decode (s.fire t) := by
  obtain ⟨p, hp, he⟩ := h.timers t ht
  have hget : s.get t.id = some p := by
    cases hg : s.get t.id with
    | none => exact absurd rfl (get_eq_none hg _ hp)
    | some q => rw [show q = p from congrArg Prod.snd (h.unique (get_mem hg) hp rfl)]
  have hfinish := @Sound.finish decode s h t.id p hp (.failure (.timedOut t.timeout)) (fun r hr => by cases hr)
  have hfire : s.fire t = { s.finish t.id p (.failure (.timedOut t.timeout)) with fired := s.fired ++ [t.send] } := by
    unfold Device.fire
    dsimp only
    split
    · rename_i hnone
      cases hget.symm.trans hnone
    · rename_i q hq
      cases hget.symm.trans hq
      rw [← he]
      rfl
  rw [hfire]
  refine ⟨hfinish.keys, hfinish.ids, hfinish.done, hfinish.owing, hfinish.unasked, hfinish.timers, fun k hk => ?_, hfinish.results⟩
  rcases mem_append.1 hk with hold | hnew
  · exact hfinish.fired k hold
  rw [mem_singleton.1 hnew, ← he]
  obtain ⟨a, ha, -⟩ := h.ids _ hp
  refine ⟨(List.getElem?_eq_some_iff.1 ha).1, fun x hx hsend => ?_⟩
  obtain ⟨hx, hne⟩ := mem_remove.1 hx
  exact hne (congrArg Prod.fst (h.unique_send hx hp hsend))

theorem Sound.failAll {s : Device} (h : Sound decode s) (f : PortalFailure) : Sound decode (s.failAll f) := by
  have hnodup : (s.pending.map (fun x => x.2.send)).Nodup :=
    (List.Nodup.of_map _ h.keys).map_on (fun x hx y hy he => h.unique_send hx hy he)
  have hcount (k : Nat) : (s.failAll f).completions k = s.completions k + if k ∈ s.pending.map (fun x => x.2.send) then 1 else 0 := by
    refine (completions_append s _ k).trans (congrArg _ ?_)
    rw [filterMap_map]
    change (s.pending.filterMap (fun x => some x.2.send)).count k = _
    rw [filterMap_eq_map', hnodup.count]
  refine ⟨nodup_nil, fun x hx => (nomatch hx), fun k hk _ => ?_, fun x hx => (nomatch hx), fun k hk => ?_, fun t ht => ?_,
    fun k hk => ⟨(h.fired k hk).1, fun x hx => (nomatch hx)⟩, fun k r n hc ht => ?_⟩
  · rw [hcount]
    by_cases hin : k ∈ s.pending.map (fun x => x.2.send)
    · obtain ⟨x, hx, he⟩ := mem_map.1 hin
      rw [if_pos hin, ← he, h.owing x hx]
    · rw [if_neg hin, h.done k hk (fun x hx he => hin (mem_map.2 ⟨x, hx, he⟩))]
  · have hle : s.sends.length ≤ k := hk
    rw [hcount, if_neg, h.unasked k hle]
    rintro hin
    obtain ⟨x, hx, he⟩ := mem_map.1 hin
    obtain ⟨a, ha, -⟩ := h.ids x hx
    have := (List.getElem?_eq_some_iff.1 ha).1
    omega
  · obtain ⟨hts, hall⟩ := mem_filter.1 ht
    obtain ⟨p, hp, he⟩ := h.timers t hts
    exact absurd he.symm (of_decide_eq_true hall _ hp)
  · rcases mem_append.1 hc with hold | hnew
    · exact (h.results k r n hold ht).mono (append_nil _).symm (append_nil _).symm
    · obtain ⟨x, -, hx⟩ := mem_map.1 hnew
      exact nomatch hx

/-! ## What is gathered of a result -/

theorem bodies_append (fs gs : List Frame) : bodies (fs ++ gs) = bodies fs ++ bodies gs := flatMap_append

theorem headerIn_concat (fs : List Frame) (f : Frame) :
    headerIn (fs ++ [f]) = if f.type = Portal.result then some (headerOf f.payload) else headerIn fs := by
  unfold headerIn
  rw [filter_append, filter_cons, filter_nil]
  split
  · rename_i h
    rw [if_pos (of_decide_eq_true h), getLast?_append]
    rfl
  · rename_i h
    rw [if_neg (fun hf => h (decide_eq_true hf)), append_nil]

theorem framesFor_concat (heard : List Frame) (a : Accepted) (f : Frame) (h : a.heard ≤ heard.length) :
    framesFor (heard ++ [f]) a (heard ++ [f]).length =
      framesFor heard a heard.length ++ if f.id = a.id then [f] else [] := by
  unfold framesFor
  rw [take_length, take_length, drop_append_of_le_length h, filter_append, filter_cons,
    filter_nil]
  exact congrArg _ (if_congr (by rw [decide_eq_true_iff]) rfl rfl)

theorem Gathered.of_subset {s s' : Device} (h : Sound decode s) (g : Gathered s) (hp : ∀ x ∈ s'.pending, x ∈ s.pending)
    {sends : List (Option Accepted)} (hs : s'.sends = s.sends ++ sends) (hh : s'.heard = s.heard) : Gathered s' := by
  refine ⟨fun x hx a ha => ?_⟩
  obtain ⟨b, hb, -⟩ := h.ids x (hp x hx)
  rw [hs, getElem?_append_left (List.getElem?_eq_some_iff.1 hb).1] at ha
  rw [hh]
  exact g.whole x (hp x hx) a ha

/-- A frame leaves alone what is pending under another id, and what it carries nothing for. -/
theorem Gathered.other {s : Device} (h : Sound decode s) (g : Gathered s) {f : Frame} {x : UInt32 × Pending}
    (hx : x ∈ s.pending) (hf : x.1 ≠ f.id ∨ f.body = [] ∧ f.type ≠ Portal.result) {a : Accepted}
    (ha : s.sends[x.2.send]? = some (some a)) :
    x.2.body = bodies (framesFor (s.heard ++ [f]) a (s.heard ++ [f]).length) ∧
      x.2.result = headerIn (framesFor (s.heard ++ [f]) a (s.heard ++ [f]).length) := by
  obtain ⟨b, hb, hid, hle⟩ := h.ids x hx
  rw [hb] at ha
  obtain rfl := Option.some.inj (Option.some.inj ha)
  obtain ⟨hbody, hresult⟩ := g.whole x hx b hb
  rw [framesFor_concat _ _ _ hle]
  rcases hf with hne | ⟨hnil, htype⟩
  · rw [if_neg (fun he => hne (hid.symm.trans he.symm)), append_nil]
    exact ⟨hbody, hresult⟩
  split
  · rw [bodies_append, headerIn_concat, if_neg htype, show bodies [f] = f.body ++ [] from rfl, hnil, append_nil,
      append_nil]
    exact ⟨hbody, hresult⟩
  · rw [append_nil]
    exact ⟨hbody, hresult⟩

theorem Gathered.set {s : Device} (h : Sound decode s) (g : Gathered s) {f : Frame} {p : Pending} (hp : (f.id, p) ∈ s.pending)
    {q : Pending} (hsend : q.send = p.send) (hbody : q.body = p.body ++ f.body)
    (hresult : q.result = if f.type = Portal.result then some (headerOf f.payload) else p.result) (received : Nat) :
    Gathered ({ s with received, heard := s.heard ++ [f] }.set f.id q) := by
  refine ⟨fun x hx a ha => ?_⟩
  rcases mem_cons.1 hx with rfl | hx
  · change s.sends[q.send]? = _ at ha
    rw [hsend] at ha
    obtain ⟨b, hb, hid, hle⟩ := h.ids _ hp
    obtain rfl : b = a := Option.some.inj (Option.some.inj (hb.symm.trans ha))
    obtain ⟨hbody', hresult'⟩ := g.whole _ hp b ha
    change q.body = bodies (framesFor (s.heard ++ [f]) b (s.heard ++ [f]).length) ∧
      q.result = headerIn (framesFor (s.heard ++ [f]) b (s.heard ++ [f]).length)
    rw [framesFor_concat _ _ _ hle, if_pos hid.symm, bodies_append, headerIn_concat, hbody, hresult, ← hbody', ← hresult']
    exact ⟨congrArg _ (append_nil _).symm, rfl⟩
  · obtain ⟨hx, hne⟩ := mem_filter.1 hx
    exact g.other h hx (Or.inl (of_decide_eq_true hne)) ha

theorem finishIfComplete_kept {s : Device} (h : Sound decode s) (g : Gathered s) {id : UInt32} {p : Pending}
    (hp : (id, p) ∈ s.pending) : Sound decode (s.finishIfComplete decode id p) ∧ Gathered (s.finishIfComplete decode id p) := by
  unfold finishIfComplete
  split
  · rename_i r hr
    split
    · rename_i hle
      obtain ⟨a, ha, -, hheard⟩ := h.ids _ hp
      obtain ⟨hbody, hresult⟩ := g.whole _ hp a ha
      refine ⟨h.finish hp (fun reply hreply _ => ?_), g.of_subset h (fun x hx => (mem_remove.1 hx).1) (append_nil _).symm rfl⟩
      rw [← Outcome.success.inj hreply, hbody]
      exact ⟨a, r, ha, Nat.le_refl _, hresult.symm.trans hr, by rw [← hbody]; exact hle, rfl⟩
    · exact ⟨h, g⟩
  · exact ⟨h, g⟩

theorem gather_kept {s : Device} (h : Sound decode s) (g : Gathered s) {f : Frame} {p : Pending} (hp : (f.id, p) ∈ s.pending)
    (q : Pending) (hsend : q.send = p.send) (hbody : q.body = p.body ++ f.body)
    (hresult : q.result = if f.type = Portal.result then some (headerOf f.payload) else p.result) (received : Nat) :
    Sound decode (({ s with received, heard := s.heard ++ [f] }.set f.id q).finishIfComplete decode f.id q) ∧
      Gathered (({ s with received, heard := s.heard ++ [f] }.set f.id q).finishIfComplete decode f.id q) := by
  have h1 : Sound decode { s with received, heard := s.heard ++ [f] } :=
    h.of_same rfl rfl rfl rfl rfl (fun _ => rfl) (fun _ _ _ hin => hin)
  exact finishIfComplete_kept (h1.set hp hsend) (g.set h hp hsend hbody hresult received) mem_cons_self

theorem handle_kept {s : Device} (h : Sound decode s) (g : Gathered s) (data : Bytes) :
    Sound decode (s.handle decode data) ∧ Gathered (s.handle decode data) := by
  unfold handle
  split
  · exact ⟨h, g⟩
  rename_i f _
  have h1 : Sound decode { s with received := s.received + 1, heard := s.heard ++ [f] } :=
    h.of_same rfl rfl rfl rfl rfl (fun _ => rfl) (fun _ _ _ hin => hin)
  dsimp only
  split
  · rename_i hhello
    refine ⟨h.of_same rfl rfl rfl rfl rfl (fun _ => rfl) (fun _ _ _ hin => hin), ⟨fun x hx a ha => ?_⟩⟩
    refine g.other h hx (Or.inr ⟨?_, ?_⟩) ha
    · unfold Frame.body
      rw [hhello, if_neg (by decide), if_neg (by decide)]
    · rw [hhello]
      decide
  · split
    · rename_i hnone
      exact ⟨h1, ⟨fun x hx a ha => g.other h hx (Or.inl (get_eq_none (s := s) hnone x hx)) ha⟩⟩
    rename_i p hget
    have hp : (f.id, p) ∈ s.pending := get_mem (s := s) hget
    have hfinish (outcome : Outcome) (ho : ∀ r, outcome = .success r → r.type ≠ Portal.result) :
        Sound decode (Device.finish { s with received := s.received + 1, heard := s.heard ++ [f] } f.id p outcome) ∧
          Gathered (Device.finish { s with received := s.received + 1, heard := s.heard ++ [f] } f.id p outcome) := by
      refine ⟨h1.finish hp (fun r hr ht => absurd ht (ho r hr)), ⟨fun x hx a ha => ?_⟩⟩
      obtain ⟨hx, hne⟩ := mem_remove.1 hx
      exact g.other h hx (Or.inl hne) ha
    unfold answer
    split
    · rename_i htype
      refine hfinish _ (fun r hr => ?_)
      rw [← Outcome.success.inj hr]
      change f.type ≠ Portal.result
      rcases htype with ht | ht <;> rw [ht] <;> decide
    split
    · exact hfinish _ (fun r hr => nomatch hr)
    split
    · rename_i hresult
      split
      · exact hfinish _ (fun r hr => nomatch hr)
      · exact gather_kept h g hp { p with result := some (headerOf f.payload), body := p.body ++ f.payload.drop 16 } rfl
          (by rw [Frame.body_result hresult]) (if_pos hresult).symm _
    rename_i hresult
    split
    · rename_i hmore
      split
      · exact hfinish _ (fun r hr => nomatch hr)
      · exact gather_kept h g hp { p with body := p.body ++ f.payload } rfl
          (by rw [Frame.body_more hmore]) (if_neg hresult).symm _
    · exact hfinish _ (fun r hr => nomatch hr)

/-! ## Every event -/

theorem Gathered.send {s : Device} (h : Sound decode s) (g : Gathered s) (type : UInt16) (payload : Bytes) (timeout : Rat) :
    Gathered (s.send type payload timeout) := by
  have hrefuse (f : PortalFailure) : Gathered ({ s with sends := s.sends ++ [none] }.call s.sends.length (.failure f)) :=
    g.of_subset h (fun _ hx => hx) rfl rfl
  unfold Device.send
  dsimp only
  split
  · exact hrefuse _
  split
  · exact hrefuse _
  split
  · exact hrefuse _
  refine ⟨fun x hx a ha => ?_⟩
  change (s.sends ++ [some (Accepted.mk s.nextID s.heard.length)])[x.2.send]? = some (some a) at ha
  rcases mem_cons.1 hx with rfl | hx
  · rw [show (_ : UInt32 × Pending).2.send = s.sends.length from rfl, getElem?_concat_length] at ha
    rw [← Option.some.inj (Option.some.inj ha)]
    have hnone : framesFor s.heard ⟨s.nextID, s.heard.length⟩ s.heard.length = [] := by
      unfold framesFor
      rw [take_length, drop_length]
      rfl
    change [] = bodies (framesFor s.heard _ s.heard.length) ∧ none = headerIn (framesFor s.heard _ s.heard.length)
    rw [hnone]
    exact ⟨rfl, rfl⟩
  · have hx := (mem_filter.1 hx).1
    obtain ⟨b, hb, -⟩ := h.ids x hx
    rw [getElem?_append_left (List.getElem?_eq_some_iff.1 hb).1] at ha
    exact g.whole x hx a ha

theorem step_kept {s s' : Device} (h : Sound decode s) (g : Gathered s) {e : Event} (hfresh : Fresh s e)
    (hs : step decode s e = some s') : Sound decode s' ∧ Gathered s' := by
  cases e with
  | created =>
    rw [← Option.some.inj hs]
    exact ⟨h.of_same rfl rfl rfl rfl (append_nil _).symm (fun _ => rfl) (fun _ _ _ hin => hin),
      g.of_subset h (fun _ hx => hx) (append_nil _).symm rfl⟩
  | send type payload timeout =>
    rw [← Option.some.inj hs]
    exact ⟨h.send type payload timeout hfresh, g.send h type payload timeout⟩
  | fire k =>
    obtain ⟨t, ht, rfl⟩ := Option.map_eq_some_iff.1 hs
    refine ⟨h.fire (mem_of_find?_eq_some ht), @Gathered.of_subset decode s _ h g (fun x hx => ?_) [] ?_ ?_⟩
    · unfold Device.fire at hx
      dsimp only at hx
      split at hx
      · exact hx
      · exact (mem_filter.1 hx).1
    · unfold Device.fire
      dsimp only
      split <;> exact (append_nil _).symm
    · unfold Device.fire
      dsimp only
      split <;> rfl
  | frame data =>
    rw [← Option.some.inj hs]
    exact handle_kept h g data
  | posted elements =>
    rw [← Option.some.inj hs]
    have h1 : Sound decode { s with requestElements := s.requestElements ++ elements } :=
      h.of_same rfl rfl rfl rfl (append_nil _).symm (fun _ => rfl) (fun _ _ _ hin => hin)
    exact ⟨h1.flushRequests, g.of_subset h (fun _ hx => hx) (append_nil _).symm rfl⟩
  | reset =>
    rw [← Option.some.inj hs]
    have h1 : Sound decode { s with alive := false, requestElements := [] } :=
      h.of_same rfl rfl rfl rfl (append_nil _).symm (fun _ => rfl) (fun _ _ _ hin => hin)
    exact ⟨h1.failAll _, ⟨fun x hx => nomatch hx⟩⟩

/-- **Each completion is called once**, by every run in which no id is given out that is pending still; and a RUN result
carries what was sent for its id. -/
theorem answered_run (decode : Bytes → String) {es : List Event} {s : Device}
    (hfresh : Runs.Along (step decode) Fresh {} es) (hrun : Runs.run (step decode) {} es = some s) : Answered decode s := by
  have hkept : Sound decode s ∧ Gathered s := Runs.run_inv (I := fun s => Sound decode s ∧ Gathered s)
    (fun s e s' hs hf he => step_kept hs.1 hs.2 hf he) ⟨sound_start, ⟨fun x hx => nomatch hx⟩⟩ hfresh hrun
  exact hkept.1.answered

/-- `hello`, from the guest. -/
def helloData : Bytes := le32 magic ++ le16 version ++ le16 hello ++ le32 0 ++ le32 0

def briefRun : List Event := [.created, .frame helloData, .send 2 [] 0, .fire 0, .reset]

theorem answered_run_briefRun : ∃ s, Runs.run (step fun _ => "") {} briefRun = some s ∧ Answered (fun _ => "") s := by
  refine ⟨_, rfl, answered_run (fun _ => "") ?_ (rfl : Runs.run (step fun _ => "") {} briefRun = some _)⟩
  refine ⟨trivial, fun s1 h1 => ⟨trivial, fun s2 h2 => ⟨fun _ => ?_, fun s3 _ => ⟨trivial, fun s4 _ => ⟨trivial, fun _ _ => trivial⟩⟩⟩⟩⟩
  rw [← Option.some.inj h2, ← Option.some.inj h1]
  decide

/-! ## An id that comes round -/

def round (k : Nat) : List Event := [.send 2 [] 0, .fire k]

/-- One request, and `n` that time out while it is pending. -/
structure Stage (n : Nat) (s : Device) : Prop where
  up : s.device = true ∧ s.alive = true ∧ s.requestElements = []
  sends : s.sends.length = n + 1
  nextID : s.nextID = if n + 2 = 2 ^ 32 then 1 else UInt32.ofNat (n + 2)
  pending : s.pending = [(1, { type := 2, send := 0 })]
  timers : s.timers = [⟨0, 1, 0⟩]
  quiet : s.completions 0 = 0

theorem send_up {s : Device} (h : s.device = true ∧ s.alive = true ∧ s.requestElements = []) :
    ∃ waiting, s.send 2 [] 0 = { s with
      waiting
      sends := s.sends ++ [some (Accepted.mk s.nextID s.heard.length)]
      nextID := if s.nextID + 1 = 0 then 1 else s.nextID + 1
      timers := ⟨s.sends.length, s.nextID, 0⟩ :: s.timers
      pending := (s.nextID, { type := 2, send := s.sends.length }) :: s.pending.filter (fun x => x.1 ≠ s.nextID) } := by
  obtain ⟨hd, ha, he⟩ := h
  refine ⟨s.waiting ++ [Waiting.mk s.nextID (requestFrame 2 s.nextID []) s.sends.length], ?_⟩
  unfold Device.send
  rw [hd, ha, if_neg (by decide), if_neg (by decide), if_neg (by decide)]
  unfold flushRequests Device.set
  dsimp only
  rw [he]
  unfold fill
  dsimp only
  rw [Nat.sub_self, append_nil]
  rfl

theorem fire_found {s : Device} {t : Timer} {p : Pending} (hfind : s.timers.find? (fun x => x.send = t.send) = some t)
    (hget : s.pending.lookup t.id = some p) : step decode s (.fire t.send) = some { s with
      timers := s.timers.filter (fun x => x.send ≠ t.send)
      pending := s.pending.filter (fun x => x.1 ≠ t.id)
      fired := s.fired ++ [t.send]
      happened := s.happened ++ [.called p.send (.failure (.timedOut t.timeout)) s.heard.length] } := by
  change (s.timers.find? (fun x => x.send = t.send)).map s.fire = _
  rw [hfind]
  refine congrArg some ?_
  unfold fire cancel get remove call
  dsimp only
  rw [hget]

theorem run_round {s s' : Device} {k : Nat} (h : step decode (s.send 2 [] 0) (.fire k) = some s') :
    Runs.run (step decode) s (round k) = some s' := by
  change (step decode (s.send 2 [] 0) (.fire k)).bind some = some s'
  rw [h]
  rfl

theorem stage_succ (decode : Bytes → String) {n : Nat} (hn : n + 2 < 2 ^ 32) {s : Device} (h : Stage n s) :
    ∃ s', Runs.run (step decode) s (round (n + 1)) = some s' ∧ Stage (n + 1) s' := by
  obtain ⟨waiting, hsend⟩ := send_up h.up
  have hid : s.nextID = UInt32.ofNat (n + 2) := h.nextID.trans (if_neg (by omega))
  have hne : (1 : UInt32) ≠ s.nextID := fun he => by
    have := congrArg UInt32.toNat (he.trans hid)
    rw [UInt32.toNat_ofNat_of_lt' hn] at this
    change 1 = n + 2 at this
    omega
  have hfilter : s.pending.filter (fun x => x.1 ≠ s.nextID) = s.pending := by
    rw [h.pending, filter_cons, if_pos (decide_eq_true hne)]
    rfl
  rw [hfilter, h.sends, h.pending, h.timers] at hsend
  have hfire := @fire_found decode (s.send 2 [] 0) ⟨n + 1, s.nextID, 0⟩ { type := 2, send := n + 1 }
    (by rw [hsend, find?_cons, decide_eq_true rfl]) (by rw [hsend, lookup_cons, beq_self_eq_true])
  refine ⟨_, run_round hfire, ?_⟩
  · rw [hsend]
    refine ⟨h.up, ?_, ?_, ?_, ?_, ?_⟩
    · dsimp only
      rw [length_append, h.sends]
      rfl
    · have hsucc : s.nextID + 1 = UInt32.ofNat (n + 1 + 2) := by
        rw [hid]
        exact (UInt32.ofNat_add (n + 2) 1).symm
      dsimp only
      rw [hsucc]
      refine if_congr ⟨fun hz => ?_, fun hz => by rw [hz]; rfl⟩ rfl rfl
      by_contra hlt
      have := congrArg UInt32.toNat hz
      rw [UInt32.toNat_ofNat_of_lt' (show n + 1 + 2 < 2 ^ 32 by omega)] at this
      exact nomatch this
    · dsimp only
      rw [filter_cons, if_neg (by simp), filter_cons, if_pos (decide_eq_true hne)]
      rfl
    · dsimp only
      rw [filter_cons, if_neg (by simp), filter_cons, if_pos (decide_eq_true (Nat.zero_ne_add_one n))]
      rfl
    · refine (completions_append s _ 0).trans ?_
      rw [h.quiet]
      rfl

theorem stages (decode : Bytes → String) {s : Device} (h : Stage 0 s) : ∀ n : Nat, n + 2 ≤ 2 ^ 32 →
    ∃ s', Runs.run (step decode) s ((List.range n).flatMap (fun i => round (i + 1))) = some s' ∧ Stage n s'
  | 0, _      => ⟨s, rfl, h⟩
  | n + 1, hn => by
    obtain ⟨s', hrun, hs'⟩ := stages decode h n (by omega)
    obtain ⟨s'', hrun', hs''⟩ := stage_succ decode (show n + 2 < 2 ^ 32 by omega) hs'
    refine ⟨s'', ?_, hs''⟩
    rw [range_succ, flatMap_append, flatMap_singleton, Runs.run_append, hrun]
    exact hrun'

def roundTheIDs : List Event :=
  [.created, .frame helloData, .send 2 [] 0] ++ (List.range (2 ^ 32 - 2)).flatMap (fun i => round (i + 1)) ++
    [.send 2 [] 0, .fire 0]

/-- The first request's completion is never called, though its timer has fired. -/
theorem first_unanswered : ¬ ∀ es s, Runs.run (step fun _ => "") {} es = some s → Answered (fun _ => "") s := by
  intro hall
  have hstart : ∃ s, Runs.run (step fun _ => "") {} [.created, .frame helloData, .send 2 [] 0] = some s ∧ Stage 0 s :=
    ⟨_, rfl, ⟨by decide, by decide, by decide, by decide, by decide, by decide⟩⟩
  obtain ⟨s, hrun, hstage⟩ := hstart
  obtain ⟨s', hrun', h⟩ := stages (fun _ => "") hstage (2 ^ 32 - 2) (by decide)
  obtain ⟨waiting, hsend⟩ := send_up h.up
  have hid : s'.nextID = 1 := h.nextID
  rw [hid, h.pending, h.timers, h.sends] at hsend
  have hfire := @fire_found (fun _ => "") (s'.send 2 [] 0) ⟨0, 1, 0⟩ { type := 2, send := 2 ^ 32 - 2 + 1 }
    (by rw [hsend, find?_cons, decide_eq_false (by decide), find?_cons, decide_eq_true rfl])
    (by rw [hsend, lookup_cons, beq_self_eq_true])
  have hlost := hall roundTheIDs _ (by
    unfold roundTheIDs
    rw [Runs.run_append, Runs.run_append, hrun, Option.bind_some, hrun', Option.bind_some]
    exact run_round hfire)
  have hfired := hlost.fired 0 (mem_append_right _ mem_cons_self)
  have hzero := completions_append (s'.send 2 [] 0) [.called (2 ^ 32 - 2 + 1) (.failure (.timedOut 0)) (s'.send 2 [] 0).heard.length] 0
  have hquiet : (s'.send 2 [] 0).completions 0 = 0 := by
    rw [hsend]
    exact h.quiet
  rw [hquiet] at hzero
  exact Nat.one_ne_zero (hfired.symm.trans hzero)

end Device
end Portal
end Prose
