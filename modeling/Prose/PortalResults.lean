import Prose.PortalFrames
/-!
# PortalResults — results from one end to the other

Each thread's frames reach the host in their order, whatever is between them.  `BString::Append` ends at the first NUL, so a NUL and
what is after it in the buffer is lost, and nothing says so.
-/
namespace Prose
namespace Portal

open List

open Device (Sound Gathered)

variable {decode : Bytes → String}

/-! ## What the host does with a frame, and with the rest -/

namespace Device

theorem finishIfComplete_same (s : Device) (id : UInt32) (p : Pending) :
    (s.finishIfComplete decode id p).heard = s.heard ∧ (s.finishIfComplete decode id p).sends = s.sends := by
  unfold finishIfComplete
  split
  · split <;> exact ⟨rfl, rfl⟩
  · exact ⟨rfl, rfl⟩

theorem answer_same (s : Device) (f : Frame) (p : Pending) :
    (s.answer decode f p).heard = s.heard ∧ (s.answer decode f p).sends = s.sends := by
  unfold answer
  split
  · exact ⟨rfl, rfl⟩
  split
  · exact ⟨rfl, rfl⟩
  split
  · split
    · exact ⟨rfl, rfl⟩
    · exact finishIfComplete_same _ _ _
  split
  · split
    · exact ⟨rfl, rfl⟩
    · exact finishIfComplete_same _ _ _
  · exact ⟨rfl, rfl⟩

theorem handle_same {s : Device} {data : Bytes} {f : Frame} (h : frameOf data = some f) :
    (s.handle decode data).heard = s.heard ++ [f] ∧ (s.handle decode data).sends = s.sends := by
  unfold handle
  rw [h]
  dsimp only
  split
  · exact ⟨rfl, rfl⟩
  · split
    · exact ⟨rfl, rfl⟩
    · exact answer_same _ _ _

theorem step_same {s s' : Device} {e : Event} (he : ∀ data, e ≠ .frame data) (hs : s.step decode e = some s') :
    s'.heard = s.heard ∧ ((∃ more, s'.sends = s.sends ++ more ∧ ∀ x ∈ more, x = none) ∨
      ∃ type payload timeout, e = .send type payload timeout ∧ s.device ∧ s.alive ∧ payload.length + 16 ≤ requestSize ∧
        s'.sends = s.sends ++ [some ⟨s.nextID, s.heard.length⟩]) := by
  cases e with
  | frame data => exact absurd rfl (he data)
  | created | posted elements | reset =>
    cases hs
    exact ⟨rfl, .inl ⟨[], (append_nil _).symm, nofun⟩⟩
  | fire k =>
    obtain ⟨t, -, rfl⟩ := Option.map_eq_some_iff.1 hs
    unfold Device.fire
    dsimp only
    split <;> exact ⟨rfl, .inl ⟨[], (append_nil _).symm, nofun⟩⟩
  | send type payload timeout =>
    cases hs
    have hrefused (x : Option Accepted) (hx : x ∈ [none]) : x = none := mem_singleton.1 hx
    unfold Device.send
    dsimp only
    split
    · exact ⟨rfl, .inl ⟨[none], rfl, hrefused⟩⟩
    rename_i hdevice
    split
    · exact ⟨rfl, .inl ⟨[none], rfl, hrefused⟩⟩
    rename_i halive
    split
    · exact ⟨rfl, .inl ⟨[none], rfl, hrefused⟩⟩
    · next hfits => exact ⟨rfl, .inr ⟨type, payload, timeout, rfl, by simpa using hdevice, by simpa using halive, by omega, rfl⟩⟩

end Device

/-! ## Frames of an id -/

theorem resultsFor_append (fs gs : List Frame) (id : UInt32) : resultsFor (fs ++ gs) id = resultsFor fs id ++ resultsFor gs id :=
  filter_append ..

theorem resultsFor_other {f : Frame} {id : UInt32} (h : f.IsResult → f.id ≠ id) (fs : List Frame) :
    resultsFor (fs ++ [f]) id = resultsFor fs id := by
  have hnone : resultsFor [f] id = [] := filter_eq_nil_iff.2 fun g hg hr => by
    obtain rfl := mem_singleton.1 hg
    obtain ⟨hid, hres⟩ := of_decide_eq_true hr
    exact h hres hid
  rw [resultsFor_append, hnone, append_nil]

theorem resultsFor_own {f : Frame} (h : f.IsResult) (fs : List Frame) : resultsFor (fs ++ [f]) f.id = resultsFor fs f.id ++ [f] := by
  have hone : resultsFor [f] f.id = [f] := filter_eq_self.2 fun g hg => by
    obtain rfl := mem_singleton.1 hg
    exact decide_eq_true ⟨rfl, h⟩
  rw [resultsFor_append, hone]

theorem resultsFor_none {fs : List Frame} {id : UInt32} (h : ∀ f ∈ fs, f.IsResult → f.id ≠ id) : resultsFor fs id = [] :=
  filter_eq_nil_iff.2 fun f hf hr => h f hf (of_decide_eq_true hr).2 (of_decide_eq_true hr).1

theorem bodies_results (fs : List Frame) : bodies (fs.filter fun f => f.IsResult) = bodies fs := by
  induction fs with
  | nil => rfl
  | cons f fs ih =>
    rw [filter_cons]
    split
    · show f.body ++ bodies _ = f.body ++ bodies fs
      rw [ih]
    rename_i hf
    have hbody : f.body = [] := by
      unfold Frame.body
      rw [if_neg fun h => hf (decide_eq_true (.inl h)), if_neg fun h => hf (decide_eq_true (.inr h))]
    show _ = f.body ++ bodies fs
    rw [ih, hbody, nil_append]

theorem headerIn_results (fs : List Frame) : headerIn (fs.filter fun f => f.IsResult) = headerIn fs := by
  unfold headerIn
  rw [filter_filter]
  congr 2
  refine filter_congr fun f _ => ?_
  by_cases hf : f.type = Portal.result
  · rw [decide_eq_true hf, decide_eq_true (show f.IsResult from .inl hf)]
    rfl
  · rw [decide_eq_false hf, Bool.false_and]

/-- What the host goes by is the frames of the id, if none was heard before the request. -/
theorem framesFor_results {heard : List Frame} {a : Accepted} (h : ∀ f ∈ heard.take a.heard, f.IsResult → f.id ≠ a.id) (n : Nat) :
    (framesFor heard a n).filter (fun f => f.IsResult) = resultsFor (heard.take n) a.id := by
  have hfilter (fs : List Frame) : (fs.filter fun f => f.id = a.id).filter (fun f => f.IsResult) = resultsFor fs a.id := by
    rw [filter_filter]
    refine filter_congr fun f _ => ?_
    rw [Bool.eq_iff_iff]
    simp only [Bool.and_eq_true, decide_eq_true_eq]
    exact and_comm
  unfold framesFor
  rw [hfilter]
  conv => rhs; rw [← take_append_drop a.heard (heard.take n), resultsFor_append]
  rw [@resultsFor_none ((heard.take n).take a.heard) a.id fun f hf => h f ?_, nil_append]
  rw [take_take] at hf
  exact take_subset_take_left _ (Nat.min_le_left _ _) hf

/-! ## The invariant -/

/-- A thread's frames: those the host has or will take, those that are written, and those that are not. -/
structure Job.Order (j : Job) (traffic told : List Frame) : Prop where
  known : resultsFor told j.id <+: resultsFor traffic j.id
  sent : resultsFor traffic j.id <+: runThread j.id j.output
  going : j.stopped = false → resultsFor told j.id = resultsFor traffic j.id ∧
    resultsFor traffic j.id ++ j.left = runThread j.id j.output
  stopped : j.stopped = true → j.left = []

theorem Job.Order.other {j : Job} {traffic told : List Frame} (h : j.Order traffic told) {f : Frame} (hf : f.IsResult → f.id ≠ j.id) :
    j.Order (traffic ++ [f]) (told ++ [f]) := by
  have hsame := resultsFor_other hf
  refine ⟨?_, ?_, fun hst => ?_, h.stopped⟩
  · rw [hsame, hsame]
    exact h.known
  · rw [hsame]
    exact h.sent
  · rw [hsame, hsame]
    exact h.going hst

/-- **Both ends.** -/
structure Inv (decode : Bytes → String) (s : System) : Prop where
  sound : Sound decode s.host
  gathered : Gathered s.host
  ids : ∀ (k l : Nat) (a b : Accepted), s.host.sends[k]? = some (some a) → s.host.sends[l]? = some (some b) → a.id = b.id → k = l
  since : ∀ (k : Nat) (a : Accepted), s.host.sends[k]? = some (some a) → a.heard ≤ s.host.heard.length ∧
    ∀ f ∈ s.host.heard.take a.heard, f.IsResult → f.id ≠ a.id
  jobs : ∀ (i : Nat) (j : Job), s.jobs[i]? = some j →
    (∃ a : Accepted, s.host.sends[j.send]? = some (some a) ∧ a.id = j.id) ∧ j.output.Plain
  once : ∀ (i l : Nat) (j m : Job), s.jobs[i]? = some j → s.jobs[l]? = some m → j.send = m.send → i = l
  traffic : ∀ f ∈ s.traffic, f.IsResult → ∃ j ∈ s.jobs, j.id = f.id
  heard : ∀ f ∈ s.host.heard ++ s.wire, f ∈ s.traffic
  sizes : ∀ f ∈ s.wire, f.payload.length < 2 ^ 32
  order : ∀ (i : Nat) (j : Job), s.jobs[i]? = some j → j.Order s.traffic (s.host.heard ++ s.wire)

theorem inv_start (decode : Bytes → String) : Inv decode {} where
  sound := Device.sound_start
  gathered := ⟨fun _ hx => nomatch hx⟩
  ids _ _ _ _ h := nomatch h
  since _ _ h := nomatch h
  jobs _ _ h := nomatch h
  once _ _ _ _ h := nomatch h
  traffic _ h := nomatch h
  heard _ h := nomatch h
  sizes _ h := nomatch h
  order _ _ h := nomatch h

section
variable {s s' : System}

theorem Inv.id_ne (h : Inv decode s) {i l : Nat} {j m : Job} (hi : s.jobs[i]? = some j) (hl : s.jobs[l]? = some m) (hne : i ≠ l) :
    j.id ≠ m.id := fun he => by
  obtain ⟨⟨a, ha, hja⟩, -⟩ := h.jobs i j hi
  obtain ⟨⟨b, hb, hmb⟩, -⟩ := h.jobs l m hl
  exact hne (h.once i l j m hi hl (h.ids _ _ a b ha hb (hja.trans (he.trans hmb.symm))))

theorem Inv.given (h : Inv decode s) {f : Frame} (hf : f ∈ s.traffic) (hr : f.IsResult) :
    ∃ (i : Nat) (j : Job), s.jobs[i]? = some j ∧ j.id = f.id ∧ ∃ a : Accepted, s.host.sends[j.send]? = some (some a) ∧ a.id = f.id := by
  obtain ⟨j, hj, hid⟩ := h.traffic f hf hr
  obtain ⟨i, hi⟩ := mem_iff_getElem?.1 hj
  obtain ⟨⟨a, ha, hja⟩, -⟩ := h.jobs i j hi
  exact ⟨i, j, hi, hid, a, ha, hja.trans hid⟩

theorem getElem?_more {sends more : List (Option Accepted)} {k : Nat} {a : Accepted} (h : (sends ++ more)[k]? = some (some a)) :
    sends[k]? = some (some a) ∨ sends.length ≤ k ∧ some a ∈ more := by
  rcases Nat.lt_or_ge k sends.length with hk | hk
  · rw [getElem?_append_left hk] at h
    exact .inl h
  · rw [getElem?_append_right hk] at h
    exact .inr ⟨hk, mem_of_getElem? h⟩

/-- **The host is told of something that is not a frame.** -/
theorem Inv.host (h : Inv decode s) {e : Device.Event} (he : ∀ data, e ≠ .frame data)
    (hfine : ∀ type payload timeout, e = .send type payload timeout → Fine s (.host (.send type payload timeout))) {host : Device}
    (hs : s.host.step decode e = some host) : Inv decode { s with host := host } := by
  have hfresh : Device.Fresh s.host e := by
    cases e with
    | send type payload timeout =>
      intro hok
      cases hg : s.host.get s.host.nextID with
      | none => rfl
      | some p =>
        obtain ⟨a, ha, hid, -⟩ := h.sound.ids _ (Device.get_mem hg)
        exact absurd hid (hfine type payload timeout rfl hok a (mem_of_getElem? ha))
    | created | fire k | frame data | posted elements | reset => trivial
  obtain ⟨hsound, hgathered⟩ := Device.step_kept h.sound h.gathered hfresh hs
  obtain ⟨hheard, hsends⟩ := Device.step_same he hs
  -- old requests are where they were, and a new one has a new id
  have hmore : ∃ more, host.sends = s.host.sends ++ more ∧ ∀ a, some a ∈ more →
      more = [some a] ∧ a.heard = s.host.heard.length ∧ ∀ b, some b ∈ s.host.sends → b.id ≠ a.id := by
    rcases hsends with ⟨more, hm, hnone⟩ | ⟨type, payload, timeout, rfl, hd, ha, hp, hm⟩
    · exact ⟨more, hm, fun a ha => nomatch hnone _ ha⟩
    · refine ⟨_, hm, fun a hmem => ?_⟩
      obtain rfl := Option.some.inj (mem_singleton.1 hmem)
      exact ⟨rfl, rfl, hfine type payload timeout rfl ⟨hd, ha, hp⟩⟩
  obtain ⟨more, hm, hnew⟩ := hmore
  have hold {k : Nat} {a : Accepted} (hk : s.host.sends[k]? = some (some a)) : host.sends[k]? = some (some a) := by
    rw [hm, getElem?_append_left (List.getElem?_eq_some_iff.1 hk).1]
    exact hk
  refine ⟨hsound, hgathered, fun k l a b hk hl hid => ?_, fun k a hk => ?_, fun i j hi => ?_, h.once, h.traffic, ?_, h.sizes, ?_⟩
  · have hlast {k : Nat} {a : Accepted} (hk : host.sends[k]? = some (some a)) (hle : s.host.sends.length ≤ k) (ha : some a ∈ more) :
        k = s.host.sends.length := by
      rw [hm, (hnew a ha).1] at hk
      have := (List.getElem?_eq_some_iff.1 hk).1
      rw [length_append, length_singleton] at this
      omega
    rcases getElem?_more (hm ▸ hk) with hk' | ⟨hkl, hka⟩
    · rcases getElem?_more (hm ▸ hl) with hl' | ⟨-, hlb⟩
      · exact h.ids k l a b hk' hl' hid
      · exact absurd hid ((hnew b hlb).2.2 a (mem_of_getElem? hk'))
    · rcases getElem?_more (hm ▸ hl) with hl' | ⟨hll, hlb⟩
      · exact absurd hid.symm ((hnew a hka).2.2 b (mem_of_getElem? hl'))
      · rw [hlast hk hkl hka, hlast hl hll hlb]
  · show a.heard ≤ host.heard.length ∧ ∀ f ∈ host.heard.take a.heard, f.IsResult → f.id ≠ a.id
    rw [hheard]
    rcases getElem?_more (hm ▸ hk) with hk | ⟨-, ha⟩
    · exact h.since k a hk
    obtain ⟨-, hah, hids⟩ := hnew a ha
    refine ⟨Nat.le_of_eq hah, fun f hf hr => ?_⟩
    obtain ⟨_, _, -, -, b, hb, hbid⟩ := h.given (h.heard f (mem_append_left _ (mem_of_mem_take hf))) hr
    exact hbid ▸ hids b (mem_of_getElem? hb)
  · obtain ⟨⟨a, ha, hid⟩, hplain⟩ := h.jobs i j hi
    exact ⟨⟨a, hold ha, hid⟩, hplain⟩
  · show ∀ f ∈ host.heard ++ s.wire, f ∈ s.traffic
    rw [hheard]
    exact h.heard
  · show ∀ (i : Nat) (j : Job), s.jobs[i]? = some j → j.Order s.traffic (host.heard ++ s.wire)
    rw [hheard]
    exact h.order

/-- **The machine is reset.** -/
theorem Inv.reset (h : Inv decode s) {host : Device} (hs : s.host.step decode .reset = some host) :
    Inv decode { s with host := host, wire := [], lock := none, jobs := s.jobs.map fun j => { j with left := [], stopped := true } } := by
  have hhost := h.host (e := .reset) nofun nofun hs
  have hmap {i : Nat} {j : Job} (hi : (s.jobs.map fun j => { j with left := [], stopped := true })[i]? = some j) :
      ∃ m, s.jobs[i]? = some m ∧ j = { m with left := [], stopped := true } := by
    rw [getElem?_map] at hi
    obtain ⟨m, hm, rfl⟩ := Option.map_eq_some_iff.1 hi
    exact ⟨m, hm, rfl⟩
  refine ⟨hhost.sound, hhost.gathered, hhost.ids, hhost.since, fun i j hi => ?_, fun i l j m hi hl he => ?_, fun f hf hr => ?_,
    fun f hf => ?_, nofun, fun i j hi => ?_⟩
  · obtain ⟨m, hm, rfl⟩ := hmap hi
    exact hhost.jobs i m hm
  · obtain ⟨j', hj, rfl⟩ := hmap hi
    obtain ⟨m', hm, rfl⟩ := hmap hl
    exact hhost.once i l j' m' hj hm he
  · obtain ⟨j, hj, hid⟩ := hhost.traffic f hf hr
    exact ⟨_, mem_map_of_mem hj, hid⟩
  · rw [append_nil] at hf
    exact hhost.heard f (mem_append_left _ hf)
  · obtain ⟨m, hm, rfl⟩ := hmap hi
    have horder := hhost.order i m hm
    refine ⟨?_, horder.sent, nofun, fun _ => rfl⟩
    rw [append_nil]
    refine List.IsPrefix.trans ?_ horder.known
    rw [resultsFor_append]
    exact prefix_append _ _

/-- **A thread is started.** -/
theorem Inv.start (h : Inv decode s) {k : Nat} {o : Output} {a : Accepted} (ha : s.host.sends[k]? = some (some a))
    (hnew : ∀ j ∈ s.jobs, j.send ≠ k) (ho : o.Plain) :
    Inv decode { s with jobs := s.jobs ++ [{ send := k, id := a.id, output := o, left := runThread a.id o }] } := by
  have hnone : ∀ f ∈ s.traffic, f.IsResult → f.id ≠ a.id := fun f hf hr he => by
    obtain ⟨i, j, hi, -, b, hb, hbid⟩ := h.given hf hr
    exact hnew j (mem_of_getElem? hi) (h.ids _ _ b a hb ha (hbid.trans he))
  have hlast {i : Nat} {j : Job} (hi : (s.jobs ++ [{ send := k, id := a.id, output := o, left := runThread a.id o }])[i]? = some j) :
      s.jobs[i]? = some j ∨ i = s.jobs.length ∧ j = { send := k, id := a.id, output := o, left := runThread a.id o } := by
    rcases Nat.lt_or_ge i s.jobs.length with hlt | hge
    · rw [getElem?_append_left hlt] at hi
      exact .inl hi
    have hlt := (List.getElem?_eq_some_iff.1 hi).1
    rw [length_append, length_singleton] at hlt
    obtain rfl : i = s.jobs.length := by omega
    rw [getElem?_concat_length] at hi
    exact .inr ⟨rfl, (Option.some.inj hi).symm⟩
  refine ⟨h.sound, h.gathered, h.ids, h.since, fun i j hi => ?_, fun i l j m hi hl he => ?_, fun f hf hr => ?_, h.heard, h.sizes,
    fun i j hi => ?_⟩
  · rcases hlast hi with hi | ⟨-, rfl⟩
    · exact h.jobs i j hi
    · exact ⟨⟨a, ha, rfl⟩, ho⟩
  · rcases hlast hi with hi | ⟨rfl, rfl⟩
    · rcases hlast hl with hl | ⟨-, rfl⟩
      · exact h.once i l j m hi hl he
      · exact absurd he (hnew j (mem_of_getElem? hi))
    · rcases hlast hl with hl | ⟨rfl, -⟩
      · exact absurd he.symm (hnew m (mem_of_getElem? hl))
      · rfl
  · obtain ⟨j, hj, hid⟩ := h.traffic f hf hr
    exact ⟨j, mem_append_left _ hj, hid⟩
  · rcases hlast hi with hi | ⟨-, rfl⟩
    · exact h.order i j hi
    have htraffic : resultsFor s.traffic a.id = [] := resultsFor_none hnone
    have hknown : resultsFor (s.host.heard ++ s.wire) a.id = [] := resultsFor_none fun f hf => hnone f (h.heard f hf)
    refine ⟨?_, ?_, fun _ => ⟨?_, ?_⟩, nofun⟩
    · rw [hknown]
      exact nil_prefix
    · rw [htraffic]
      exact nil_prefix
    · rw [hknown, htraffic]
    · rw [htraffic, nil_append]

/-- **A frame is written.** -/
theorem Inv.write (h : Inv decode s) {i : Nat} {j : Job} (hi : s.jobs[i]? = some j) {f : Frame} {rest : List Frame}
    (hleft : j.left = f :: rest) :
    f.bytes.length ≤ replySize ∧
      Inv decode { s with jobs := s.jobs.set i { j with left := rest }, traffic := s.traffic ++ [f], wire := s.wire ++ [f] } := by
  have horder := h.order i j hi
  obtain ⟨hacc, hplain⟩ := h.jobs i j hi
  have hgoing : j.stopped = false := Bool.eq_false_iff.2 fun hst => by
    rw [horder.stopped hst] at hleft
    exact nomatch hleft
  obtain ⟨hknown, hsent⟩ := horder.going hgoing
  have hmem : f ∈ runThread j.id j.output := by
    rw [← hsent, hleft]
    exact mem_append_right _ mem_cons_self
  rw [runThread_eq hplain] at hmem
  obtain ⟨hid, hresult, hpayload⟩ := sendResult_frame hmem
  have hsize := f.bytes_length
  have hown (fs : List Frame) : resultsFor (fs ++ [f]) j.id = resultsFor fs j.id ++ [f] := hid ▸ resultsFor_own hresult fs
  have hset {l : Nat} {m : Job} (hl : (s.jobs.set i { j with left := rest })[l]? = some m) :
      (l = i ∧ m = { j with left := rest }) ∨ l ≠ i ∧ s.jobs[l]? = some m := by
    by_cases hli : l = i
    · rw [hli, getElem?_set_self (List.getElem?_eq_some_iff.1 hi).1] at hl
      exact .inl ⟨hli, (Option.some.inj hl).symm⟩
    · rw [getElem?_set_ne (Ne.symm hli)] at hl
      exact .inr ⟨hli, hl⟩
  refine ⟨by unfold framePayload replySize at *; omega, h.sound, h.gathered, h.ids, h.since, fun l m hl => ?_, fun l n m q hl hn he => ?_,
    fun g hg hr => ?_, fun g hg => ?_, fun g hg => ?_, fun l m hl => ?_⟩
  · rcases hset hl with ⟨rfl, rfl⟩ | ⟨-, hl⟩
    · exact ⟨hacc, hplain⟩
    · exact h.jobs l m hl
  · rcases hset hl with ⟨rfl, rfl⟩ | ⟨-, hl⟩
    · rcases hset hn with ⟨rfl, -⟩ | ⟨-, hn⟩
      · rfl
      · exact h.once l n j q hi hn he
    rcases hset hn with ⟨hni, rfl⟩ | ⟨-, hn⟩
    · rw [hni]
      exact h.once l i m j hl hi he
    · exact h.once l n m q hl hn he
  · have hthere (m : Job) (hm : m ∈ s.jobs) : ∃ q ∈ s.jobs.set i { j with left := rest }, q.id = m.id := by
      obtain ⟨l, hl⟩ := mem_iff_getElem?.1 hm
      by_cases hli : l = i
      · obtain rfl : j = m := Option.some.inj (hi.symm.trans (hli ▸ hl))
        exact ⟨_, mem_of_getElem? (getElem?_set_self (List.getElem?_eq_some_iff.1 hi).1), rfl⟩
      · exact ⟨m, mem_of_getElem? ((getElem?_set_ne (Ne.symm hli)).trans hl), rfl⟩
    rcases mem_append.1 hg with hg | hg
    · obtain ⟨m, hm, hmid⟩ := h.traffic g hg hr
      obtain ⟨q, hq, hqid⟩ := hthere m hm
      exact ⟨q, hq, hqid.trans hmid⟩
    · obtain rfl := mem_singleton.1 hg
      obtain ⟨q, hq, hqid⟩ := hthere j (mem_of_getElem? hi)
      exact ⟨q, hq, hqid.trans hid.symm⟩
  · rw [← append_assoc] at hg
    rcases mem_append.1 hg with hg | hg
    · exact mem_append_left _ (h.heard g hg)
    · exact mem_append_right _ hg
  · rcases mem_append.1 hg with hg | hg
    · exact h.sizes g hg
    · rw [mem_singleton.1 hg]
      unfold framePayload replySize at *
      omega
  · show m.Order (s.traffic ++ [f]) (s.host.heard ++ (s.wire ++ [f]))
    rw [← append_assoc]
    rcases hset hl with ⟨rfl, rfl⟩ | ⟨hli, hl⟩
    · have hboth : resultsFor (s.traffic ++ [f]) j.id ++ rest = runThread j.id j.output := by
        rw [hown, append_assoc, singleton_append, ← hleft, hsent]
      have hsame : resultsFor (s.host.heard ++ s.wire ++ [f]) j.id = resultsFor (s.traffic ++ [f]) j.id := by
        rw [hown, hown, hknown]
      refine ⟨?_, ⟨rest, hboth⟩, fun _ => ⟨hsame, hboth⟩, fun hst => absurd (hgoing.symm.trans hst) Bool.false_ne_true⟩
      show resultsFor _ j.id <+: resultsFor _ j.id
      rewrite [hsame]
      exact prefix_rfl
    · exact (h.order l m hl).other fun _ => hid ▸ (h.id_ne hl hi hli).symm

theorem Inv.reply (h : Inv decode s) {f : Frame} (hf : ¬ f.IsResult) (hsize : f.bytes.length ≤ replySize) :
    Inv decode { s with traffic := s.traffic ++ [f], wire := s.wire ++ [f] } := by
  refine ⟨h.sound, h.gathered, h.ids, h.since, h.jobs, h.once, fun g hg hr => ?_, fun g hg => ?_, fun g hg => ?_, fun i j hi => ?_⟩
  · rcases mem_append.1 hg with hg | hg
    · exact h.traffic g hg hr
    · exact absurd (mem_singleton.1 hg ▸ hr) hf
  · rw [← append_assoc] at hg
    rcases mem_append.1 hg with hg | hg
    · exact mem_append_left _ (h.heard g hg)
    · exact mem_append_right _ hg
  · rcases mem_append.1 hg with hg | hg
    · exact h.sizes g hg
    rw [mem_singleton.1 hg]
    have := f.bytes_length
    unfold replySize at hsize
    omega
  · show j.Order (s.traffic ++ [f]) (s.host.heard ++ (s.wire ++ [f]))
    rw [← append_assoc]
    exact (h.order i j hi).other fun hr => absurd hr hf

/-- **The host takes a frame.** -/
theorem Inv.deliver (h : Inv decode s) {f : Frame} {rest : List Frame} (hw : s.wire = f :: rest) :
    Inv decode { s with wire := rest, host := s.host.handle decode f.bytes } := by
  have hframe := frameOf_bytes (h.sizes f (hw ▸ mem_cons_self))
  obtain ⟨hsound, hgathered⟩ := Device.handle_kept h.sound h.gathered f.bytes
  obtain ⟨hheard, hsends⟩ := @Device.handle_same decode s.host _ _ hframe
  have hall : (s.host.handle decode f.bytes).heard ++ rest = s.host.heard ++ s.wire := by
    rw [hheard, hw, append_assoc, singleton_append]
  refine ⟨hsound, hgathered, ?_, fun k a hk => ?_, ?_, h.once, h.traffic, ?_, fun g hg => h.sizes g (hw ▸ mem_cons_of_mem _ hg), ?_⟩
  · show ∀ (k l : Nat) (a b : Accepted), (s.host.handle decode f.bytes).sends[k]? = _ → (s.host.handle decode f.bytes).sends[l]? = _ → _ → _
    rw [hsends]
    exact h.ids
  · show a.heard ≤ (s.host.handle decode f.bytes).heard.length ∧
      ∀ g ∈ (s.host.handle decode f.bytes).heard.take a.heard, g.IsResult → g.id ≠ a.id
    obtain ⟨hle, hnone⟩ := h.since k a (hsends ▸ hk)
    rw [hheard, take_append_of_le_length hle, length_append]
    exact ⟨Nat.le_add_right_of_le hle, hnone⟩
  · show ∀ (i : Nat) (j : Job), s.jobs[i]? = some j → (∃ a, (s.host.handle decode f.bytes).sends[j.send]? = _ ∧ _) ∧ _
    rw [hsends]
    exact h.jobs
  · show ∀ g ∈ (s.host.handle decode f.bytes).heard ++ rest, g ∈ s.traffic
    rw [hall]
    exact h.heard
  · show ∀ (i : Nat) (j : Job), s.jobs[i]? = some j → j.Order s.traffic ((s.host.handle decode f.bytes).heard ++ rest)
    rw [hall]
    exact h.order

/-- **Every step.** -/
theorem Inv.step (decode : Bytes → String) (s : System) (e : Event) (s' : System) (h : Inv decode s) (hfine : Fine s e)
    (hs : s.step decode e = some s') : Inv decode s' := by
  cases e with
  | host e =>
    unfold System.step at hs
    cases e with
    | frame data => exact nomatch hs
    | reset =>
      obtain ⟨host, hh, rfl⟩ := Option.map_eq_some_iff.1 hs
      exact h.reset hh
    | send type payload timeout =>
      obtain ⟨host, hh, rfl⟩ := Option.map_eq_some_iff.1 hs
      refine h.host (fun _ he => Device.Event.noConfusion he) (fun t p m he => ?_) hh
      rw [← he]
      exact hfine
    | created | fire k | posted elements =>
      obtain ⟨host, hh, rfl⟩ := Option.map_eq_some_iff.1 hs
      exact h.host (fun _ he => Device.Event.noConfusion he) (fun _ _ _ he => Device.Event.noConfusion he) hh
  | start k o =>
    unfold System.step at hs
    dsimp only at hs
    split at hs
    · next a ha =>
      obtain ⟨hnew, hs⟩ := Option.ite_none_right_eq_some.1 hs
      cases hs
      exact h.start ha hnew hfine
    · exact nomatch hs
  | lock i | unlock i =>
    unfold System.step at hs
    dsimp only at hs
    split at hs
    · obtain ⟨-, hs⟩ := Option.ite_none_right_eq_some.1 hs
      cases hs
      exact ⟨h.sound, h.gathered, h.ids, h.since, h.jobs, h.once, h.traffic, h.heard, h.sizes, h.order⟩
    · exact nomatch hs
  | write i ok =>
    obtain rfl : ok = true := hfine
    unfold System.step at hs
    dsimp only at hs
    split at hs
    · next j hi =>
      split at hs
      · next f rest hleft =>
        obtain ⟨hsize, hinv⟩ := h.write hi hleft
        obtain ⟨-, hs⟩ := Option.ite_none_right_eq_some.1 hs
        rw [if_pos ⟨rfl, hsize⟩] at hs
        cases hs
        exact hinv
      · exact nomatch hs
    · exact nomatch hs
  | reply f =>
    obtain ⟨⟨-, hf, hsize⟩, hs⟩ := Option.ite_none_right_eq_some.1 hs
    cases hs
    exact h.reply hf hsize
  | deliver =>
    unfold System.step at hs
    dsimp only at hs
    split at hs
    · next f rest hw =>
      cases hs
      exact h.deliver hw
    · exact nomatch hs

/-! ## What the frames and the replies say -/

theorem encode_decode (hdec : ∀ t, decode (encode t) = t) {b : Bytes} (h : Plain b) : encode (decode b) = b := by
  have hb : encode (String.fromUTF8 ⟨b.toArray⟩ h.2) = b := rfl
  rw [← hb, hdec]

theorem take_lengths (out error : Bytes) :
    (out ++ error).take out.length = out ∧ ((out ++ error).drop out.length).take error.length = error := by
  rw [take_left, drop_left, take_length]
  exact ⟨rfl, rfl⟩

theorem head_of_sent {j : Job} (hplain : j.output.Plain) {fs : List Frame} (hfs : fs <+: runThread j.id j.output) (hne : fs ≠ []) :
    headerIn fs = some ⟨j.output.status, (j.output.stdout.take maxOutput).length, (j.output.stderr.take maxOutput).length,
      decide (maxOutput < j.output.stdout.length) || decide (maxOutput < j.output.stderr.length)⟩ := by
  have hlt (b : Bytes) : (b.take maxOutput).length < 2 ^ 32 := by
    have := length_take_le maxOutput b
    unfold maxOutput at *
    omega
  rw [runThread_eq hplain] at hfs
  exact headerIn_sendResult hfs hne (hlt _) (hlt _)

theorem Inv.kept (h : Inv decode s) (hdec : ∀ t, decode (encode t) = t) : Kept s := by
  have htake (b : Bytes) : b.take (b.take maxOutput).length = b.take maxOutput := by
    rw [length_take, take_eq_take_iff]
    omega
  have hless (b : Bytes) : (b.take maxOutput).length < b.length ↔ maxOutput < b.length := by
    rw [length_take]
    omega
  have hbodies {j : Job} (hplain : j.output.Plain) :
      bodies (runThread j.id j.output) = j.output.stdout.take maxOutput ++ j.output.stderr.take maxOutput := by
    rw [runThread_eq hplain, bodies_sendResult]
  refine ⟨fun j hj => ?_, fun k r n hcalled hr => ?_⟩
  · obtain ⟨i, hi⟩ := mem_iff_getElem?.1 hj
    obtain ⟨-, hplain⟩ := h.jobs i j hi
    have horder := h.order i j hi
    refine ⟨fun f hf => ?_, fun hne => ⟨_, head_of_sent hplain horder.sent hne, length_take_le' _ _, length_take_le' _ _, ?_, ?_, ?_⟩⟩
    · have hmem := horder.sent.subset hf
      rw [runThread_eq hplain] at hmem
      have hpayload := (sendResult_frame hmem).2.2
      rw [f.bytes_length]
      unfold framePayload replySize at *
      omega
    · rw [hless, hless, Bool.or_eq_true, decide_eq_true_eq, decide_eq_true_eq]
    · obtain ⟨rest, hrest⟩ := horder.sent
      rw [htake, htake, ← hbodies hplain, ← hrest, Device.bodies_append]
      exact prefix_append _ _
    · intro hleft hst
      have hsent := (horder.going hst).2
      rw [hleft, append_nil] at hsent
      rw [htake, htake, ← hbodies hplain, ← hsent]
  · obtain ⟨a, head, ha, -, hhead, hlength, rfl⟩ := h.sound.results k r n hcalled hr
    obtain ⟨-, hsince⟩ := h.since k a ha
    rw [← headerIn_results, framesFor_results hsince] at hhead
    rw [← bodies_results, framesFor_results hsince] at hlength ⊢
    have hne : resultsFor (s.host.heard.take n) a.id ≠ [] := fun hnil => by
      rw [hnil] at hhead
      exact nomatch hhead
    obtain ⟨f, hf⟩ := exists_mem_of_ne_nil _ hne
    obtain ⟨hf, hfr⟩ := mem_filter.1 hf
    obtain ⟨hfid, hres⟩ := of_decide_eq_true hfr
    obtain ⟨i, j, hi, hjid, b, hb, hbid⟩ := h.given (h.heard f (mem_append_left _ (mem_of_mem_take hf))) hres
    obtain rfl : j.send = k := h.ids _ _ b a hb ha (hbid.trans hfid)
    have hid : j.id = a.id := hjid.trans hfid
    obtain ⟨-, hplain⟩ := h.jobs i j hi
    have horder := h.order i j hi
    -- what the host has taken is the start of what has been written
    have hprefix : resultsFor (s.host.heard.take n) a.id <+: resultsFor s.traffic j.id := by
      refine List.IsPrefix.trans ?_ horder.known
      rw [hid]
      exact ((List.take_prefix _ _).trans (prefix_append _ _)).filter _
    have hsent := hprefix.trans horder.sent
    obtain rfl := Option.some.inj (hhead.symm.trans (head_of_sent hplain hsent hne))
    have hfull : bodies (resultsFor (s.host.heard.take n) a.id) = j.output.stdout.take maxOutput ++ j.output.stderr.take maxOutput := by
      obtain ⟨rest, hrest⟩ := hsent
      have hall := hbodies hplain
      rw [← hrest, Device.bodies_append] at hall
      refine List.IsPrefix.eq_of_length_le ⟨_, hall⟩ ?_
      rw [length_append]
      exact hlength
    obtain ⟨hout, herr⟩ := take_lengths (j.output.stdout.take maxOutput) (j.output.stderr.take maxOutput)
    refine ⟨j, mem_of_getElem? hi, rfl, _, head_of_sent hplain horder.sent fun hnil => hne ?_, rfl, ?_, ?_, rfl⟩
    · rw [hnil] at hprefix
      exact prefix_nil.1 hprefix
    · show encode (decode ((bodies _).take _)) = j.output.stdout.take _
      rw [hfull, hout, htake]
      exact encode_decode hdec hplain.1
    · show encode (decode (((bodies _).drop _).take _)) = j.output.stderr.take _
      rw [hfull, herr, htake]
      exact encode_decode hdec hplain.2.1

end

/-! ## Two threads, and a NUL -/

instance (b : Bytes) : Decidable (Plain b) := inferInstanceAs (Decidable (_ ∧ _))

instance (o : Output) : Decidable o.Plain := inferInstanceAs (Decidable (_ ∧ _ ∧ _))

instance decidableFine (s : System) : ∀ e, Decidable (Fine s e)
  | .host (.send _ payload _) =>
    decidable_of_iff (s.host.device ∧ s.host.alive ∧ payload.length + 16 ≤ requestSize → ∀ x ∈ s.host.sends, ∀ a ∈ x, a.id ≠ s.host.nextID)
      ⟨fun h hok a ha => h hok _ ha a rfl, fun h hok _ hx a ha => h hok a (Option.mem_def.1 ha ▸ hx)⟩
  | .start _ o => inferInstanceAs (Decidable o.Plain)
  | .write _ ok => inferInstanceAs (Decidable (ok = true))
  | .host .created | .host (.fire _) | .host (.frame _) | .host (.posted _) | .host .reset | .lock _ | .unlock _ | .reply _ | .deliver => isTrue trivial

/-- `String(decoding:as:)`, of what is text. -/
def decodeText (b : Bytes) : String := (String.fromUTF8? ⟨b.toArray⟩).getD ""

theorem decodeText_encode (t : String) : decodeText (encode t) = t := by
  have hbytes : ByteArray.mk (encode t).toArray = t.toByteArray := by
    unfold encode
    rfl
  unfold decodeText String.fromUTF8?
  rw [dif_pos (hbytes ▸ t.isValidUTF8)]
  rfl

def hi : Output := ⟨[104, 105], [], [], 0⟩
def accent : Output := ⟨[], [195, 169, 10], [195, 169, 10], 1⟩

def twoRequests : List Event :=
  [.host .created, .reply ⟨hello, 0, []⟩, .deliver, .host (.send 2 [] 30), .host (.send 2 [] 30), .start 1 accent, .start 0 hi,
    .lock 0, .write 0 true, .unlock 0, .lock 1, .write 1 true, .unlock 1, .deliver, .deliver]

theorem twoRequests_runs : (Runs.run (System.step decodeText) {} twoRequests).isSome = true := by decide

example : ((Runs.run (System.step decodeText) {} twoRequests).map fun s => s.host.happened) = some [
    .called 1 (.success ⟨result, 1, "", "é\n", "", false⟩) 2, .called 0 (.success ⟨result, 0, "hi", "", "", false⟩) 3] := by
  decide

def nul : Output := ⟨[97, 0, 98], [], [], 0⟩

def nulRequest : List Event :=
  [.host .created, .reply ⟨hello, 0, []⟩, .deliver, .host (.send 2 [] 30), .start 0 nul, .lock 0, .write 0 true, .unlock 0, .deliver]

end Portal
end Prose
