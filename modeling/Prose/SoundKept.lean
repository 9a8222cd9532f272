import Mathlib.Data.List.Nodup
import Mathlib.Data.List.Perm.Subperm
import Mathlib.Data.List.Range
import Prose.SoundDebts
/-!
# SoundKept — where each buffer is

A buffer of the session is with the device or on its way, or in the ring, or the mixer's; so no two submissions that are out or
in the ring are of one buffer, and a generation that is the session's says that what is returned was submitted in it.
-/
namespace Prose
namespace Sound

open Tasks List

section
variable {c : Config} {s s' : State} {ring : List Sub} {i : Nat} {g : Debt}

/-- **The stream and the submissions**, with the ring from its tail on. -/
structure Good (c : Config) (s : State) (ring : List Sub) : Prop where
  nodup : ((ring ++ s.out).map Sub.index).Nodup
  bound : ∀ sub ∈ ring ++ s.out, sub.index < c.bufferCount
  session : ∀ sub ∈ s.out, sub.session ≤ s.sessions ∧ s.sessions ≠ 0
  gen : s.live = true → ∀ sub ∈ s.out, sub.session = s.sessions → s.submittedGen sub.index = s.generation
  genOf : ∀ i, s.submittedGen i ≠ 0 → s.live = true ∧ ∃ sub ∈ s.out, sub.index = i ∧ sub.session = s.sessions
  generation : s.sessions ≠ 0 → s.generation ≠ 0
  flight : s.live = true → s.inFlight = (s.out.countP (·.session = s.sessions) : Int)
  ringOf : ∀ sub ∈ ring, s.live = true ∧ sub.session = s.sessions ∧ sub ∈ s.counted.map Counted.sub
  slots : ∀ k sub, ring[k]? = some sub → s.completed ((s.completedTail.toNat + k) % maxBuffers) = sub.index ∧
    s.returned ((s.completedTail.toNat + k) % maxBuffers) = some sub
  head : s.completedHead = s.completedTail + UInt32.ofNat ring.length
  ids : ∀ sub ∈ s.out, sub.id < s.marks ∧ sub ∉ s.counted.map Counted.sub
  countedIds : ∀ x ∈ s.counted, x.sub.id < s.marks
  counted : ∀ x ∈ s.counted, x.sub.session = x.session
  once : (s.counted.map Counted.sub).Nodup
  handed : ∀ x ∈ s.handed, x.held = false ∧ ∃ sub, x.sub = some sub ∧ sub.session = x.session ∧ sub.index = x.index ∧
    sub ∈ s.counted.map Counted.sub ∧ sub ∉ ring
  handedOnce : (s.handed.map Handed.sub).Nodup
  running : s.running = true → s.live = true
  begun : s.live = true → s.sessions ≠ 0

def Valid (c : Config) (s : State) (ring : List Sub) : Prop :=
  ∀ i, s.toSubmit = some i → s.live = true ∧ i < c.bufferCount ∧ ∀ sub ∈ ring ++ s.out, sub.index ≠ i

/-- The semaphore's counts, those on their way there and those taken are the completions in the ring. -/
def Counts (s : State) (ring : List Sub) (claimed : Nat) : Prop :=
  s.live = true → s.readySem + s.releasing.length + claimed = ring.length

def Below (s : State) (ring : List Sub) (i : Nat) : Prop := ∀ sub ∈ ring ++ s.out, sub.session = s.sessions → sub.index < i

namespace Know

def pending : Know → Option Sub
  | .loopMarked _ sub | .mineMarked sub => some sub
  | _ => none

def claimed : Know → Nat
  | .acquired => 1
  | _ => 0

end Know

/-- Beside its pending submission and its count, what the call knows. -/
def Facts (c : Config) (s : State) (ring : List Sub) : Know → Prop
  | .nothing => Valid c s ring
  | .fresh => s.live = true ∧ Below s ring 0
  | .loop i => s.live = true ∧ s.toSubmit = none ∧ Below s ring i
  | .loopMarked i sub => s.live = true ∧ s.toSubmit = none ∧ Below s ring (i + 1) ∧ sub.index = i ∧ sub.session = s.sessions
  | .live | .acquired => s.live = true ∧ Valid c s ring
  | .mine i => s.live = true ∧ Valid c s ring ∧ s.toSubmit = some i
  | .mineMarked sub => s.live = true ∧ sub.session = s.sessions
  | .sent => s.live = true
  | .taken t => s.live = true ∧ t.index < c.bufferCount ∧ (∀ sub ∈ ring ++ s.out, sub.index ≠ t.index) ∧
    ∃ sub, t.sub = some sub ∧ sub.index = t.index ∧ sub.session = s.sessions ∧ sub ∈ s.counted.map Counted.sub ∧ sub ∉ ring ∧
      some sub ∉ s.handed.map Handed.sub
  | .stopped => s.running = false
  | .cleared => s.live = false ∧ s.toSubmit = none

structure Knows (c : Config) (s : State) (ring : List Sub) (k : Know) : Prop where
  pending : s.pending = k.pending
  counts : Counts s ring k.claimed
  facts : Facts c s ring k

/-! ## Frames -/

theorem mem_ring_out {sub : Sub} (h : sub ∈ s.out) : sub ∈ ring ++ s.out := mem_append_right _ h

theorem Good.same (h : Good c s ring) (hout : s'.out.Perm s.out) (hsessions : s'.sessions = s.sessions) (hlive : s'.live = s.live)
    (hgen : s'.submittedGen = s.submittedGen) (hgeneration : s'.generation = s.generation) (hflight : s'.inFlight = s.inFlight)
    (hcompleted : s'.completed = s.completed ∧ s'.returned = s.returned)
    (hring : s'.completedHead = s.completedHead ∧ s'.completedTail = s.completedTail) (hmarks : s'.marks = s.marks)
    (hcounted : s'.counted = s.counted) (hhanded : s'.handed = s.handed) (hrunning : s'.running = true → s.live = true) :
    Good c s' ring where
  nodup := ((hout.append_left ring).map _).nodup_iff.2 h.nodup
  bound := fun sub hs => h.bound sub ((hout.append_left ring).mem_iff.1 hs)
  session := fun sub hs => by
    rw [hsessions]
    exact h.session sub (hout.mem_iff.1 hs)
  gen := by
    rw [hlive, hgen, hgeneration, hsessions]
    exact fun hl sub hs => h.gen hl sub (hout.mem_iff.1 hs)
  genOf := fun i hi => by
    rw [hgen] at hi
    rw [hlive, hsessions]
    obtain ⟨hl, sub, hs, hrest⟩ := h.genOf i hi
    exact ⟨hl, sub, hout.mem_iff.2 hs, hrest⟩
  generation := by
    rw [hsessions, hgeneration]
    exact h.generation
  flight := by
    rw [hlive, hflight, hsessions, hout.countP_eq]
    exact h.flight
  ringOf := by
    rw [hlive, hsessions, hcounted]
    exact h.ringOf
  slots := by
    rw [hcompleted.1, hcompleted.2, hring.2]
    exact h.slots
  head := by
    rw [hring.1, hring.2]
    exact h.head
  ids := fun sub hs => by
    rw [hmarks, hcounted]
    exact h.ids sub (hout.mem_iff.1 hs)
  countedIds := by
    rw [hcounted, hmarks]
    exact h.countedIds
  counted := by
    rw [hcounted]
    exact h.counted
  once := by
    rw [hcounted]
    exact h.once
  handed := by
    rw [hhanded, hcounted]
    exact h.handed
  handedOnce := by
    rw [hhanded]
    exact h.handedOnce
  running := by
    rw [hlive]
    exact hrunning
  begun := by
    rw [hlive, hsessions]
    exact h.begun

/-- What the callbacks and the device leave a call: whatever is under way was so before, and what is in the ring anew was not
counted before. -/
theorem Knows.keep {ring' : List Sub} {k : Know} (h : Knows c s ring k) (hpending : s'.pending = s.pending)
    (hcounts : Counts s ring k.claimed → Counts s' ring' k.claimed) (hlive : s'.live = s.live) (hsessions : s'.sessions = s.sessions)
    (hto : s'.toSubmit = s.toSubmit) (hrunning : s'.running = s.running) (hhanded : s'.handed = s.handed) (hmem : ∀ sub ∈ ring' ++ s'.out, sub ∈ ring ++ s.out)
    (hcounted : ∀ sub ∈ s.counted.map Counted.sub, sub ∈ s'.counted.map Counted.sub)
    (hring : ∀ sub ∈ ring', sub ∈ ring ∨ sub ∉ s.counted.map Counted.sub) : Knows c s' ring' k := by
  have hvalid (hv : Valid c s ring) : Valid c s' ring' := fun i hi => by
    rw [hto] at hi
    obtain ⟨hl, hlt, hne⟩ := hv i hi
    exact ⟨hlive.trans hl, hlt, fun sub hs => hne sub (hmem sub hs)⟩
  have hbelow {i : Nat} (hb : Below s ring i) : Below s' ring' i := fun sub hs he => hb sub (hmem sub hs) (hsessions ▸ he)
  refine ⟨hpending.trans h.pending, hcounts h.counts, ?_⟩
  have hf := h.facts
  cases k with
  | nothing => exact hvalid hf
  | fresh => exact ⟨hlive.trans hf.1, hbelow hf.2⟩
  | loop i => exact ⟨hlive.trans hf.1, hto.trans hf.2.1, hbelow hf.2.2⟩
  | loopMarked i sub =>
    exact ⟨hlive.trans hf.1, hto.trans hf.2.1, hbelow hf.2.2.1, hf.2.2.2.1, hf.2.2.2.2.trans hsessions.symm⟩
  | live => exact ⟨hlive.trans hf.1, hvalid hf.2⟩
  | mine i => exact ⟨hlive.trans hf.1, hvalid hf.2.1, hto.trans hf.2.2⟩
  | mineMarked sub => exact ⟨hlive.trans hf.1, hf.2.trans hsessions.symm⟩
  | sent => exact hlive.trans hf
  | acquired => exact ⟨hlive.trans hf.1, hvalid hf.2⟩
  | taken t =>
    obtain ⟨hl, hlt, hne, sub, hsub, hindex, hsession, hc, hnr, hnh⟩ := hf
    refine ⟨hlive.trans hl, hlt, fun x hx => hne x (hmem x hx), sub, hsub, hindex, hsession.trans hsessions.symm,
      hcounted sub hc, fun hr => ?_, by rw [hhanded]; exact hnh⟩
    exact (hring sub hr).elim hnr fun hn => hn hc
  | stopped => exact hrunning.trans hf
  | cleared => exact ⟨hlive.trans hf.1, hto.trans hf.2⟩

/-! ## One submission less, or more -/

theorem Good.eq_of_index (h : Good c s ring) {a b : Sub} (ha : a ∈ s.out) (hb : b ∈ s.out) (he : a.index = b.index) : a = b := by
  have hnd : (s.out.map Sub.index).Nodup := by
    have := h.nodup
    rw [map_append] at this
    exact (nodup_append.1 this).2.1
  exact inj_on_of_nodup_map hnd ha hb he

theorem Good.room (h : Good c s ring) {sub : Sub} (hs : sub ∈ s.out) : ring.length < maxBuffers := by
  have hsub : ((ring ++ [sub]).map Sub.index).Nodup := by
    refine h.nodup.sublist (List.Sublist.map _ (List.Sublist.append_left ?_ ring))
    exact singleton_sublist.2 hs
  have hle : (ring ++ [sub]).map Sub.index ⊆ List.range c.bufferCount := fun k hk => by
    obtain ⟨x, hx, rfl⟩ := mem_map.1 hk
    refine mem_range.2 (h.bound x ?_)
    rcases mem_append.1 hx with hx | hx
    · exact mem_append_left _ hx
    · exact mem_ring_out (mem_singleton.1 hx ▸ hs)
  have := (hsub.subperm hle).length_le
  rw [length_map, length_append, length_singleton, length_range] at this
  have := c.bufferCount_le
  omega

theorem slot_add (t : UInt32) (k : Nat) : State.slot (t + UInt32.ofNat k) = (t.toNat + k) % maxBuffers := by
  unfold State.slot maxBuffers
  rw [UInt32.toNat_add, UInt32.toNat_ofNat']
  omega

theorem slot_succ (t : UInt32) (k : Nat) : ((t + 1).toNat + k) % maxBuffers = (t.toNat + (k + 1)) % maxBuffers := by
  unfold maxBuffers
  rw [UInt32.toNat_add]
  have : (1 : UInt32).toNat = 1 := rfl
  omega

/-- **A submission that is out**, and the rest. -/
theorem Good.apart (h : Good c s ring) {sub : Sub} {rest : List Sub} (hp : s.out.Perm (sub :: rest)) :
    sub ∈ s.out ∧ (∀ x ∈ rest, x ∈ s.out) ∧ sub.index ∉ (ring ++ rest).map Sub.index ∧ ((ring ++ rest).map Sub.index).Nodup := by
  have hperm : (ring ++ s.out).Perm (sub :: (ring ++ rest)) := (hp.append_left ring).trans perm_middle
  have hnodup := (hperm.map Sub.index).nodup_iff.1 h.nodup
  rw [map_cons, nodup_cons] at hnodup
  exact ⟨hp.mem_iff.2 mem_cons_self, fun x hx => hp.mem_iff.2 (mem_cons_of_mem _ hx), hnodup.1, hnodup.2⟩

theorem index_ne {sub x : Sub} {rest : List Sub} (h : sub.index ∉ (ring ++ rest).map Sub.index) (hx : x ∈ ring ++ rest) :
    x.index ≠ sub.index := fun he => h (he ▸ mem_map.2 ⟨x, hx, rfl⟩)

theorem countP_perm {sub : Sub} {rest : List Sub} {n : Nat} (hp : s.out.Perm (sub :: rest)) :
    s.out.countP (·.session = n) = rest.countP (·.session = n) + if sub.session = n then 1 else 0 := by
  rw [hp.countP_eq, countP_cons]
  simp

/-- **A submission returned out of its session** is dropped. -/
theorem Good.drop (h : Good c s ring) {sub : Sub} {hands : List (Nat × Sub)} {stale : UInt32}
    (hperm : s.out.Perm (sub :: State.out { s with hands })) (hstale : s.submittedGen sub.index ≠ s.generation) :
    Good c { s with hands, staleCompletions := stale } ring := by
  obtain ⟨hs, hmem, hindex, hnodup⟩ := h.apart hperm
  have hother : s.live = true → sub.session ≠ s.sessions := fun hl he => hstale (h.gen hl sub hs he)
  refine ⟨hnodup, fun x hx => h.bound x ?_, fun x hx => h.session x (hmem x hx), fun hl x hx => h.gen hl x (hmem x hx),
    fun k hk => ?_, h.generation, fun hl => ?_, h.ringOf, h.slots, h.head, fun x hx => h.ids x (hmem x hx), h.countedIds,
    h.counted, h.once, h.handed, h.handedOnce, h.running, h.begun⟩
  · exact (mem_append.1 hx).elim (mem_append_left _) fun hx => mem_ring_out (hmem x hx)
  · obtain ⟨hl, x, hx, hxi, hxs⟩ := h.genOf k hk
    refine ⟨hl, x, ?_, hxi, hxs⟩
    rcases mem_cons.1 (hperm.mem_iff.1 hx) with rfl | hx
    · exact absurd hxs (hother hl)
    · exact hx
  · have := h.flight hl
    rw [countP_perm hperm, if_neg (hother hl), Nat.add_zero] at this
    exact this

/-- **A submission returned in its session** is counted, and is at the ring's head. -/
theorem Good.count (h : Good c s ring) {sub : Sub} {hands : List (Nat × Sub)} {now : Int}
    (hperm : s.out.Perm (sub :: State.out { s with hands })) (hgen : s.submittedGen sub.index = s.generation) :
    Good c { s.count i sub now with hands } (ring ++ [sub]) ∧ s.live = true ∧ sub.session = s.sessions := by
  obtain ⟨hs, hmem, hindex, hnodup⟩ := h.apart hperm
  have hne : s.submittedGen sub.index ≠ 0 := by
    rw [hgen]
    exact h.generation (h.session sub hs).2
  obtain ⟨hl, x, hx, hxi, hsession⟩ := h.genOf _ hne
  obtain rfl := h.eq_of_index hx hs hxi
  have hroom := h.room hs
  have hnew : x ∉ s.counted.map Counted.sub := (h.ids x hs).2
  have hslot : State.slot s.completedHead = (s.completedTail.toNat + ring.length) % maxBuffers := by
    rw [h.head, slot_add]
  have hupdate (k : Nat) (hk : k ≠ x.index) : Function.update s.submittedGen x.index 0 k = s.submittedGen k :=
    Function.update_of_ne hk _ _
  refine ⟨⟨?_, fun y hy => ?_, fun y hy => h.session y (hmem y hy), fun hl y hy he => ?_, fun k hk => ?_, h.generation,
    fun _ => ?_, fun y hy => ?_, fun k y hy => ?_, ?_, fun y hy => ?_, fun y hy => ?_, fun y hy => ?_, ?_, fun y hy => ?_,
    h.handedOnce, h.running, h.begun⟩, hl, hsession⟩
  · have hp : (ring ++ [x] ++ State.out { s with hands }).Perm (x :: (ring ++ State.out { s with hands })) := by
      rw [append_assoc]
      exact perm_middle
    exact (hp.map Sub.index).nodup_iff.2 (nodup_cons.2 ⟨hindex, hnodup⟩)
  · refine h.bound y ?_
    rcases mem_append.1 hy with hy | hy
    · exact (mem_append.1 hy).elim (mem_append_left _) fun hy => mem_ring_out (mem_singleton.1 hy ▸ hs)
    · exact mem_ring_out (hmem y hy)
  · exact (hupdate _ (index_ne hindex (mem_append_right _ hy))).trans (h.gen hl y (hmem y hy) he)
  · have hki : k ≠ x.index := fun he => hk (by rw [he]; exact Function.update_self x.index _ _)
    obtain ⟨-, y, hy, hyi, hys⟩ := h.genOf k (by rw [← hupdate k hki]; exact hk)
    refine ⟨hl, y, ?_, hyi, hys⟩
    rcases mem_cons.1 (hperm.mem_iff.1 hy) with rfl | hy
    · exact absurd hyi.symm hki
    · exact hy
  · have := h.flight hl
    rw [countP_perm hperm, if_pos hsession] at this
    show s.inFlight - 1 = ((State.out { s with hands }).countP (·.session = s.sessions) : Int)
    omega
  · rcases mem_append.1 hy with hy | hy
    · exact ⟨(h.ringOf y hy).1, (h.ringOf y hy).2.1, mem_cons_of_mem _ (h.ringOf y hy).2.2⟩
    · obtain rfl := mem_singleton.1 hy
      exact ⟨hl, hsession, mem_cons_self⟩
  · show Function.update s.completed (State.slot s.completedHead) x.index ((s.completedTail.toNat + k) % maxBuffers) = _ ∧
      Function.update s.returned (State.slot s.completedHead) (some x) ((s.completedTail.toNat + k) % maxBuffers) = _
    rcases Nat.lt_or_ge k ring.length with hk | hk
    · rw [getElem?_append_left hk] at hy
      have hnslot : (s.completedTail.toNat + k) % maxBuffers ≠ State.slot s.completedHead := by
        rw [hslot]
        unfold maxBuffers at hroom ⊢
        omega
      rw [Function.update_of_ne hnslot, Function.update_of_ne hnslot]
      exact h.slots k y hy
    · rw [getElem?_append_right hk, getElem?_singleton] at hy
      obtain ⟨hz, hy⟩ := Option.ite_none_right_eq_some.1 hy
      cases hy
      have hslot' : (s.completedTail.toNat + k) % maxBuffers = State.slot s.completedHead := by
        rw [hslot, show k = ring.length by omega]
      rw [hslot', Function.update_self, Function.update_self]
      exact ⟨rfl, rfl⟩
  · show s.completedHead + 1 = s.completedTail + UInt32.ofNat (ring ++ [x]).length
    rw [h.head, length_append, length_singleton, UInt32.ofNat_add, ← UInt32.add_assoc]
    rfl
  · obtain ⟨hid, hc⟩ := h.ids y (hmem y hy)
    refine ⟨hid, fun hm => (mem_cons.1 hm).elim (fun he => ?_) hc⟩
    exact index_ne hindex (mem_append_right _ hy) (by rw [he])
  · rcases mem_cons.1 hy with rfl | hy
    · exact (h.ids x hs).1
    · exact h.countedIds y hy
  · rcases mem_cons.1 hy with rfl | hy
    · exact hsession
    · exact h.counted y hy
  · exact nodup_cons.2 ⟨hnew, h.once⟩
  · obtain ⟨hheld, z, hz, hzs, hzi, hzc, hzr⟩ := h.handed y hy
    refine ⟨hheld, z, hz, hzs, hzi, mem_cons_of_mem _ hzc, fun hm => ?_⟩
    rcases mem_append.1 hm with hm | hm
    · exact hzr hm
    · rw [mem_singleton.1 hm] at hzc
      exact hnew hzc

end

end Sound
end Prose
