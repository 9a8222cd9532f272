import Prose.SoundKept
/-!
# SoundSteps — what every step of a call and of a callback keeps

The call knows what it has done, and a callback's step takes none of that away: whatever is under way then was so before.
-/
namespace Prose
namespace Sound

open Tasks List

section
variable {c : Config} {s s' : State} {ring : List Sub} {i : Nat} {g : Debt}

/-! ## The calls' steps -/

/-- **A buffer is marked** that is nowhere else. -/
theorem Good.mark (h : Good c s ring) (hlive : s.live = true) (hpending : s.pending = none) {index : Nat}
    (hlt : index < c.bufferCount) (hring : ∀ sub ∈ ring, sub.index ≠ index) (hout : ∀ sub ∈ s.out, sub.index ≠ index) :
    Good c { s with
      submittedGen := Function.update s.submittedGen index s.generation, inFlight := s.inFlight + 1
      pending := some ⟨s.marks, index, s.sessions⟩, marks := s.marks + 1 } ring := by
  have hout' : State.out { s with
      submittedGen := Function.update s.submittedGen index s.generation, inFlight := s.inFlight + 1
      pending := some ⟨s.marks, index, s.sessions⟩, marks := s.marks + 1 } = ⟨s.marks, index, s.sessions⟩ :: s.out := by
    unfold State.out
    rw [hpending]
    rfl
  have hsame (k : Nat) (hk : k ≠ index) : Function.update s.submittedGen index s.generation k = s.submittedGen k :=
    Function.update_of_ne hk _ _
  have hself : Function.update s.submittedGen index s.generation index = s.generation := Function.update_self index _ _
  refine ⟨?_, ?_, ?_, ?_, fun k hk => ?_, h.generation, fun _ => ?_, h.ringOf, h.slots, h.head, ?_,
    fun x hx => Nat.lt_succ_of_lt (h.countedIds x hx), h.counted, h.once, h.handed, h.handedOnce, h.running, h.begun⟩
  · rw [hout']
    have hp : (ring ++ ⟨s.marks, index, s.sessions⟩ :: s.out).Perm (⟨s.marks, index, s.sessions⟩ :: (ring ++ s.out)) :=
      perm_middle
    refine (hp.map Sub.index).nodup_iff.2 (nodup_cons.2 ⟨fun hm => ?_, h.nodup⟩)
    obtain ⟨x, hx, hxi⟩ := mem_map.1 hm
    exact (mem_append.1 hx).elim (fun hx => hring x hx hxi) fun hx => hout x hx hxi
  · rw [hout']
    intro x hx
    rcases mem_append.1 hx with hx | hx
    · exact h.bound x (mem_append_left _ hx)
    · rcases mem_cons.1 hx with rfl | hx
      · exact hlt
      · exact h.bound x (mem_ring_out hx)
  · rw [hout']
    intro x hx
    rcases mem_cons.1 hx with rfl | hx
    · exact ⟨le_refl _, h.begun hlive⟩
    · exact h.session x hx
  · rw [hout']
    intro hl x hx he
    rcases mem_cons.1 hx with rfl | hx
    · exact hself
    · exact (hsame _ (hout x hx)).trans (h.gen hl x hx he)
  · rw [hout']
    by_cases hki : k = index
    · exact ⟨hlive, _, mem_cons_self, hki.symm, rfl⟩
    · obtain ⟨hl, x, hx, hrest⟩ := h.genOf k (by rw [← hsame k hki]; exact hk)
      exact ⟨hl, x, mem_cons_of_mem _ hx, hrest⟩
  · rw [hout', countP_cons]
    have := h.flight hlive
    show s.inFlight + 1 = _
    simp only [decide_true, ite_true]
    push_cast
    rw [this]
  · rw [hout']
    intro x hx
    rcases mem_cons.1 hx with rfl | hx
    · refine ⟨Nat.lt_succ_self _, fun hm => ?_⟩
      obtain ⟨y, hy, he⟩ := mem_map.1 hm
      have := h.countedIds y hy
      rw [he] at this
      exact absurd this (lt_irrefl _)
    · exact ⟨Nat.lt_succ_of_lt (h.ids x hx).1, (h.ids x hx).2⟩

/-- **A buffer that is not queued** is unmarked. -/
theorem Good.unmark (h : Good c s ring) {sub : Sub} (hlive : s.live = true) (hpending : s.pending = some sub)
    (hsession : sub.session = s.sessions) : Good c { s with
      submittedGen := Function.update s.submittedGen sub.index 0, inFlight := s.inFlight - 1, pending := none } ring := by
  have hperm : s.out.Perm (sub :: State.out { s with
      submittedGen := Function.update s.submittedGen sub.index 0, inFlight := s.inFlight - 1, pending := none }) := by
    unfold State.out
    rw [hpending]
    exact .refl _
  obtain ⟨hs, hmem, hindex, hnodup⟩ := h.apart hperm
  have hsame (k : Nat) (hk : k ≠ sub.index) : Function.update s.submittedGen sub.index 0 k = s.submittedGen k :=
    Function.update_of_ne hk _ _
  refine ⟨hnodup, fun x hx => h.bound x ?_, fun x hx => h.session x (hmem x hx), fun hl x hx he => ?_, fun k hk => ?_,
    h.generation, fun _ => ?_, h.ringOf, h.slots, h.head, fun x hx => h.ids x (hmem x hx), h.countedIds, h.counted, h.once,
    h.handed, h.handedOnce, h.running, h.begun⟩
  · exact (mem_append.1 hx).elim (mem_append_left _) fun hx => mem_ring_out (hmem x hx)
  · exact (hsame _ (index_ne hindex (mem_append_right _ hx))).trans (h.gen hl x (hmem x hx) he)
  · have hki : k ≠ sub.index := fun he => hk (by rw [he]; exact Function.update_self sub.index _ _)
    obtain ⟨-, x, hx, hxi, hxs⟩ := h.genOf k (by rw [← hsame k hki]; exact hk)
    refine ⟨hlive, x, ?_, hxi, hxs⟩
    rcases mem_cons.1 (hperm.mem_iff.1 hx) with rfl | hx
    · exact absurd hxi.symm hki
    · exact hx
  · have := h.flight hlive
    rw [countP_perm hperm, if_pos hsession] at this
    show s.inFlight - 1 = ((State.out { s with pending := none }).countP (·.session = s.sessions) : Int)
    push_cast at this
    rw [this]
    exact Int.add_sub_cancel _ _

/-- **The oldest completion** is taken from the ring. -/
theorem Good.takeCompleted {sub : Sub} {rest : List Sub} (h : Good c s (sub :: rest)) :
    Good c { s with completedTail := s.completedTail + 1 } rest ∧ s.completed (State.slot s.completedTail) = sub.index ∧
      s.returned (State.slot s.completedTail) = some sub := by
  have hnodup := h.nodup
  rw [cons_append, map_cons, nodup_cons] at hnodup
  refine ⟨⟨hnodup.2, fun x hx => h.bound x (mem_cons_of_mem _ hx), h.session, h.gen, h.genOf, h.generation, h.flight,
    fun x hx => h.ringOf x (mem_cons_of_mem _ hx), fun k x hx => ?_, ?_, h.ids, h.countedIds, h.counted, h.once,
    fun x hx => ?_, h.handedOnce, h.running, h.begun⟩, ?_⟩
  · show s.completed (((s.completedTail + 1).toNat + k) % maxBuffers) = _ ∧
      s.returned (((s.completedTail + 1).toNat + k) % maxBuffers) = _
    rw [slot_succ]
    exact h.slots (k + 1) x hx
  · show s.completedHead = s.completedTail + 1 + UInt32.ofNat rest.length
    rw [h.head, length_cons, UInt32.ofNat_add, UInt32.add_comm (UInt32.ofNat _), ← UInt32.add_assoc]
    rfl
  · obtain ⟨hheld, z, hz, hzs, hzi, hzc, hzr⟩ := h.handed x hx
    exact ⟨hheld, z, hz, hzs, hzi, hzc, fun hm => hzr (mem_cons_of_mem _ hm)⟩
  · exact h.slots 0 sub rfl

/-- **A buffer is handed to the mixer**, that the device does not have. -/
theorem Good.exchanged (h : Good c s ring) {t : Taken} {sub : Sub} (hout : ∀ x ∈ ring ++ s.out, x.index ≠ t.index)
    (hsub : t.sub = some sub) (hindex : sub.index = t.index) (hsession : sub.session = s.sessions)
    (hcounted : sub ∈ s.counted.map Counted.sub) (hring : sub ∉ ring) (hnew : some sub ∉ s.handed.map Handed.sub)
    {toSubmit : Option Nat} {exchanges : UInt32} {anchorTime : Int} {anchorExchanges : UInt32} :
    Good c { s with
      anchorTime, anchorExchanges, toSubmit, exchanges
      handed := ⟨s.sessions, t.index, t.sub, s.device.any (·.index = t.index)⟩ :: s.handed } ring := by
  refine ⟨h.nodup, h.bound, h.session, h.gen, h.genOf, h.generation, h.flight, h.ringOf, h.slots, h.head, h.ids, h.countedIds,
    h.counted, h.once, fun x hx => ?_, ?_, h.running, h.begun⟩
  · rcases mem_cons.1 hx with rfl | hx
    · refine ⟨?_, sub, hsub, hsession, hindex, hcounted, hring⟩
      refine any_eq_false.2 fun x hx => ?_
      have := hout x (mem_ring_out (mem_append_right _ (mem_append_left _ hx)))
      simpa using this
    · exact h.handed x hx
  · refine nodup_cons.2 ⟨?_, h.handedOnce⟩
    rw [hsub]
    exact hnew

/-- **A session begins**: what is out is of others. -/
theorem Good.reset (h : Good c s ring) (hgeneration : s.generation + 1 ≠ 0) : Good c { s with
      generation := s.generation + 1, submittedGen := fun _ => 0, inFlight := 0, completedHead := 0, completedTail := 0
      sessions := s.sessions + 1, live := true } [] := by
  have hold (x : Sub) (hx : x ∈ s.out) : x.session ≠ s.sessions + 1 := by
    have := (h.session x hx).1
    omega
  have hnodup := h.nodup
  rw [map_append] at hnodup
  refine ⟨(nodup_append.1 hnodup).2.1, fun x hx => h.bound x (mem_ring_out hx),
    fun x hx => ⟨Nat.le_succ_of_le (h.session x hx).1, Nat.succ_ne_zero _⟩, fun _ x hx he => absurd he (hold x hx),
    fun k hk => absurd rfl hk, fun _ => hgeneration, fun _ => ?_, nofun, nofun, rfl, h.ids, h.countedIds, h.counted, h.once,
    fun x hx => ?_, h.handedOnce, fun _ => rfl, fun _ => Nat.succ_ne_zero _⟩
  · show (0 : Int) = (s.out.countP (·.session = s.sessions + 1) : Int)
    have hzero : s.out.countP (·.session = s.sessions + 1) = 0 := by
      rw [countP_eq_zero]
      intro x hx
      simpa using hold x hx
    rw [hzero]
    rfl
  · obtain ⟨hheld, z, hz, hzs, hzi, hzc, -⟩ := h.handed x hx
    exact ⟨hheld, z, hz, hzs, hzi, hzc, not_mem_nil⟩

/-- **It ends**: whatever comes back from now on is none of anyone's. -/
theorem Good.clear (h : Good c s ring) (hrunning : s.running = false) : Good c { s with
      completedHead := 0, completedTail := 0, toSubmit := none, inFlight := 0, submittedGen := fun _ => 0, live := false } [] := by
  have hnodup := h.nodup
  rw [map_append] at hnodup
  refine ⟨(nodup_append.1 hnodup).2.1, fun x hx => h.bound x (mem_ring_out hx), h.session, nofun,
    fun k hk => absurd rfl hk, h.generation, nofun, nofun, nofun, rfl, h.ids, h.countedIds, h.counted, h.once, fun x hx => ?_,
    h.handedOnce, fun hr => ?_, nofun⟩
  · obtain ⟨hheld, z, hz, hzs, hzi, hzc, -⟩ := h.handed x hx
    exact ⟨hheld, z, hz, hzs, hzi, hzc, not_mem_nil⟩
  · exact absurd (hrunning.symm.trans hr) nofun

/-! ## Threads -/

structure Has (c : Config) (s : State) (ring : List Sub) (i : Nat) (g : Debt) : Prop where
  op : g.op = true → s.busy = true ∧ Knows c s ring g.know
  hand : ∀ sub, g.hand = some sub → (i, sub) ∈ s.hands
  releasing : g.releasing = true → i ∈ s.releasing

theorem Has.other {ring' : List Sub} {j : Nat} (h : Has c s ring j g)
    (hop : g.op = true → s'.busy = true ∧ Knows c s' ring' g.know) (hhands : ∀ sub, (j, sub) ∈ s.hands → (j, sub) ∈ s'.hands)
    (hreleasing : j ∈ s.releasing → j ∈ s'.releasing) : Has c s' ring' j g :=
  ⟨hop, fun sub hs => hhands sub (h.hand sub hs), fun hr => hreleasing (h.releasing hr)⟩

/-- **What a call's action keeps**: the callbacks have what they had. -/
structure CallStep (c : Config) (s s' : State) (ring' : List Sub) (i : Nat) (g' : Debt) : Prop where
  good : Good c s' ring'
  own : Has c s' ring' i g'
  free : s'.busy = false → Knows c s' ring' .nothing
  hands : s'.hands = s.hands
  releasing : s'.releasing = s.releasing
  threads : s'.threads = s.threads

theorem call_goes {ring' : List Sub} {k : Know} (hh : Has c s ring i g) (hbusy : s.busy = true) (hg : Good c s' ring')
    (hk : Knows c s' ring' k) (hb : s'.busy = s.busy) (hhands : s'.hands = s.hands) (hreleasing : s'.releasing = s.releasing)
    (hthreads : s'.threads = s.threads) : CallStep c s s' ring' i { g with know := k } := by
  refine ⟨hg, ⟨fun _ => ⟨hb.trans hbusy, hk⟩, fun sub hs => ?_, fun hr => ?_⟩, fun hf => ?_, hhands, hreleasing, hthreads⟩
  · rw [hhands]
    exact hh.hand sub hs
  · rw [hreleasing]
    exact hh.releasing hr
  · exact absurd (hbusy.symm.trans (hb.symm.trans hf)) nofun

theorem Knows.same {k : Know} (h : Knows c s ring k) (hpending : s'.pending = s.pending) (hsem : s'.readySem = s.readySem)
    (hreleasing : s'.releasing = s.releasing) (hlive : s'.live = s.live) (hsessions : s'.sessions = s.sessions)
    (hto : s'.toSubmit = s.toSubmit) (hrunning : s'.running = s.running) (hhanded : s'.handed = s.handed) (hout : s'.out = s.out)
    (hcounted : s'.counted = s.counted) : Knows c s' ring k := by
  refine h.keep hpending (fun hc hl => ?_) hlive hsessions hto hrunning hhanded (fun sub hs => ?_) (fun sub hs => ?_)
    fun sub hs => .inl hs
  · rw [hsem, hreleasing]
    exact hc (hlive ▸ hl)
  · rw [← hout]
    exact hs
  · rw [hcounted]
    exact hs

section
variable (hg : Good c s ring) (hbusy : s.busy = true) (hh : Has c s ring i g) (hop : g.op = true)
include hg hbusy hh hop

theorem running_step (hk : g.know = .nothing) :
    CallStep c s s ring i { g with know := if s.running then .live else .nothing } := by
  refine call_goes hh hbusy hg ?_ rfl rfl rfl rfl
  have hknows := (hh.op hop).2
  rw [hk] at hknows
  split
  · next hr => exact ⟨hknows.pending, hknows.counts, hg.running hr, hknows.facts⟩
  · exact hknows

theorem toSubmit_step (hk : g.know = .live) : CallStep c s s ring i { g with know := s.toSubmit.elim .live .mine } := by
  refine call_goes hh hbusy hg ?_ rfl rfl rfl rfl
  have hknows := (hh.op hop).2
  rw [hk] at hknows
  cases ht : s.toSubmit with
  | none => exact hknows
  | some index => exact ⟨hknows.pending, hknows.counts, hknows.facts.1, hknows.facts.2, ht⟩

theorem reset_step (hk : g.know = .nothing) (hsem : s.readySem = 0) (hreleasing : s.releasing = [])
    (hgeneration : s.generation + 1 ≠ 0) : CallStep c s { s with
      generation := s.generation + 1, submittedGen := fun _ => 0, inFlight := 0, completedHead := 0, completedTail := 0
      sessions := s.sessions + 1, live := true } [] i { g with know := .fresh } := by
  have hknows := (hh.op hop).2
  rw [hk] at hknows
  refine call_goes hh hbusy (hg.reset hgeneration) ⟨hknows.pending, fun _ => ?_, rfl, fun sub hs he => ?_⟩ rfl rfl rfl rfl
  · show s.readySem + s.releasing.length + 0 = 0
    rw [hsem, hreleasing]
    rfl
  · have := (hg.session sub hs).1
    have he : sub.session = s.sessions + 1 := he
    omega

theorem clearToSubmit_step (hk : g.know = .fresh ∨ g.know = .sent) : CallStep c s { s with toSubmit := none } ring i
    { g with know := if g.know = .fresh then .loop 0 else .live } := by
  have hknows := (hh.op hop).2
  refine call_goes hh hbusy (hg.same (.refl _) rfl rfl rfl rfl rfl ⟨rfl, rfl⟩ ⟨rfl, rfl⟩ rfl rfl rfl hg.running) ?_ rfl rfl rfl rfl
  rcases hk with hk | hk <;> rw [hk] at hknows ⊢
  · exact ⟨hknows.pending, hknows.counts, hknows.facts.1, rfl, hknows.facts.2⟩
  · exact ⟨hknows.pending, hknows.counts, hknows.facts, nofun⟩

theorem started_step {n : Nat} (hk : g.know = .loop n) {now : Int} : CallStep c s
    { s with exchanges := 0, anchorTime := now, anchorExchanges := 0, running := true } ring i { g with know := .live } := by
  have hknows := (hh.op hop).2
  rw [hk] at hknows
  obtain ⟨hlive, hto, -⟩ := hknows.facts
  refine call_goes hh hbusy (hg.same (.refl _) rfl rfl rfl rfl rfl ⟨rfl, rfl⟩ ⟨rfl, rfl⟩ rfl rfl rfl fun _ => hlive)
    ⟨hknows.pending, hknows.counts, hlive, fun n hn => ?_⟩ rfl rfl rfl rfl
  exact absurd (hto.symm.trans hn) nofun

/-- **A buffer is marked**, by the loop of a start or after the mixer has filled it. -/
theorem mark_step {index : Nat} (hfine : ∀ sub ∈ s.out, sub.index ≠ index)
    (hk : g.know = .loop index ∧ index < c.bufferCount ∨ g.know = .mine index) : CallStep c s { s with
      submittedGen := Function.update s.submittedGen index s.generation, inFlight := s.inFlight + 1
      pending := some ⟨s.marks, index, s.sessions⟩, marks := s.marks + 1 } ring i
    { g with know := g.know.marked ⟨s.marks, index, s.sessions⟩ } := by
  have hknows := (hh.op hop).2
  rcases hk with ⟨hk, hlt⟩ | hk <;> rw [hk] at hknows ⊢
  · obtain ⟨hlive, hto, hbelow⟩ := hknows.facts
    have hring (sub : Sub) (hs : sub ∈ ring) : sub.index < index :=
      hbelow sub (mem_append_left _ hs) (hg.ringOf sub hs).2.1
    refine call_goes hh hbusy (hg.mark hlive hknows.pending hlt (fun sub hs => (hring sub hs).ne) hfine)
      ⟨rfl, hknows.counts, hlive, hto, fun sub hs he => ?_, rfl, rfl⟩ rfl rfl rfl rfl
    rcases mem_append.1 hs with hs | hs
    · exact Nat.lt_succ_of_lt (hring sub hs)
    rcases mem_append.1 hs with hs | hs
    · obtain rfl := mem_singleton.1 hs
      exact Nat.lt_succ_self _
    · exact Nat.lt_succ_of_lt (hbelow sub (mem_ring_out (mem_append_right _ hs)) he)
  · obtain ⟨hlive, hvalid, hto⟩ := hknows.facts
    obtain ⟨-, hlt, hne⟩ := hvalid index hto
    exact call_goes hh hbusy (hg.mark hlive hknows.pending hlt (fun sub hs => hne sub (mem_append_left _ hs)) hfine)
      ⟨rfl, hknows.counts, hlive, rfl⟩ rfl rfl rfl rfl

theorem queue_step {sub : Sub} (hk : (∃ n, g.know = .loopMarked n sub) ∨ g.know = .mineMarked sub) :
    CallStep c s { s with pending := none, device := s.device ++ [sub] } ring i { g with know := g.know.queued true } := by
  have hknows := (hh.op hop).2
  have hpending : s.pending = some sub := by
    rcases hk with ⟨n, hk⟩ | hk <;> rw [hk] at hknows <;> exact hknows.pending
  have hperm : (State.out { s with pending := none, device := s.device ++ [sub] }).Perm s.out := by
    unfold State.out
    rw [hpending, append_assoc]
    exact perm_middle
  refine call_goes hh hbusy (hg.same hperm rfl rfl rfl rfl rfl ⟨rfl, rfl⟩ ⟨rfl, rfl⟩ rfl rfl rfl hg.running) ?_ rfl rfl rfl rfl
  rcases hk with ⟨n, hk⟩ | hk <;> rw [hk] at hknows ⊢
  · obtain ⟨hlive, hto, hbelow, -, -⟩ := hknows.facts
    exact ⟨rfl, hknows.counts, hlive, hto, fun x hx he => hbelow x ((hperm.append_left ring).mem_iff.1 hx) he⟩
  · exact ⟨rfl, hknows.counts, hknows.facts.1⟩

theorem unmark_step {sub : Sub} (hk : (∃ n, g.know = .loopMarked n sub) ∨ g.know = .mineMarked sub) : CallStep c s { s with
      submittedGen := Function.update s.submittedGen sub.index 0, inFlight := s.inFlight - 1, pending := none } ring i
    { g with know := g.know.unmarked } := by
  have hknows := (hh.op hop).2
  rcases hk with ⟨n, hk⟩ | hk <;> rw [hk] at hknows ⊢
  · obtain ⟨hlive, hto, hbelow, hindex, hsession⟩ := hknows.facts
    have hpending : s.pending = some sub := hknows.pending
    have hperm : s.out.Perm (sub :: State.out { s with pending := none }) := by
      unfold State.out
      rw [hpending]
      exact .refl _
    obtain ⟨-, hmem, hnew, -⟩ := hg.apart hperm
    refine call_goes hh hbusy (hg.unmark hlive hpending hsession) ⟨rfl, hknows.counts, hlive, hto, fun x hx he => ?_⟩ rfl rfl rfl rfl
    have hx : x ∈ ring ++ State.out { s with pending := none } := hx
    have hlt := hbelow x ((mem_append.1 hx).elim (mem_append_left _) fun hx => mem_ring_out (hmem x hx)) he
    have hne := index_ne hnew hx
    omega
  · obtain ⟨hlive, hsession⟩ := hknows.facts
    exact call_goes hh hbusy (hg.unmark hlive hknows.pending hsession) ⟨rfl, hknows.counts, hlive⟩ rfl rfl rfl rfl

theorem acquired_step (hk : g.know = .live) (hsem : s.readySem ≠ 0) :
    CallStep c s { s with readySem := s.readySem - 1 } ring i { g with know := .acquired } := by
  have hknows := (hh.op hop).2
  rw [hk] at hknows
  refine call_goes hh hbusy (hg.same (.refl _) rfl rfl rfl rfl rfl ⟨rfl, rfl⟩ ⟨rfl, rfl⟩ rfl rfl rfl hg.running)
    ⟨hknows.pending, fun hl => ?_, hknows.facts⟩ rfl rfl rfl rfl
  have hcounts : s.readySem + s.releasing.length + 0 = ring.length := hknows.counts hl
  show s.readySem - 1 + s.releasing.length + 1 = ring.length
  omega

/-- **A count taken is a completion in the ring.** -/
theorem takeCompleted_step (hk : g.know = .acquired) : ∃ ring', CallStep c s { s with completedTail := s.completedTail + 1 } ring' i
    { g with know := .taken ⟨s.completed (State.slot s.completedTail), s.completedTime (State.slot s.completedTail),
      s.returned (State.slot s.completedTail)⟩ } := by
  have hknows := (hh.op hop).2
  rw [hk] at hknows
  obtain ⟨hlive, -⟩ := hknows.facts
  have hcounts : s.readySem + s.releasing.length + 1 = ring.length := hknows.counts hlive
  cases ring with
  | nil => exact nomatch hcounts
  | cons sub rest =>
    obtain ⟨hgood, hindex, hreturned⟩ := hg.takeCompleted
    have hnodup := hg.nodup
    rw [cons_append, map_cons, nodup_cons] at hnodup
    obtain ⟨-, hsession, hcounted⟩ := hg.ringOf sub mem_cons_self
    have hlt := hg.bound sub mem_cons_self
    refine ⟨rest, call_goes hh hbusy hgood ⟨hknows.pending, fun _ => ?_, hlive, ?_, ?_, sub, hreturned, hindex.symm, hsession,
      hcounted, fun hm => ?_, fun hm => ?_⟩ rfl rfl rfl rfl⟩
    · show s.readySem + s.releasing.length + 0 = rest.length
      rw [length_cons] at hcounts
      omega
    · rw [hindex]
      exact hlt
    · rw [hindex]
      exact fun x hx => index_ne hnodup.1 hx
    · exact hnodup.1 (mem_map.2 ⟨sub, mem_append_left _ hm, rfl⟩)
    · obtain ⟨x, hx, he⟩ := mem_map.1 hm
      obtain ⟨-, z, hz, -, -, -, hzr⟩ := hg.handed x hx
      obtain rfl := Option.some.inj (hz.symm.trans he)
      exact hzr mem_cons_self

theorem exchanged_step {t : Taken} (hk : g.know = .taken t) {exchanges anchorExchanges : UInt32} {anchorTime : Int} :
    CallStep c s { s with
      anchorTime, anchorExchanges, toSubmit := some t.index, exchanges
      handed := ⟨s.sessions, t.index, t.sub, s.device.any (·.index = t.index)⟩ :: s.handed } ring i { g with know := .live } := by
  have hknows := (hh.op hop).2
  rw [hk] at hknows
  obtain ⟨hlive, hlt, hne, sub, hsub, hindex, hsession, hcounted, hring, hnew⟩ := hknows.facts
  refine call_goes hh hbusy (hg.exchanged hne hsub hindex hsession hcounted hring hnew)
    ⟨hknows.pending, hknows.counts, hlive, fun n hn => ?_⟩ rfl rfl rfl rfl
  cases hn
  exact ⟨hlive, hlt, hne⟩

theorem stopped_step (hk : g.know = .nothing ∨ g.know = .live) :
    CallStep c s { s with running := false, prepared := false } ring i { g with know := .stopped } := by
  have hknows := (hh.op hop).2
  refine call_goes hh hbusy (hg.same (.refl _) rfl rfl rfl rfl rfl ⟨rfl, rfl⟩ ⟨rfl, rfl⟩ rfl rfl rfl nofun) ?_ rfl rfl rfl rfl
  rcases hk with hk | hk <;> rw [hk] at hknows <;> exact ⟨hknows.pending, hknows.counts, rfl⟩

theorem clear_step (hk : g.know = .stopped) : CallStep c s { s with
      completedHead := 0, completedTail := 0, toSubmit := none, inFlight := 0, submittedGen := fun _ => 0, live := false } [] i
    { g with know := .cleared } := by
  have hknows := (hh.op hop).2
  rw [hk] at hknows
  exact call_goes hh hbusy (hg.clear hknows.facts) ⟨hknows.pending, nofun, rfl, rfl⟩ rfl rfl rfl rfl

theorem drainSem_step (hk : g.know = .cleared) : CallStep c s { s with readySem := 0 } ring i g := by
  have hknows := (hh.op hop).2
  obtain ⟨op, know, hand, releasing⟩ := g
  obtain rfl : know = .cleared := hk
  refine call_goes hh hbusy (hg.same (.refl _) rfl rfl rfl rfl rfl ⟨rfl, rfl⟩ ⟨rfl, rfl⟩ rfl rfl rfl hg.running)
    ⟨hknows.pending, fun hl => ?_, hknows.facts⟩ rfl rfl rfl rfl
  exact absurd (hknows.facts.1.symm.trans hl) nofun

end

/-- **The call returns**, and the next one knows nothing. -/
theorem finish_step (hg : Good c s ring) (hh : Has c s ring i g) (hop : g.op = true)
    (hk : g.know = .nothing ∨ g.know = .live ∨ g.know = .cleared ∨ ∃ n, g.know = .loop n) :
    CallStep c s { s with busy := false } ring i { g with op := false, know := .nothing } := by
  have hknows := (hh.op hop).2
  have hnone (h : s.toSubmit = none) : Valid c s ring := fun n hn => absurd (h.symm.trans hn) nofun
  refine ⟨hg.same (.refl _) rfl rfl rfl rfl rfl ⟨rfl, rfl⟩ ⟨rfl, rfl⟩ rfl rfl rfl hg.running, ⟨nofun, hh.hand, hh.releasing⟩,
    fun _ => ?_, rfl, rfl, rfl⟩
  rcases hk with hk | hk | hk | ⟨n, hk⟩ <;> rw [hk] at hknows
  · exact ⟨hknows.pending, hknows.counts, hknows.facts⟩
  · exact ⟨hknows.pending, hknows.counts, hknows.facts.2⟩
  · exact ⟨hknows.pending, hknows.counts, hnone hknows.facts.2⟩
  · exact ⟨hknows.pending, hknows.counts, hnone hknows.facts.2.1⟩

/-- **Every action of a call.** -/
theorem call_step {ch : Choice} (hg : Good c s ring) (hbusy : s.busy = true) (hh : Has c s ring i g) (hop : g.op = true) :
    ∀ {a : Act} {r : Answer a}, FineAct s a → ready c a g → s.perform c i ch a = some (s', r) →
    ∃ ring', CallStep c s s' ring' i (after a r g) ∧ may c a r
  | .copyIn, _, _, _, hp | .prepared, _, _, _, hp | .request _, _, _, _, hp | .copyOut _, _, _, _, hp | .drain, _, _, _, hp => by
    cases hp
    exact ⟨ring, call_goes hh hbusy hg (hh.op hop).2 rfl rfl rfl rfl, trivial⟩
  | .setPrepared, _, _, _, hp | .countSubmitted, _, _, _, hp => by
    cases hp
    exact ⟨ring, call_goes hh hbusy (hg.same (.refl _) rfl rfl rfl rfl rfl ⟨rfl, rfl⟩ ⟨rfl, rfl⟩ rfl rfl rfl hg.running)
      ((hh.op hop).2.same rfl rfl rfl rfl rfl rfl rfl rfl rfl rfl) rfl rfl rfl rfl, trivial⟩
  | .running, _, _, hr, hp => by
    cases hp
    exact ⟨ring, running_step hg hbusy hh hop hr.2, trivial⟩
  | .toSubmit, _, _, hr, hp => by
    cases hp
    exact ⟨ring, toSubmit_step hg hbusy hh hop hr.2, trivial⟩
  | .reset, _, hfine, hr, hp => by
    cases hp
    exact ⟨[], reset_step hg hbusy hh hop hr.2 hfine.1 hfine.2.1 hfine.2.2, trivial⟩
  | .clearToSubmit, _, _, hr, hp => by
    cases hp
    exact ⟨ring, clearToSubmit_step hg hbusy hh hop hr.2, trivial⟩
  | .started, _, _, hr, hp => by
    cases hp
    obtain ⟨n, hk⟩ := hr.2
    exact ⟨ring, started_step hg hbusy hh hop hk, trivial⟩
  | .mark index, _, hfine, hr, hp => by
    cases hp
    exact ⟨ring, mark_step hg hbusy hh hop hfine hr.2, trivial⟩
  | .queue sub, _, _, hr, hp => by
    cases hp
    cases ch.ok with
    | true => exact ⟨ring, queue_step hg hbusy hh hop hr.2, trivial⟩
    | false =>
      have hsame : g.know.queued false = g.know := by
        rcases hr.2 with ⟨n, hk⟩ | hk <;> rw [hk] <;> rfl
      refine ⟨ring, call_goes hh hbusy hg ?_ rfl rfl rfl rfl, trivial⟩
      rw [hsame]
      exact (hh.op hop).2
  | .unmark sub, _, _, hr, hp => by
    cases hp
    exact ⟨ring, unmark_step hg hbusy hh hop hr.2, trivial⟩
  | .acquire, _, _, hr, hp => by
    unfold State.perform at hp
    dsimp only at hp
    split at hp
    · obtain ⟨hsem, hp⟩ := Option.ite_none_right_eq_some.1 hp
      cases hp
      exact ⟨ring, acquired_step hg hbusy hh hop hr.2 hsem, trivial⟩
    cases hp
    refine ⟨ring, call_goes hh hbusy hg ?_ rfl rfl rfl rfl, trivial⟩
    rw [← hr.2]
    exact (hh.op hop).2
  | .takeCompleted, _, _, hr, hp => by
    cases hp
    obtain ⟨ring', h⟩ := takeCompleted_step hg hbusy hh hop hr.2
    exact ⟨ring', h, trivial⟩
  | .exchanged t, _, _, hr, hp => by
    cases hp
    exact ⟨ring, exchanged_step hg hbusy hh hop hr.2, trivial⟩
  | .stopped, _, _, hr, hp => by
    cases hp
    exact ⟨ring, stopped_step hg hbusy hh hop hr.2, trivial⟩
  | .clear, _, _, hr, hp => by
    cases hp
    exact ⟨[], clear_step hg hbusy hh hop hr.2, trivial⟩
  | .drainSem, _, _, hr, hp => by
    cases hp
    exact ⟨ring, drainSem_step hg hbusy hh hop hr.2, trivial⟩
  | .finish, _, _, hr, hp => by
    cases hp
    exact ⟨ring, finish_step hg hh hop hr.2, trivial⟩
  | .dequeue, _, _, hr, _ | .take _, _, _, hr, _ | .releaseSem, _, _, hr, _ => absurd (hr.1.symm.trans hop) nofun

/-! ## The callbacks' steps -/

/-- **What a callback's action keeps**: the call knows what it knew. -/
structure HandStep (c : Config) (s s' : State) (ring ring' : List Sub) (i : Nat) (g' : Debt) : Prop where
  good : Good c s' ring'
  own : Has c s' ring' i g'
  op : g'.op = false
  knows : ∀ {k : Know}, Knows c s ring k → Knows c s' ring' k
  hands : ∀ j sub, j ≠ i → (j, sub) ∈ s.hands → (j, sub) ∈ s'.hands
  releasing : ∀ j, j ≠ i → j ∈ s.releasing → j ∈ s'.releasing
  busy : s'.busy = s.busy
  threads : s'.threads = s.threads

theorem dequeue_step (hg : Good c s ring) (hh : Has c s ring i g) (hop : g.op = false) {sub : Sub} {rest : List Sub}
    (hused : s.used = sub :: rest) :
    HandStep c s { s with used := rest, hands := (i, sub) :: s.hands } ring ring i { g with hand := some sub } ∧
      sub.index < c.bufferCount := by
  have hperm : (State.out { s with used := rest, hands := (i, sub) :: s.hands }).Perm s.out := by
    unfold State.out
    rw [hused]
    exact (perm_middle.append_left _).append_left _
  have hin : sub ∈ s.out := by
    unfold State.out
    rw [hused]
    exact mem_append_right _ (mem_append_right _ mem_cons_self)
  refine ⟨⟨hg.same hperm rfl rfl rfl rfl rfl ⟨rfl, rfl⟩ ⟨rfl, rfl⟩ rfl rfl rfl hg.running, ⟨fun h => ?_, fun x hx => ?_, hh.releasing⟩,
    hop, fun hk => ?_, fun j x _ hx => mem_cons_of_mem _ hx, fun _ _ h => h, rfl, rfl⟩, hg.bound sub (mem_ring_out hin)⟩
  · exact absurd (hop.symm.trans h) nofun
  · cases hx
    exact mem_cons_self
  · exact hk.keep rfl id rfl rfl rfl rfl rfl (fun x hx => (hperm.append_left ring).mem_iff.1 hx) (fun _ h => h) fun _ h => .inl h

theorem out_hand {sub : Sub} (h : (i, sub) ∈ s.hands) :
    s.out.Perm (sub :: State.out { s with hands := s.hands.erase (i, sub) }) := by
  have hmap : (s.hands.map Prod.snd).Perm (sub :: (s.hands.erase (i, sub)).map Prod.snd) := (perm_cons_erase h).map _
  unfold State.out
  refine ((hmap.append_left _).append_left _).append_left _ |>.trans ?_
  refine .trans ?_ perm_middle
  refine .append_left _ (.trans ?_ perm_middle)
  exact .append_left _ perm_middle

theorem hands_erase {sub x : Sub} {j : Nat} (hj : j ≠ i) (h : (j, x) ∈ s.hands) : (j, x) ∈ s.hands.erase (i, sub) :=
  (mem_erase_of_ne fun he => hj (Prod.mk.inj he).1).2 h

theorem counted_step {sub : Sub} {now : Int} (hg : Good c s ring) (hop : g.op = false) (hhand : (i, sub) ∈ s.hands)
    (hgen : s.submittedGen sub.index = s.generation) :
    HandStep c s { s.count i sub now with hands := s.hands.erase (i, sub) } ring (ring ++ [sub]) i
      { g with hand := none, releasing := true } := by
  obtain ⟨hs, hmem, -, -⟩ := hg.apart (out_hand hhand)
  refine ⟨(hg.count (out_hand hhand) hgen).1, ⟨fun h => absurd (hop.symm.trans h) nofun, nofun, fun _ => mem_cons_self⟩, hop, fun hk => ?_,
    fun j x hj hx => hands_erase hj hx, fun j _ h => mem_cons_of_mem _ h, rfl, rfl⟩
  refine hk.keep rfl (fun hc hl => ?_) rfl rfl rfl rfl rfl (fun x hx => ?_) (fun x hx => mem_cons_of_mem _ hx) fun x hx => ?_
  · have := hc hl
    show s.readySem + (i :: s.releasing).length + _ = (ring ++ [sub]).length
    rw [length_cons, length_append, length_singleton]
    omega
  · rcases mem_append.1 hx with hx | hx
    · exact (mem_append.1 hx).elim (mem_append_left _) fun hx => mem_ring_out (mem_singleton.1 hx ▸ hs)
    · exact mem_ring_out (hmem x hx)
  · refine (mem_append.1 hx).imp_right fun hx => ?_
    rw [mem_singleton.1 hx]
    exact (hg.ids sub hs).2

theorem dropped_step {sub : Sub} {stale : UInt32} (hg : Good c s ring) (hop : g.op = false)
    (hhand : (i, sub) ∈ s.hands) (hgen : s.submittedGen sub.index ≠ s.generation) :
    HandStep c s { s with staleCompletions := stale, hands := s.hands.erase (i, sub) } ring ring i
      { g with hand := none, releasing := false } := by
  obtain ⟨-, hmem, -, -⟩ := hg.apart (out_hand hhand)
  refine ⟨hg.drop (out_hand hhand) hgen, ⟨fun h => absurd (hop.symm.trans h) nofun, nofun, nofun⟩, hop, fun hk => ?_,
    fun j x hj hx => hands_erase hj hx, fun _ _ h => h, rfl, rfl⟩
  refine hk.keep rfl id rfl rfl rfl rfl rfl (fun x hx => ?_) (fun _ h => h) fun _ h => .inl h
  exact (mem_append.1 hx).elim (mem_append_left _) fun hx => mem_ring_out (hmem x hx)

theorem releaseSem_step (hg : Good c s ring) (hh : Has c s ring i g) (hop : g.op = false) (hr : g.releasing = true) :
    HandStep c s { s with readySem := s.readySem + 1, releasing := s.releasing.erase i } ring ring i { g with releasing := false } := by
  refine ⟨hg.same (.refl _) rfl rfl rfl rfl rfl ⟨rfl, rfl⟩ ⟨rfl, rfl⟩ rfl rfl rfl hg.running,
    ⟨fun h => absurd (hop.symm.trans h) nofun, hh.hand, nofun⟩, hop, fun hk => ?_, fun _ _ _ h => h,
    fun j hj h => (mem_erase_of_ne hj).2 h, rfl, rfl⟩
  refine hk.keep rfl (fun hc hl => ?_) rfl rfl rfl rfl rfl (fun _ h => h) (fun _ h => h) fun _ h => .inl h
  have hlen := length_erase_add_one (hh.releasing hr)
  have := hc hl
  show s.readySem + 1 + (s.releasing.erase i).length + _ = ring.length
  omega

/-- **Every action of a callback.** -/
theorem hand_step {ch : Choice} (hg : Good c s ring) (hh : Has c s ring i g) (hop : g.op = false) : ∀ {a : Act} {r : Answer a},
    ready c a g → s.perform c i ch a = some (s', r) → ∃ ring', HandStep c s s' ring ring' i (after a r g) ∧ may c a r
  | .dequeue, _, hr, hp => by
    unfold State.perform at hp
    dsimp only at hp
    split at hp
    · cases hp
      refine ⟨ring, ⟨hg, ⟨fun h => absurd (hop.symm.trans h) nofun, nofun, hh.releasing⟩, hop, id, fun _ _ _ h => h, fun _ _ h => h,
        rfl, rfl⟩, nofun⟩
    rename_i sub rest hused
    cases hp
    obtain ⟨hstep, hlt⟩ := dequeue_step hg hh hop hused
    exact ⟨ring, hstep, fun x hx => Option.some.inj hx ▸ hlt⟩
  | .take sub, _, hr, hp => by
    have hhand := hh.hand sub hr.2
    unfold State.perform at hp
    dsimp only at hp
    split at hp
    · next hgen =>
      cases hp
      exact ⟨ring ++ [sub], counted_step hg hop hhand hgen, trivial⟩
    · next hgen =>
      cases hp
      exact ⟨ring, dropped_step hg hop hhand hgen, trivial⟩
  | .releaseSem, _, hr, hp => by
    cases hp
    exact ⟨ring, releaseSem_step hg hh hop hr.2, trivial⟩
  | .copyIn, _, hr, _ | .prepared, _, hr, _ | .request _, _, hr, _ | .copyOut _, _, hr, _ | .drain, _, hr, _ |
    .setPrepared, _, hr, _ | .countSubmitted, _, hr, _ => absurd (hop.symm.trans hr) nofun
  | .running, _, hr, _ | .toSubmit, _, hr, _ | .reset, _, hr, _ | .clearToSubmit, _, hr, _ | .started, _, hr, _ | .mark _, _, hr, _ |
    .queue _, _, hr, _ | .unmark _, _, hr, _ | .acquire, _, hr, _ | .takeCompleted, _, hr, _ | .exchanged _, _, hr, _ |
    .stopped, _, hr, _ | .clear, _, hr, _ | .drainSem, _, hr, _ | .finish, _, hr, _ => absurd (hop.symm.trans hr.1) nofun

end

end Sound
end Prose
