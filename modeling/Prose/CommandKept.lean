import Prose.CommandDebts
/-!
# CommandKept — one command at a time, and everyone's answer his own

While nobody has the lock, nothing is in flight that is not marked outstanding; so whoever writes the page has found nothing in
flight, or has taken it off the used ring.  A command on the used ring that the callback was called for has left a count in the
semaphore, unless whoever has the lock has just taken one, and then finds the command.
-/
namespace Prose
namespace Command

open Tasks List

/-- The command of that number is the one on the page; and the answer there is to it. -/
def OnPage (s : State) (x : UInt64 × Request) : Prop := s.page.seq = x.1 ∧ s.page.request = x.2

def Back (s : State) (i : Nat) (x : UInt64 × Request) : Prop :=
  OnPage s x ∧ s.page.answerSeq = x.1 ∧ ⟨i, x.2, s.page.answer⟩ ∈ s.answered

def Marked (s : State) : Prop := s.outstanding = false → s.flights = []

/-- Where the callback was called for what is on the used ring, there is a count in the semaphore. -/
def Awake (s : State) : Prop := ∀ c ∈ s.used, (∃ x ∈ s.signals, x.call = c) → 0 < s.done

def Placed (s : State) (i : Nat) (own : Option (UInt64 × Request)) : Place → Prop
  | .nowhere => Marked s
  | .outstanding | .taken | .polling => s.outstanding = true ∧ ∀ x, own = some x → s.flights = [i] ∧ OnPage s x
  | .got => s.outstanding = true ∧ s.flights = [] ∧ ∀ x, own = some x → Back s i x
  | .clear => s.outstanding = false ∧ s.flights = [] ∧ ∀ x, own = some x → Back s i x
  | .written => s.outstanding = false ∧ s.flights = [] ∧ ∀ x, own = some x → OnPage s x
  | .queued => s.outstanding = false ∧ s.flights = [i] ∧ ∀ x, own = some x → OnPage s x

structure Has (s : State) (i : Nat) (g : Debt) : Prop where
  lock : g.lock = true ↔ s.lock = some i
  placed : g.lock = true → Placed s i g.own g.place
  awake : g.lock = true → g.place ≠ .taken → Awake s
  sent : g.sent = false → i ∉ s.flights ∧ ∀ x ∈ s.signals, x.call ≠ i
  copied : ∀ request answer, g.copied = some (request, answer) → ⟨i, request, answer⟩ ∈ s.answered

/-- The device, the page and what has come of the calls, of which there are `n`. -/
structure Dev (s : State) (n : Nat) : Prop where
  one : s.flights.length ≤ 1
  work : ∀ w, s.working = some w → w.seq = s.page.seq ∧ w.request = s.page.request ∧
    ∀ a, w.answer = some a → s.page.answerSeq = w.seq ∧ s.page.answer = a
  used : ∀ c ∈ s.used, s.page.answerSeq = s.page.seq ∧ ⟨c, s.page.request, s.page.answer⟩ ∈ s.answered
  signals : ∀ x ∈ s.signals, x.time ≤ s.now ∧ x.call ∉ s.avail ∧ ∀ w, s.working = some w → w.call ≠ x.call
  failed : ∀ f ∈ s.failed, f.since + commandTimeout ≤ s.now ∧
    ∀ x ∈ s.signals, x.call = f.call → f.since + commandTimeout ≤ x.time
  clobbered : s.clobbered = false
  own : ∀ i request answer, (i, request, Outcome.ok answer) ∈ s.returned → ⟨i, request, answer⟩ ∈ s.answered
  flying : ∀ c ∈ s.flights, c < n
  signalled : ∀ x ∈ s.signals, x.call < n
  holder : ∀ i, s.lock = some i → i < n

def Free (s : State) : Prop := s.lock = none → Marked s ∧ Awake s

structure Inv (s : State) (gs : List Debt) : Prop where
  owes : Owes ready after (fun _ _ => True) (fun g => g.lock = false) s.threads gs
  has : ∀ i g, gs[i]? = some g → Has s i g
  dev : Dev s gs.length
  free : Free s

section
variable {s s' : State} {i j n : Nat} {g : Debt}

theorem flights_used (h : s.flights.length ≤ 1) {c : Nat} (hc : c ∈ s.used) :
    s.used = [c] ∧ s.working = none ∧ s.avail = [] := by
  unfold State.flights at h
  rw [length_append, length_append, length_map, Option.length_toList] at h
  have hlen : s.used.length ≠ 0 := fun h0 => by
    rw [length_eq_zero_iff.1 h0] at hc
    exact absurd hc not_mem_nil
  have hone : s.used.length = 1 := by omega
  obtain ⟨d, hd⟩ := length_eq_one_iff.1 hone
  rw [hd, mem_singleton] at hc
  refine ⟨by rw [hd, hc], ?_, length_eq_zero_iff.1 (by omega)⟩
  cases hw : s.working with
  | none => rfl
  | some w =>
    rw [hw] at h
    simp only [Option.isSome_some, ite_true] at h
    omega

theorem flights_nil (h : s.flights = []) : s.used = [] ∧ s.working = none ∧ s.avail = [] := by
  unfold State.flights at h
  obtain ⟨hu, h⟩ := append_eq_nil_iff.1 h
  obtain ⟨hw, ha⟩ := append_eq_nil_iff.1 h
  refine ⟨hu, ?_, ha⟩
  cases hs : s.working with
  | none => rfl
  | some w =>
    rw [hs] at hw
    exact nomatch hw

theorem held_nil (h : s.flights = []) : s.held = false := by
  obtain ⟨-, hw, ha⟩ := flights_nil h
  unfold State.held
  rw [hw, ha]
  rfl

theorem awake_nil (h : s.used = []) : Awake s := fun c hc => by
  rw [h] at hc
  exact absurd hc not_mem_nil

/-! ## The device's steps -/

structure Outside (s s' : State) : Prop where
  lock : s'.lock = s.lock
  outstanding : s'.outstanding = s.outstanding
  flights : s'.flights = s.flights
  seq : s'.page.seq = s.page.seq
  request : s'.page.request = s.page.request
  answer : s.flights = [] → s'.page = s.page
  answered : ∀ x ∈ s.answered, x ∈ s'.answered
  signals : ∀ x ∈ s'.signals, x ∈ s.signals ∨ x.call ∈ s.flights
  awake : Awake s → Awake s'

theorem Outside.onPage (h : Outside s s') {x : UInt64 × Request} (hx : OnPage s x) : OnPage s' x :=
  ⟨h.seq.trans hx.1, h.request.trans hx.2⟩

theorem Outside.back (h : Outside s s') (hf : s.flights = []) {x : UInt64 × Request} (hx : Back s i x) : Back s' i x := by
  refine ⟨h.onPage hx.1, ?_⟩
  rw [h.answer hf]
  exact ⟨hx.2.1, h.answered _ hx.2.2⟩

theorem Outside.marked (h : Outside s s') (hm : Marked s) : Marked s' := fun ho => by
  rw [h.flights]
  exact hm (h.outstanding ▸ ho)

theorem Outside.placed (h : Outside s s') {own : Option (UInt64 × Request)} : ∀ {p : Place}, Placed s i own p → Placed s' i own p
  | .nowhere, hp => h.marked hp
  | .outstanding, hp | .taken, hp | .polling, hp =>
    ⟨h.outstanding.trans hp.1, fun x hx => ⟨h.flights.trans (hp.2 x hx).1, h.onPage (hp.2 x hx).2⟩⟩
  | .got, hp | .clear, hp =>
    ⟨h.outstanding.trans hp.1, h.flights.trans hp.2.1, fun x hx => h.back hp.2.1 (hp.2.2 x hx)⟩
  | .written, hp | .queued, hp => ⟨h.outstanding.trans hp.1, h.flights.trans hp.2.1, fun x hx => h.onPage (hp.2.2 x hx)⟩

theorem Outside.has (h : Outside s s') (hg : Has s i g) : Has s' i g where
  lock := by
    rw [h.lock]
    exact hg.lock
  placed := fun hl => h.placed (hg.placed hl)
  awake := fun hl hp => h.awake (hg.awake hl hp)
  sent := fun hs => by
    obtain ⟨hf, hsig⟩ := hg.sent hs
    rw [h.flights]
    refine ⟨hf, fun x hx he => ?_⟩
    rcases h.signals x hx with hx | hx
    · exact hsig x hx he
    · exact hf (he ▸ hx)
  copied := fun request answer hc => h.answered _ (hg.copied request answer hc)

theorem Outside.free (h : Outside s s') (hf : Free s) : Free s' := fun hl => by
  obtain ⟨hm, ha⟩ := hf (h.lock ▸ hl)
  exact ⟨h.marked hm, h.awake ha⟩

/-- **The device, the bus and the clock.** -/
theorem device_step {d : Driver} {e : Event} (hd : Dev s n) (hs : s.step d e = some s') :
    (∃ request, e = .call request) ∨ (∃ i ok, e = .act i ok) ∨ Outside s s' ∧ Dev s' n ∧ s'.threads = s.threads := by
  cases e with
  | call request => exact .inl ⟨request, rfl⟩
  | act i ok => exact .inr (.inl ⟨i, ok, rfl⟩)
  | tick d =>
    cases hs
    refine .inr (.inr ⟨⟨rfl, rfl, rfl, rfl, rfl, fun _ => rfl, fun _ h => h, fun _ h => .inl h, id⟩, ?_, rfl⟩)
    exact ⟨hd.one, hd.work, hd.used, fun x hx => ⟨Nat.le_add_right_of_le (hd.signals x hx).1, (hd.signals x hx).2⟩,
      fun f hf => ⟨Nat.le_add_right_of_le (hd.failed f hf).1, (hd.failed f hf).2⟩, hd.clobbered, hd.own, hd.flying,
      hd.signalled, hd.holder⟩
  | take =>
    unfold State.step at hs
    dsimp only at hs
    split at hs
    · next c rest hw ha =>
      cases hs
      have hflights : s.used ++ ([c] ++ rest) = s.flights := by
        unfold State.flights
        rw [hw, ha]
        rfl
      have hone : (s.used ++ ([c] ++ rest)).length ≤ 1 := by
        rw [hflights]
        exact hd.one
      have hflying : ∀ k ∈ s.used ++ ([c] ++ rest), k < n := by
        rw [hflights]
        exact hd.flying
      refine .inr (.inr ⟨⟨rfl, rfl, hflights, rfl, rfl, fun _ => rfl, fun _ h => h, fun _ h => .inl h, id⟩, ?_, rfl⟩)
      refine ⟨?_, fun w hw => ?_, hd.used, fun x hx => ?_, hd.failed, hd.clobbered, hd.own, ?_, hd.signalled, hd.holder⟩
      · exact hone
      · cases hw
        exact ⟨rfl, rfl, nofun⟩
      · obtain ⟨ht, hav, -⟩ := hd.signals x hx
        rw [ha] at hav
        refine ⟨ht, fun hm => hav (mem_cons_of_mem _ hm), fun w hw he => hav ?_⟩
        cases hw
        exact mem_cons.2 (.inl he.symm)
      · exact hflying
    · exact nomatch hs
  | answer reply =>
    unfold State.step at hs
    dsimp only at hs
    split at hs
    · next w hw =>
      cases hs
      have hflights : s.used ++ ([w.call] ++ s.avail) = s.flights := by
        unfold State.flights
        rw [hw]
        rfl
      have hone : (s.used ++ ([w.call] ++ s.avail)).length ≤ 1 := by
        rw [hflights]
        exact hd.one
      have hflying : ∀ k ∈ s.used ++ ([w.call] ++ s.avail), k < n := by
        rw [hflights]
        exact hd.flying
      have hnone (c : Nat) (hc : c ∈ s.used) : False := by
        have := (flights_used hd.one hc).2.1
        rw [hw] at this
        exact nomatch this
      obtain ⟨hseq, hreq, -⟩ := hd.work w hw
      refine .inr (.inr ⟨⟨rfl, rfl, hflights, rfl, rfl, fun hf => ?_, fun _ h => h, fun _ h => .inl h, id⟩, ?_, rfl⟩)
      · have := (flights_nil hf).2.1
        rw [hw] at this
        exact nomatch this
      · refine ⟨hone, fun v hv => ?_, fun c hc => (hnone c hc).elim, fun x hx => ?_, hd.failed, hd.clobbered,
          hd.own, hflying, hd.signalled, hd.holder⟩
        · cases hv
          exact ⟨hseq, hreq, fun a ha => ⟨rfl, Option.some.inj ha⟩⟩
        · obtain ⟨ht, hav, hwork⟩ := hd.signals x hx
          refine ⟨ht, hav, fun v hv => ?_⟩
          cases hv
          exact hwork w hw
    · exact nomatch hs
  | complete =>
    unfold State.step at hs
    dsimp only at hs
    split at hs
    · next call seq request answer hw =>
      cases hs
      have hflights : (s.used ++ [call]) ++ ([] ++ s.avail) = s.flights := by
        unfold State.flights
        rw [hw, append_assoc]
        rfl
      have hone : ((s.used ++ [call]) ++ ([] ++ s.avail)).length ≤ 1 := by
        rw [hflights]
        exact hd.one
      have hflying : ∀ k ∈ (s.used ++ [call]) ++ ([] ++ s.avail), k < n := by
        rw [hflights]
        exact hd.flying
      obtain ⟨hseq, hreq, hans⟩ := hd.work _ hw
      obtain ⟨hanswerSeq, hanswer⟩ := hans answer rfl
      have hempty : s.used = [] := eq_nil_iff_forall_not_mem.2 fun c hc => by
        have := (flights_used hd.one hc).2.1
        rw [hw] at this
        exact nomatch this
      refine .inr (.inr ⟨⟨rfl, rfl, hflights, rfl, rfl, fun _ => rfl, fun _ h => mem_cons_of_mem _ h, fun _ h => .inl h,
        fun _ c hc hx => ?_⟩, ?_, rfl⟩)
      · obtain ⟨x, hx, hxc⟩ := hx
        rw [hempty] at hc
        obtain rfl := mem_singleton.1 hc
        exact absurd hxc.symm ((hd.signals x hx).2.2 _ hw)
      · refine ⟨hone, nofun, fun c hc => ?_, fun x hx => ?_, hd.failed, hd.clobbered,
          fun i r a hr => mem_cons_of_mem _ (hd.own i r a hr), hflying, hd.signalled, hd.holder⟩
        · rw [hempty] at hc
          obtain rfl := mem_singleton.1 hc
          refine ⟨hanswerSeq.trans hseq, mem_cons.2 (.inl ?_)⟩
          show Answered.mk c s.page.request s.page.answer = ⟨c, request, answer⟩
          rw [hanswer, ← hreq]
        · obtain ⟨ht, hav, -⟩ := hd.signals x hx
          exact ⟨ht, hav, nofun⟩
    · exact nomatch hs
  | callback =>
    cases hs
    have hnew (x : Signal) (hx : x ∈ s.used.map (fun c => (⟨c, s.now⟩ : Signal)) ++ s.signals) :
        x ∈ s.signals ∨ x.call ∈ s.used ∧ x.time = s.now := by
      rcases mem_append.1 hx with hx | hx
      · obtain ⟨c, hc, rfl⟩ := mem_map.1 hx
        exact .inr ⟨hc, rfl⟩
      · exact .inl hx
    refine .inr (.inr ⟨⟨rfl, rfl, rfl, rfl, rfl, fun _ => rfl, fun _ h => h, fun x hx => ?_, fun _ c _ _ => Nat.succ_pos _⟩, ?_, rfl⟩)
    · exact (hnew x hx).imp_right fun h => mem_append_left _ h.1
    · refine ⟨hd.one, hd.work, hd.used, fun x hx => ?_, fun f hf => ⟨(hd.failed f hf).1, fun x hx he => ?_⟩, hd.clobbered,
        hd.own, hd.flying, fun x hx => ?_, hd.holder⟩
      · rcases hnew x hx with hx | ⟨hc, ht⟩
        · exact hd.signals x hx
        obtain ⟨-, hw, ha⟩ := flights_used hd.one hc
        refine ⟨ht.le, ?_, fun w he => ?_⟩
        · show x.call ∉ s.avail
          rw [ha]
          exact not_mem_nil
        · have he : s.working = some w := he
          rw [hw] at he
          exact nomatch he
      · rcases hnew x hx with hx | ⟨-, ht⟩
        · exact (hd.failed f hf).2 x hx he
        · rw [ht]
          exact (hd.failed f hf).1
      · rcases hnew x hx with hx | ⟨hc, -⟩
        · exact hd.signalled x hx
        · exact hd.flying _ (mem_append_left _ hc)

/-! ## The calls' steps -/

structure Step (s s' : State) (i n : Nat) (g' : Debt) : Prop where
  dev : Dev s' n
  own : Has s' i g'
  free : Free s'
  others : ∀ j g, j ≠ i → Has s j g → Has s' j g

theorem others_keep (hl : ∀ j, s.lock = some j → j = i) (hl' : ∀ j, s'.lock = some j → j = i)
    (hflights : ∀ c ∈ s'.flights, c ∈ s.flights ∨ c = i) (hsig : s'.signals = s.signals) (hans : s'.answered = s.answered)
    (j : Nat) (g : Debt) (hj : j ≠ i) (h : Has s j g) : Has s' j g := by
  have hnone : g.lock ≠ true := fun hg => hj (hl j (h.lock.1 hg))
  refine ⟨⟨fun hg => absurd hg hnone, fun he => absurd (hl' j he) hj⟩, fun hg => absurd hg hnone, fun hg => absurd hg hnone,
    fun hs => ?_, ?_⟩
  · obtain ⟨hf, hx⟩ := h.sent hs
    refine ⟨fun hm => ?_, by rw [hsig]; exact hx⟩
    rcases hflights j hm with hm | he
    · exact hf hm
    · exact hj he
  · rw [hans]
    exact h.copied

section
variable (hd : Dev s n) (h : Has s i g)
include hd h

theorem look_step (hf : Free s) {place : Place} (hplaced : Placed s i g.own place) (hawake : place ≠ .taken → g.lock = true → Awake s) :
    Step s s i n { g with place } :=
  ⟨hd, ⟨h.lock, fun _ => hplaced, fun hl hp => hawake hp hl, h.sent, h.copied⟩, hf, fun _ _ _ hg => hg⟩

theorem lock_step (hf : Free s) (hi : i < n) (hl : s.lock = none) (hp : g.place = .nowhere) :
    Step s { s with lock := some i } i n { g with lock := true } := by
  obtain ⟨hm, ha⟩ := hf hl
  refine ⟨⟨hd.one, hd.work, hd.used, hd.signals, hd.failed, hd.clobbered, hd.own, hd.flying, hd.signalled, fun j hj => ?_⟩,
    ⟨⟨fun _ => rfl, fun _ => rfl⟩, fun _ => ?_, fun _ _ => ha, h.sent, h.copied⟩, nofun, ?_⟩
  · rw [← Option.some.inj hj]
    exact hi
  · show Placed _ i g.own g.place
    rw [hp]
    exact hm
  · exact others_keep (fun j hj => absurd (hl.symm.trans hj) nofun) (fun j hj => (Option.some.inj hj).symm) (fun _ hc => .inl hc)
      rfl rfl

theorem unlock_step (hl : g.lock = true) (hp : g.place = .nowhere ∨ g.place = .clear) :
    Step s { s with lock := none } i n { g with lock := false, place := .nowhere, own := none } := by
  have hplaced := h.placed hl
  have hawake : Awake s := h.awake hl (by rcases hp with hp | hp <;> rw [hp] <;> nofun)
  refine ⟨⟨hd.one, hd.work, hd.used, hd.signals, hd.failed, hd.clobbered, hd.own, hd.flying, hd.signalled, nofun⟩,
    ⟨⟨nofun, nofun⟩, nofun, nofun, h.sent, h.copied⟩, fun _ => ⟨?_, hawake⟩, ?_⟩
  · rcases hp with hp | hp
    · rw [hp] at hplaced
      exact hplaced
    · rw [hp] at hplaced
      exact fun _ => hplaced.2.1
  · exact others_keep (fun j hj => Option.some.inj (hj.symm.trans (h.lock.1 hl))) nofun (fun _ hc => .inl hc) rfl rfl

theorem acquired_step (hl : g.lock = true) (hp : g.place = .outstanding) :
    Step s { s with done := s.done - 1 } i n { g with place := .taken } := by
  have hplaced := h.placed hl
  rw [hp] at hplaced
  have hlock := h.lock.1 hl
  refine ⟨⟨hd.one, hd.work, hd.used, hd.signals, hd.failed, hd.clobbered, hd.own, hd.flying, hd.signalled, hd.holder⟩,
    ⟨h.lock, fun _ => hplaced, fun _ hne => absurd rfl hne, h.sent, h.copied⟩, fun hnone => absurd (hlock.symm.trans hnone) nofun, ?_⟩
  exact others_keep (fun j hj => Option.some.inj (hj.symm.trans hlock)) (fun j hj => Option.some.inj (hj.symm.trans hlock))
    (fun _ hc => .inl hc) rfl rfl

/-- **A call stops waiting**: its own command, if it waits for that, is not there, and its time is up. -/
theorem failed_step {since : Nat} (hl : g.lock = true) (hp : g.place = .outstanding ∨ g.place = .polling)
    (hout : g.own.isSome = true → since + commandTimeout ≤ s.now ∧ ∀ x ∈ s.signals, x.call ≠ i) :
    Step s (if g.own.isSome then { s with failed := ⟨i, since⟩ :: s.failed } else s) i n { g with place := .nowhere, own := none } := by
  have hplaced := h.placed hl
  have hlock := h.lock.1 hl
  have hmarked : Marked s := fun ho => by
    rcases hp with hp | hp <;> rw [hp] at hplaced <;> exact absurd (hplaced.1.symm.trans ho) nofun
  have hawake : Awake s := h.awake hl (by rcases hp with hp | hp <;> rw [hp] <;> nofun)
  have hfree (s' : State) (he : s'.lock = s.lock) : Free s' := fun hnone => absurd (hlock.symm.trans (he.symm.trans hnone)) nofun
  have hothers : ∀ j g, j ≠ i → Has s j g → Has { s with failed := ⟨i, since⟩ :: s.failed } j g :=
    others_keep (fun j hj => Option.some.inj (hj.symm.trans hlock)) (fun j hj => Option.some.inj (hj.symm.trans hlock))
      (fun _ hc => .inl hc) rfl rfl
  split
  · next ho =>
    obtain ⟨htime, hsig⟩ := hout ho
    refine ⟨⟨hd.one, hd.work, hd.used, hd.signals, fun f hf => ?_, hd.clobbered, hd.own, hd.flying, hd.signalled, hd.holder⟩,
      ⟨h.lock, fun _ => hmarked, fun _ _ => hawake, h.sent, h.copied⟩, hfree _ rfl, hothers⟩
    rcases mem_cons.1 hf with rfl | hf
    · exact ⟨htime, fun x hx he => absurd he (hsig x hx)⟩
    · exact hd.failed f hf
  · exact ⟨hd, ⟨h.lock, fun _ => hmarked, fun _ _ => hawake, h.sent, h.copied⟩, hfree _ rfl, fun _ _ _ hg => hg⟩

/-- **`queue_dequeue` finds a command**: it is the one in flight. -/
theorem dequeue_step (hl : g.lock = true) (hp : g.place = .taken ∨ g.place = .polling) {c : Nat} {rest : List Nat}
    (hu : s.used = c :: rest) : Step s { s with used := rest } i n { g with place := .got } := by
  have hplaced := h.placed hl
  have hlock := h.lock.1 hl
  have hc : c ∈ s.used := by
    rw [hu]
    exact mem_cons_self
  obtain ⟨hone, hw, ha⟩ := flights_used hd.one hc
  obtain rfl : rest = [] := (List.cons.inj (hu.symm.trans hone)).2
  obtain ⟨hseq, hans⟩ := hd.used c hc
  have hplaced' : s.outstanding = true ∧ ∀ x, g.own = some x → s.flights = [i] ∧ OnPage s x := by
    rcases hp with hp | hp <;> rw [hp] at hplaced <;> exact hplaced
  have hflights : State.flights { s with used := [] } = [] := by
    unfold State.flights
    rw [hw, ha]
    rfl
  have hnone (p : Prop) (k : Nat) (hk : k ∈ State.flights { s with used := [] }) : p := by
    rw [hflights] at hk
    exact absurd hk not_mem_nil
  refine ⟨⟨by rw [hflights]; exact Nat.zero_le _, hd.work, nofun, hd.signals, hd.failed, hd.clobbered, hd.own,
      fun k hk => hnone _ k hk, hd.signalled, hd.holder⟩,
    ⟨h.lock, fun _ => ⟨hplaced'.1, hflights, fun x hx => ?_⟩, fun _ _ => awake_nil rfl, fun hs => ⟨fun hk => hnone _ i hk, (h.sent hs).2⟩,
      h.copied⟩, fun hl' => absurd (hlock.symm.trans hl') nofun, ?_⟩
  · obtain ⟨hf, hpage⟩ := hplaced'.2 x hx
    have hci : c = i := by
      unfold State.flights at hf
      rw [hone, hw, ha] at hf
      exact (List.cons.inj hf).1
    refine ⟨hpage, hseq.trans hpage.1, ?_⟩
    rw [← hpage.2, ← hci]
    exact hans
  · exact others_keep (fun j hj => Option.some.inj (hj.symm.trans hlock)) (fun j hj => Option.some.inj (hj.symm.trans hlock))
      (fun k hk => hnone _ k hk) rfl rfl

theorem collected_step (hl : g.lock = true) (hp : g.place = .got) :
    Step s { s with outstanding := false } i n { g with place := .clear } := by
  have hplaced := h.placed hl
  rw [hp] at hplaced
  have hlock := h.lock.1 hl
  refine ⟨⟨hd.one, hd.work, hd.used, hd.signals, hd.failed, hd.clobbered, hd.own, hd.flying, hd.signalled, hd.holder⟩,
    ⟨h.lock, fun _ => ⟨rfl, hplaced.2⟩, fun hl _ => h.awake hl (by rw [hp]; nofun), h.sent, h.copied⟩,
    fun hnone => absurd (hlock.symm.trans hnone) nofun, ?_⟩
  exact others_keep (fun j hj => Option.some.inj (hj.symm.trans hlock)) (fun j hj => Option.some.inj (hj.symm.trans hlock))
    (fun _ hc => .inl hc) rfl rfl

/-- **The page is written** while nothing is in flight. -/
theorem writePage_step (hl : g.lock = true) (hp : g.place = .clear) (seq : UInt64) (request : Request) :
    Step s { s with page := { seq, request }, clobbered := s.clobbered || s.held } i n
      { g with place := .written, own := some (seq, request) } := by
  have hplaced := h.placed hl
  rw [hp] at hplaced
  have hlock := h.lock.1 hl
  obtain ⟨hu, hw, -⟩ := flights_nil hplaced.2.1
  refine ⟨⟨hd.one, fun w he => ?_, fun c hc => ?_, hd.signals, hd.failed, ?_, hd.own, hd.flying, hd.signalled, hd.holder⟩,
    ⟨h.lock, fun _ => ⟨hplaced.1, hplaced.2.1, fun x hx => ?_⟩, fun hl _ => h.awake hl (by rw [hp]; nofun), h.sent, h.copied⟩,
    fun hnone => absurd (hlock.symm.trans hnone) nofun, ?_⟩
  · exact absurd (hw.symm.trans he) nofun
  · have hc : c ∈ s.used := hc
    rw [hu] at hc
    exact absurd hc not_mem_nil
  · show (s.clobbered || s.held) = false
    rw [hd.clobbered, held_nil hplaced.2.1]
    rfl
  · cases hx
    exact ⟨rfl, rfl⟩
  · exact others_keep (fun j hj => Option.some.inj (hj.symm.trans hlock)) (fun j hj => Option.some.inj (hj.symm.trans hlock))
      (fun _ hc => .inl hc) rfl rfl

/-- **A command is queued**, the only one. -/
theorem queue_step (hi : i < n) (hl : g.lock = true) (hp : g.place = .written) (hs : g.sent = false) :
    Step s { s with avail := s.avail ++ [i] } i n { g with place := .queued, sent := true } := by
  have hplaced := h.placed hl
  rw [hp] at hplaced
  have hlock := h.lock.1 hl
  obtain ⟨hu, hw, ha⟩ := flights_nil hplaced.2.1
  obtain ⟨-, hsig⟩ := h.sent hs
  have hflights : State.flights { s with avail := s.avail ++ [i] } = [i] := by
    unfold State.flights
    rw [hu, hw, ha]
    rfl
  refine ⟨⟨by rw [hflights]; exact le_refl _, hd.work, hd.used, fun x hx => ?_, hd.failed, hd.clobbered, hd.own, fun k hk => ?_,
      hd.signalled, hd.holder⟩,
    ⟨h.lock, fun _ => ⟨hplaced.1, hflights, hplaced.2.2⟩, fun hl _ => h.awake hl (by rw [hp]; nofun), nofun, h.copied⟩,
    fun hnone => absurd (hlock.symm.trans hnone) nofun, ?_⟩
  · obtain ⟨ht, -, hwork⟩ := hd.signals x hx
    refine ⟨ht, fun hm => ?_, hwork⟩
    have hm : x.call ∈ s.avail ++ [i] := hm
    rw [ha] at hm
    exact hsig x hx (mem_singleton.1 hm)
  · rw [hflights] at hk
    rw [mem_singleton.1 hk]
    exact hi
  · refine others_keep (fun j hj => Option.some.inj (hj.symm.trans hlock)) (fun j hj => Option.some.inj (hj.symm.trans hlock))
      (fun k hk => .inr ?_) rfl rfl
    rw [hflights] at hk
    exact mem_singleton.1 hk

theorem setOutstanding_step (hl : g.lock = true) (hp : g.place = .queued) :
    Step s { s with outstanding := true } i n { g with place := .outstanding } := by
  have hplaced := h.placed hl
  rw [hp] at hplaced
  have hlock := h.lock.1 hl
  refine ⟨⟨hd.one, hd.work, hd.used, hd.signals, hd.failed, hd.clobbered, hd.own, hd.flying, hd.signalled, hd.holder⟩,
    ⟨h.lock, fun _ => ⟨rfl, fun x hx => ⟨hplaced.2.1, hplaced.2.2 x hx⟩⟩, fun hl _ => h.awake hl (by rw [hp]; nofun), h.sent,
      h.copied⟩, fun hnone => absurd (hlock.symm.trans hnone) nofun, ?_⟩
  exact others_keep (fun j hj => Option.some.inj (hj.symm.trans hlock)) (fun j hj => Option.some.inj (hj.symm.trans hlock))
    (fun _ hc => .inl hc) rfl rfl

theorem copyOut_step (hf : Free s) (hl : g.lock = true) (hp : g.place = .clear) :
    Step s s i n { g with copied := g.own.map fun x => (x.2, s.page.answer) } := by
  have hplaced := h.placed hl
  rw [hp] at hplaced
  refine ⟨hd, ⟨h.lock, fun _ => by rw [hp]; exact hplaced, h.awake, h.sent, fun request answer hc => ?_⟩, hf, fun _ _ _ hg => hg⟩
  obtain ⟨x, hx, he⟩ := Option.map_eq_some_iff.1 hc
  obtain ⟨rfl, rfl⟩ := Prod.mk.inj he
  exact (hplaced.2.2 x hx).2.2

theorem finish_step (hf : Free s) {request : Request} {outcome : Outcome}
    (hr : ∀ answer, outcome = .ok answer → g.copied = some (request, answer)) :
    Step s { s with returned := (i, request, outcome) :: s.returned } i n g := by
  have hout : Outside s { s with returned := (i, request, outcome) :: s.returned } :=
    ⟨rfl, rfl, rfl, rfl, rfl, fun _ => rfl, fun _ h => h, fun _ h => .inl h, id⟩
  refine ⟨⟨hd.one, hd.work, hd.used, hd.signals, hd.failed, hd.clobbered, fun j r a hm => ?_, hd.flying, hd.signalled, hd.holder⟩,
    hout.has h, hout.free hf, fun _ _ _ hg => hout.has hg⟩
  rcases mem_cons.1 hm with he | hm
  · obtain ⟨hj, he⟩ := Prod.mk.inj he
    obtain ⟨rfl, hok⟩ := Prod.mk.inj he
    rw [hj]
    exact h.copied _ _ (hr a hok.symm)
  · exact hd.own j r a hm

end

end

end Command
end Prose
