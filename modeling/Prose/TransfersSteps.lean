import Prose.TransfersKept
/-!
# TransfersSteps — what every step of a thread keeps

The step of a thread concerns one queue, and leaves the others what they hold of it.
-/
namespace Prose
namespace Transfers

open Tasks RingBuffers List

section
variable {d : Driver} {n i : Nat} {s s' : State} {q : Q} {rings : Q → List Entry} {g g' : Debt} {e : Entry} {x' : Side}
  {ring' : List Entry}

structure Holding (d : Driver) (n : Nat) (s : State) (rings : Q → List Entry) : Prop where
  good : ∀ q, Good n (s.sides q) (rings q)
  order : d = .portal → Order d.size s.data s.completed s.delivered (s.sides .rx) (rings .rx)

/-- What one action of thread `i` keeps. -/
structure Step (d : Driver) (n : Nat) (s s' : State) (rings' : Q → List Entry) (i : Nat) (g' : Debt) : Prop where
  holding : Holding d n s' rings'
  own : Has (s'.sides g'.side) i g'
  others : ∀ q, Others i (s.sides q) (s'.sides q)
  threads : s'.threads = s.threads

theorem Others.refl (x : Side) : Others i x x :=
  ⟨fun _ _ => .rfl, fun _ _ _ => rfl, fun _ _ h => h, fun _ _ h => h, fun _ _ _ h => h, fun _ _ _ => .rfl⟩

/-- **One queue anew.** -/
theorem Holding.step (h : Holding d n s rings) (hq : g'.side = q) (hgood : Good n x' ring') (hown : Has x' i g')
    (hothers : Others i (s.sides q) x') (hsides : s'.sides = Function.update s.sides q x') (hdata : s'.data = s.data)
    (hcompleted : s'.completed = s.completed) (hthreads : s'.threads = s.threads) (htx : q = .tx → s'.delivered = s.delivered)
    (hrx : q = .rx → d = .portal → Order d.size s.data s.completed s'.delivered x' ring') :
    Step d n s s' (Function.update rings q ring') i g' := by
  refine ⟨⟨fun p => ?_, fun hd => ?_⟩, ?_, fun p => ?_, hthreads⟩
  · rw [hsides]
    by_cases hp : p = q
    · rw [hp, Function.update_self, Function.update_self]
      exact hgood
    · rw [Function.update_of_ne hp, Function.update_of_ne hp]
      exact h.good p
  · rw [hsides, hdata, hcompleted]
    by_cases hp : .rx = q
    · rw [← hp, Function.update_self, Function.update_self]
      exact hrx hp.symm hd
    · rw [Function.update_of_ne hp, Function.update_of_ne hp, htx (by cases q <;> trivial)]
      exact h.order hd
  · rw [hsides, hq, Function.update_self]
    exact hown
  · rw [hsides]
    by_cases hp : p = q
    · rw [hp, Function.update_self]
      exact hothers
    · rw [Function.update_of_ne hp]
      exact .refl _

section
variable (h : Holding d n s rings) (hh : Has (s.sides q) i g) (hq : g.side = q)
include h hh hq

theorem lock_step (hi : i < n) (hl : (s.sides q).lock = none) (ht : g.taken = none) :
    Step d n s (s.onSide q { s.sides q with lock := some i }) (Function.update rings q (rings q)) i { g with lock := true } := by
  have hgood := h.good q
  refine h.step hq (lock_good hgood hi) ⟨⟨fun _ => rfl, fun _ => rfl⟩, fun _ => ?_, hh.claimed, hh.pending, hh.back, hh.hands⟩
    ⟨fun j hj => ⟨fun he => absurd (Option.some.inj he).symm hj, fun he => absurd (hl.symm.trans he) nofun⟩, fun _ _ _ => rfl,
      fun _ _ h => h, fun _ _ h => h, fun _ _ _ h => h, fun _ _ _ => .rfl⟩ rfl rfl rfl rfl (fun _ => rfl) fun hr hd => ?_
  · exact (hgood.taken hl).trans ht.symm
  · subst hr
    refine (h.order hd).same rfl (h.order hd).back fun e he => ?_
    exact absurd ((hgood.taken hl).symm.trans he) nofun

theorem unlock_step (hl : g.lock = true) (ht : g.taken = none) :
    Step d n s (s.onSide q { s.sides q with lock := none }) (Function.update rings q (rings q)) i { g with lock := false } := by
  have hlock := hh.lock.2 hl
  have htaken : (s.sides q).taken = none := (hh.taken hl).trans ht
  refine h.step hq (unlock_good (h.good q) htaken) ⟨⟨nofun, nofun⟩, nofun, hh.claimed, hh.pending, hh.back, hh.hands⟩
    ⟨fun j hj => ⟨nofun, fun he => absurd (Option.some.inj (he.symm.trans hlock)) hj⟩, fun _ _ _ => rfl, fun _ _ h => h,
      fun _ _ h => h, fun _ _ _ h => h, fun _ _ _ => .rfl⟩ rfl rfl rfl rfl (fun _ => rfl) fun hr hd => ?_
  subst hr
  exact (h.order hd).same rfl (h.order hd).back fun e he => absurd (htaken.symm.trans he) nofun

theorem acquire_step (hs : (s.sides q).sem ≠ 0) :
    Step d n s (s.onSide q { s.sides q with sem := (s.sides q).sem - 1, claimed := i :: (s.sides q).claimed })
      (Function.update rings q (rings q)) i { g with claimed := true } := by
  refine h.step hq (acquire_good (h.good q) hs) ⟨hh.lock, hh.taken, fun _ => mem_cons_self, hh.pending, hh.back, hh.hands⟩
    ⟨fun _ _ => .rfl, fun _ _ _ => rfl, fun _ _ h => mem_cons_of_mem _ h, fun _ _ h => h, fun _ _ _ h => h, fun _ _ _ => .rfl⟩
    rfl rfl rfl rfl (fun _ => rfl) fun hr hd => ?_
  subst hr
  exact (h.order hd).same rfl (h.order hd).back (h.order hd).taken

theorem release_step (hp : g.pending = true) :
    Step d n s (s.onSide q { s.sides q with sem := (s.sides q).sem + 1, pending := (s.sides q).pending.erase i })
      (Function.update rings q (rings q)) i { g with pending := false } := by
  refine h.step hq (release_good (h.good q) (hh.pending hp)) ⟨hh.lock, hh.taken, hh.claimed, nofun, hh.back, hh.hands⟩
    ⟨fun _ _ => .rfl, fun _ _ _ => rfl, fun _ _ h => h, fun _ hj h => (mem_erase_of_ne hj).2 h, fun _ _ _ h => h,
      fun _ _ _ => .rfl⟩ rfl rfl rfl rfl (fun _ => rfl) fun hr hd => ?_
  subst hr
  exact (h.order hd).same rfl (h.order hd).back (h.order hd).taken

/-- **The oldest goes to the hand**, of whoever has the lock and a count. -/
theorem take_step (hi : i < n) (hl : g.lock = true) (hc : g.claimed = true) (ht : g.taken = none) :
    ∃ rings', Step d n s (s.onSide q { s.sides q with
      ring := (s.sides q).ring.drop, claimed := (s.sides q).claimed.erase i
      hands := (i, (s.sides q).ring.first bufferCount) :: (s.sides q).hands
      taken := some ((s.sides q).ring.first bufferCount) }) rings' i
      { g with
        claimed := false, hand := (s.sides q).ring.first bufferCount :: g.hand, taken := some ((s.sides q).ring.first bufferCount) } := by
  have hlock := hh.lock.2 hl
  have htaken : (s.sides q).taken = none := (hh.taken hl).trans ht
  obtain ⟨rest, hring, hgood⟩ := take_good (h.good q) hi (hh.claimed hc) hlock
  refine ⟨_, h.step hq hgood ⟨hh.lock, fun _ => rfl, nofun, hh.pending, hh.back, fun e => ?_⟩
    ⟨fun _ _ => .rfl, fun j hj he => absurd (Option.some.inj (he.symm.trans hlock)) hj, fun _ hj h => (mem_erase_of_ne hj).2 h,
      fun _ _ h => h, fun _ _ _ h => h, fun j e hj => ?_⟩ rfl rfl rfl rfl (fun _ => rfl) fun hr hd => ?_⟩
  · rw [mem_cons, mem_cons, hh.hands]
    refine or_congr_left ⟨fun he => (Prod.mk.inj he).2, fun he => ?_⟩
    rw [he]
  · rw [mem_cons]
    exact ⟨fun he => he.resolve_left fun he => hj (Prod.mk.inj he).1, .inr⟩
  · subst hr
    refine (h.order hd).same ?_ (h.order hd).back fun e he => ⟨i, hlock, ?_⟩
    · unfold Side.unread
      rw [htaken, hring]
      rfl
    · rw [← Option.some.inj he]
      exact mem_cons_self

/-- **A buffer goes to the ring**: of the portal's requests, the oldest that is not there. -/
theorem put_step (hb : g.back = some e) : ∃ rings', Step d n s (s.onSide q { s.sides q with
      ring := (s.sides q).ring.put bufferCount ⟨e.index, min e.length d.size⟩, back := (s.sides q).back.erase (i, e)
      pending := i :: (s.sides q).pending }) rings' i { g with back := none, pending := true } := by
  have hback := hh.back e hb
  refine ⟨_, h.step hq (put_good (h.good q) hback) ⟨hh.lock, hh.taken, hh.claimed, fun _ => mem_cons_self, nofun, hh.hands⟩
    ⟨fun _ _ => .rfl, fun _ _ _ => rfl, fun _ _ h => h, fun _ _ h => mem_cons_of_mem _ h,
      fun j y hj h => (mem_erase_of_ne fun he => hj (Prod.mk.inj he).1).2 h, fun _ _ _ => .rfl⟩
    rfl rfl rfl rfl (fun _ => rfl) fun hr hd => ?_⟩
  subst hr
  have horder := h.order hd
  have hone : (s.sides .rx).back = [(i, e)] := by
    obtain ⟨y, hy⟩ := length_eq_one_iff.1 (le_antisymm horder.back (length_pos_of_mem hback))
    rw [hy] at hback ⊢
    rw [mem_singleton.1 hback]
  have hlength : e.length ≤ d.size := by
    refine (horder.length e ?_).2
    unfold Side.unread
    rw [hone]
    simp
  have hcut : (⟨e.index, min e.length d.size⟩ : Entry) = e := by rw [Nat.min_eq_left hlength]
  refine horder.same ?_ ?_ horder.taken
  · unfold Side.unread
    dsimp only
    rw [hcut, hone]
    simp
  · show ((s.sides .rx).back.erase (i, e)).length ≤ 1
    exact length_erase_le.trans horder.back

/-- **A copy that works** hands out the whole request. -/
theorem copy_step (hl : g.lock = true) (ht : g.taken = some e) {delivered : List (List UInt8)} (wanted : Nat)
    (htx : q = .tx → delivered = s.delivered)
    (hrx : q = .rx → delivered = s.delivered ++ [(s.data e.index).take (min e.length wanted)] ∧ e.length ≤ wanted) :
    Step d n s { s.onSide q { s.sides q with taken := none } with delivered } (Function.update rings q (rings q)) i
      { g with taken := none } := by
  have hlock := hh.lock.2 hl
  have htaken : (s.sides q).taken = some e := (hh.taken hl).trans ht
  refine h.step hq (copy_good (h.good q)) ⟨hh.lock, fun _ => rfl, hh.claimed, hh.pending, hh.back, hh.hands⟩
    ⟨fun _ _ => .rfl, fun j hj he => absurd (Option.some.inj (he.symm.trans hlock)) hj, fun _ _ h => h, fun _ _ h => h,
      fun _ _ _ h => h, fun _ _ _ => .rfl⟩ rfl rfl rfl rfl htx fun hr hd => ?_
  subst hr
  have horder := h.order hd
  obtain ⟨hdelivered, hwanted⟩ := hrx rfl
  have hunread : (s.sides .rx).unread (rings .rx) =
      e :: Side.unread { s.sides .rx with taken := none } (rings .rx) := by
    unfold Side.unread
    rw [htaken]
    rfl
  have hwhole : (s.data e.index).take (min e.length wanted) = s.data e.index := by
    obtain ⟨hlength, -⟩ := horder.length e (by rw [hunread]; exact mem_cons_self)
    rw [Nat.min_eq_left hwanted, hlength, take_length]
  refine ⟨?_, fun y hy => horder.length y (by rw [hunread]; exact mem_cons_of_mem _ hy), horder.back, nofun⟩
  rw [horder.eq, hunread, map_cons, hdelivered, hwhole, append_assoc, singleton_append]

theorem queue_step (hm : e ∈ g.hand) (hnodup : g.hand.Nodup) (ht : g.taken = none) :
    Step d n s (s.onSide q { s.sides q with
      hands := (s.sides q).hands.erase (i, e), device := (s.sides q).device ++ [e.index] }) (Function.update rings q (rings q)) i
      { g with hand := g.hand.erase e } := by
  have hgood := h.good q
  have hhands := (hh.hands e).2 hm
  have hnd : (s.sides q).hands.Nodup := by
    have hnd := hgood.nodup
    unfold Side.spots at hnd
    rw [nodup_append, nodup_append, nodup_append] at hnd
    exact hnd.2.1.2.1.1.of_map
  refine h.step hq (queue_good hgood hhands) ⟨hh.lock, hh.taken, hh.claimed, hh.pending, hh.back, fun y => ?_⟩
    ⟨fun _ _ => .rfl, fun _ _ _ => rfl, fun _ _ h => h, fun _ _ h => h, fun _ _ _ h => h,
      fun j y hj => mem_erase_of_ne fun he => hj (Prod.mk.inj he).1⟩ rfl rfl rfl rfl (fun _ => rfl) fun hr hd => ?_
  · rw [hnd.mem_erase_iff, hnodup.mem_erase_iff, hh.hands]
    exact and_congr_left' (not_congr ⟨fun he => (Prod.mk.inj he).2, fun he => by rw [he]⟩)
  · subst hr
    refine (h.order hd).same rfl (h.order hd).back fun y hy => ?_
    obtain ⟨j, hj, hyh⟩ := (h.order hd).taken y hy
    refine ⟨j, hj, (mem_erase_of_ne fun he => ?_).2 hyh⟩
    obtain rfl := (Prod.mk.inj he).1
    exact absurd (((hh.taken (hh.lock.1 hj)).trans ht).symm.trans hy) nofun

/-- A callback takes what the device has returned; of the portal's requests, when the one before is in the ring. -/
theorem dequeue_step {rest : List Entry} (hu : (s.sides q).used = e :: rest)
    (hfine : q = .rx → d = .portal → (s.sides .rx).back = []) :
    Step d n s (s.onSide q { s.sides q with used := rest, back := (i, e) :: (s.sides q).back }) (Function.update rings q (rings q)) i
      { g with back := some e } ∧ e.index < bufferCount := by
  obtain ⟨hgood, hlt⟩ := dequeue_good (i := i) (h.good q) hu
  refine ⟨h.step hq hgood ⟨hh.lock, hh.taken, hh.claimed, hh.pending, fun y hy => ?_, hh.hands⟩
    ⟨fun _ _ => .rfl, fun _ _ _ => rfl, fun _ _ h => h, fun _ _ h => h, fun _ _ _ h => mem_cons_of_mem _ h,
      fun _ _ _ => .rfl⟩ rfl rfl rfl rfl (fun _ => rfl) fun hr hd => ?_, hlt⟩
  · rw [← Option.some.inj hy]
    exact mem_cons_self
  · have hnone := hfine hr hd
    subst hr
    refine (h.order hd).same ?_ ?_ (h.order hd).taken
    · unfold Side.unread
      dsimp only
      rw [hu, hnone]
      rfl
    · show ((i, e) :: (s.sides .rx).back).length ≤ 1
      rw [hnone]
      exact le_refl 1

theorem over_step (hn : g.hand = []) :
    Step d n s (s.onSide q { s.sides q with hands := (s.sides q).hands.filter (·.1 ≠ i) }) (Function.update rings q (rings q)) i g := by
  have hnone (e : Entry) : (i, e) ∉ (s.sides q).hands := by
    rw [hh.hands, hn]
    exact not_mem_nil
  have hkeep (j : Nat) (y : Entry) (hj : j ≠ i) : (j, y) ∈ (s.sides q).hands.filter (·.1 ≠ i) ↔ (j, y) ∈ (s.sides q).hands := by
    rw [mem_filter]
    exact and_iff_left (decide_eq_true hj)
  refine h.step hq (over_good (h.good q) hnone) ⟨hh.lock, hh.taken, hh.claimed, hh.pending, hh.back, fun e => ?_⟩
    ⟨fun _ _ => .rfl, fun _ _ _ => rfl, fun _ _ h => h, fun _ _ h => h, fun _ _ _ h => h, hkeep⟩
    rfl rfl rfl rfl (fun _ => rfl) fun hr hd => ?_
  · rw [mem_filter, ← hh.hands]
    exact and_iff_left_of_imp fun he => absurd he (hnone e)
  · subst hr
    refine (h.order hd).same rfl (h.order hd).back fun y hy => ?_
    obtain ⟨j, hj, hyh⟩ := (h.order hd).taken y hy
    refine ⟨j, hj, (hkeep j y fun he => ?_).2 hyh⟩
    exact hnone y (he ▸ hyh)

end

theorem putBytes_step (h : Holding .midi n s rings) (hh : Has (s.sides .rx) i g) (hq : g.side = .rx) (hi : i < n)
    (hb : g.back = some e) {bytes : RingBuffer UInt8} : Step .midi n s { s.onSide .rx { s.sides .rx with
      back := (s.sides .rx).back.erase (i, e), hands := (i, e) :: (s.sides .rx).hands } with bytes } (Function.update rings .rx (rings .rx)) i
      { g with back := none, hand := e :: g.hand } := by
  refine h.step hq (putBytes_good (h.good .rx) hi (hh.back e hb)) ⟨hh.lock, hh.taken, hh.claimed, hh.pending, nofun, fun y => ?_⟩
    ⟨fun _ _ => .rfl, fun _ _ _ => rfl, fun _ _ h => h, fun _ _ h => h,
      fun j y hj h => (mem_erase_of_ne fun he => hj (Prod.mk.inj he).1).2 h, fun j y hj => ?_⟩
    rfl rfl rfl rfl nofun nofun
  · rw [mem_cons, mem_cons, hh.hands]
    refine or_congr_left ⟨fun he => (Prod.mk.inj he).2, fun he => ?_⟩
    rw [he]
  · rw [mem_cons]
    exact ⟨fun he => he.resolve_left fun he => hj (Prod.mk.inj he).1, .inr⟩

end

end Transfers
end Prose
