import Prose.TransfersSteps
/-!
# TransfersRuns — runs of the two drivers

A write that has claimed a buffer and cannot copy to it or queue it returns, and nobody has the buffer any more; after eight of
these nothing is written again.
-/
namespace Prose
namespace Transfers

open Tasks RingBuffers List

section
variable {d : Driver} {n i : Nat} {s s' : State} {rings : Q → List Entry} {g g' : Debt}

theorem Holding.idle (h : Holding d n s rings) (hown : Has (s.sides g'.side) i g') (hsides : s'.sides = s.sides)
    (hdata : s'.data = s.data) (hcompleted : s'.completed = s.completed) (hdelivered : s'.delivered = s.delivered)
    (hthreads : s'.threads = s.threads) : Step d n s s' rings i g' := by
  refine ⟨⟨fun q => ?_, fun hd => ?_⟩, ?_, fun q => ?_, hthreads⟩
  · rw [hsides]
    exact h.good q
  · rw [hsides, hdata, hcompleted, hdelivered]
    exact h.order hd
  · rw [hsides]
    exact hown
  · rw [hsides]
    exact .refl _

/-- **Every action of a thread**, if it is a fine one. -/
theorem perform_step (h : Holding d n s rings) (hh : Has (s.sides g.side) i g) (hi : i < n) {ch : Choice} :
    ∀ {a : Act} {r : Answer a}, FineAct d s ch a → ready d a g → s.perform d i ch a = some (s', r) →
    ∃ rings', Step d n s s' rings' i (after a r g) ∧ may a r
  | .lock q, _, _, hr, hp => by
    obtain ⟨rfl, -, ht⟩ := hr
    obtain ⟨hl, hp⟩ := Option.ite_none_right_eq_some.1 hp
    cases hp
    exact ⟨_, lock_step h hh rfl hi hl ht, trivial⟩
  | .unlock q, _, _, hr, hp => by
    obtain ⟨rfl, hl, ht⟩ := hr
    cases hp
    exact ⟨_, unlock_step h hh rfl hl ht, trivial⟩
  | .acquire q, _, _, hr, hp => by
    obtain ⟨rfl, hc⟩ := hr
    unfold State.perform at hp
    dsimp only at hp
    split at hp
    · obtain ⟨hs, hp⟩ := Option.ite_none_right_eq_some.1 hp
      cases hp
      exact ⟨_, acquire_step h hh rfl hs, trivial⟩
    · cases hp
      exact ⟨_, h.idle ⟨hh.lock, hh.taken, nofun, hh.pending, hh.back, hh.hands⟩ rfl rfl rfl rfl rfl, trivial⟩
  | .release q, _, _, hr, hp => by
    obtain ⟨rfl, hpending⟩ := hr
    cases hp
    exact ⟨_, release_step h hh rfl hpending, trivial⟩
  | .take q, _, _, hr, hp => by
    obtain ⟨rfl, hl, hc, ht, -⟩ := hr
    cases hp
    obtain ⟨rings', hstep⟩ := take_step h hh rfl hi hl hc ht
    exact ⟨rings', hstep, trivial⟩
  | .put q e, _, _, hr, hp => by
    obtain ⟨rfl, hb, -, -⟩ := hr
    cases hp
    obtain ⟨rings', hstep⟩ := put_step h hh rfl hb
    exact ⟨rings', hstep, trivial⟩
  | .copy .tx e wanted, _, hfine, hr, hp => by
    obtain ⟨hq, hl, ht⟩ := hr
    cases hp
    rw [hq] at hh
    exact ⟨_, copy_step h hh hq hl ht wanted (fun _ => rfl) nofun, hfine⟩
  | .copy .rx e wanted, _, hfine, hr, hp => by
    obtain ⟨hq, hl, ht⟩ := hr
    cases hp
    rw [hq] at hh
    rw [if_pos hfine.1]
    exact ⟨_, copy_step h hh hq hl ht wanted nofun fun _ => ⟨rfl, hfine.2⟩, hfine.1⟩
  | .queue q e, _, hfine, hr, hp => by
    obtain ⟨rfl, hm, hnodup, ht⟩ := hr
    cases hp
    have hok : ch.ok = true := hfine
    rw [if_pos hok]
    exact ⟨_, queue_step h hh rfl hm hnodup ht, hok⟩
  | .dequeue q, _, hfine, hr, hp => by
    obtain ⟨rfl, hb, -⟩ := hr
    unfold State.perform at hp
    dsimp only at hp
    split at hp
    · cases hp
      exact ⟨_, h.idle ⟨hh.lock, hh.taken, hh.claimed, hh.pending, nofun, hh.hands⟩ rfl rfl rfl rfl rfl, nofun⟩
    rename_i e rest hu
    cases hp
    obtain ⟨hstep, hlt⟩ := dequeue_step h hh rfl hu fun hr => by
      rw [hr] at hfine
      exact hfine
    exact ⟨_, hstep, fun y hy => Option.some.inj hy ▸ hlt⟩
  | .over q, _, _, hr, hp => by
    obtain ⟨rfl, hn⟩ := hr
    cases hp
    exact ⟨_, over_step h hh rfl hn, trivial⟩
  | .putBytes e, _, _, hr, hp => by
    obtain ⟨hq, hb, rfl⟩ := hr
    cases hp
    rw [hq] at hh
    exact ⟨_, putBytes_step h hh hq hi hb, trivial⟩
  | .acquireBytes, _, _, _, hp => by
    unfold State.perform at hp
    dsimp only at hp
    split at hp
    · obtain ⟨-, hp⟩ := Option.ite_none_right_eq_some.1 hp
      cases hp
      exact ⟨rings, h.idle hh rfl rfl rfl rfl rfl, trivial⟩
    · cases hp
      exact ⟨rings, h.idle hh rfl rfl rfl rfl rfl, trivial⟩
  | .takeBytes _, _, _, _, hp | .releaseBytes, _, _, _, hp | .copyBytes _, _, _, _, hp => by
    cases hp
    exact ⟨rings, h.idle hh rfl rfl rfl rfl rfl, trivial⟩

/-- **Both queues, and what each thread has of its own.** -/
structure Holds (d : Driver) (s : State) (rings : Q → List Entry) (gs : List Debt) : Prop where
  owes : Owes (ready d) after may (fun _ => True) s.threads gs
  holding : Holding d gs.length s rings
  has : ∀ i g, gs[i]? = some g → Has (s.sides g.side) i g

def Inv (d : Driver) (s : State) : Prop := ∃ rings gs, Holds d s rings gs

theorem Holds.begins {gs : List Debt} (h : Holds d s rings gs) {p : Hook Unit} {q : Q} (hp : Owing d p { side := q }) :
    Inv d { s with threads := s.threads ++ [p] } := by
  refine ⟨rings, gs ++ [{ side := q }], h.owes.append hp, ⟨fun q => ?_, h.holding.order⟩, ?_⟩
  · have hgood := h.holding.good q
    rw [length_append]
    exact ⟨hgood.holds, hgood.perm, hgood.counts, hgood.taken, fun j hj => Nat.lt_add_right _ (hgood.holder j hj),
      fun y hy => Nat.lt_add_right _ (hgood.owner y hy)⟩
  · refine each_append h.has ⟨⟨fun hl => ?_, nofun⟩, nofun, nofun, nofun, nofun, fun e => ⟨fun he => ?_, nofun⟩⟩ fun _ _ hg => hg
    · exact absurd ((h.holding.good q).holder _ hl) (lt_irrefl _)
    · exact absurd ((h.holding.good q).owner _ he) (lt_irrefl _)

/-- **The device returns a buffer**: none that is read or waits to be. -/
theorem Holds.completed {gs : List Debt} (h : Holds d s rings gs) {q : Q} {k index : Nat} {data : List UInt8}
    (hk : (s.sides q).device[k]? = some index) {data' : Nat → List UInt8} {completed' : List (List UInt8)}
    (htx : q = .tx → data' = s.data ∧ completed' = s.completed)
    (hrx : q = .rx → data.length ≤ d.size ∧ data' = Function.update s.data index data ∧ completed' = s.completed ++ [data]) :
    Inv d { s.onSide q { s.sides q with
      device := (s.sides q).device.eraseIdx k, used := (s.sides q).used ++ [⟨index, data.length⟩] } with
      data := data', completed := completed' } := by
  have hgood := h.holding.good q
  refine ⟨rings, gs, h.owes, ⟨fun p => ?_, fun hd => ?_⟩, fun j g hg => ?_⟩
  · show Good gs.length (Function.update s.sides q _ p) (rings p)
    by_cases hp : p = q
    · rw [hp, Function.update_self]
      exact completed_good hgood hk
    · rw [Function.update_of_ne hp]
      exact h.holding.good p
  · show Order d.size data' completed' s.delivered (Function.update s.sides q _ .rx) (rings .rx)
    cases q with
    | tx =>
      obtain ⟨rfl, rfl⟩ := htx rfl
      exact h.holding.order hd
    | rx =>
      obtain ⟨hsize, rfl, rfl⟩ := hrx rfl
      have horder := h.holding.order hd
      have hunread : Side.unread { s.sides .rx with
          device := (s.sides .rx).device.eraseIdx k, used := (s.sides .rx).used ++ [⟨index, data.length⟩] } (rings .rx) =
          (s.sides .rx).unread (rings .rx) ++ [⟨index, data.length⟩] := by
        unfold Side.unread
        simp only [append_assoc]
      have hother (e : Entry) (he : e ∈ (s.sides .rx).unread (rings .rx)) :
          Function.update s.data index data e.index = s.data e.index := by
        refine Function.update_of_ne (fun hei => ?_) _ _
        have hnodup := hgood.nodup
        have hdevice : index ∈ (s.sides .rx).device := mem_of_getElem? hk
        unfold Side.spots at hnodup
        rw [nodup_append, nodup_append, nodup_append, nodup_append] at hnodup
        obtain ⟨-, ⟨-, ⟨-, ⟨-, -, hu⟩, hhands⟩, hback⟩, hring⟩ := hnodup
        rcases mem_append.1 he with ht | he
        · obtain ⟨j, -, hj⟩ := horder.taken e (Option.mem_toList.1 ht)
          exact hhands _ (mem_map_of_mem hj) _ (mem_append_right _ hdevice) hei
        rcases mem_append.1 he with hr | he
        · exact hring _ (mem_map_of_mem hr) _
            (mem_append_right _ (mem_append_right _ (mem_append_right _ hdevice))) hei
        rcases mem_append.1 he with hb | he
        · obtain ⟨y, hy, rfl⟩ := mem_map.1 hb
          exact hback _ (mem_map_of_mem hy) _ (mem_append_right _ (mem_append_right _ hdevice)) hei
        · exact hu _ (mem_map_of_mem he) _ hdevice hei
      rw [Function.update_self]
      refine ⟨?_, fun e he => ?_, horder.back, horder.taken⟩
      · rw [hunread, map_append, map_singleton, Function.update_self, map_congr_left hother, ← append_assoc,
          ← horder.eq]
      · rw [hunread] at he
        rcases mem_append.1 he with he | he
        · rw [hother e he]
          exact horder.length e he
        rw [mem_singleton.1 he]
        dsimp only
        rw [Function.update_self]
        exact ⟨rfl, hsize⟩
  · show Has (Function.update s.sides q _ g.side) j g
    have hg := h.has j g hg
    by_cases hp : g.side = q
    · rw [hp] at hg ⊢
      rw [Function.update_self]
      exact ⟨hg.lock, hg.taken, hg.claimed, hg.pending, hg.back, hg.hands⟩
    · rw [Function.update_of_ne hp]
      exact hg

/-- **Every step.** -/
theorem Inv.step (d : Driver) (s : State) (e : Event) (s' : State) (h : Inv d s) (hfine : Fine d s e) (hs : s.step d e = some s') :
    Inv d s' := by
  obtain ⟨rings, gs, h⟩ := h
  cases e with
  | read wanted rounds =>
    cases hs
    exact h.begins (read_owing d wanted rounds)
  | write length =>
    cases hs
    exact h.begins (write_owing d length)
  | callback q rounds =>
    cases hs
    exact h.begins (callback_owing d q rounds)
  | act i ch =>
    unfold State.step at hs
    unfold Fine at hfine
    dsimp only at hs hfine
    split at hs
    · next a k hi =>
      rw [hi] at hfine
      obtain ⟨⟨t, r⟩, hp, rfl⟩ := Option.map_eq_some_iff.1 hs
      obtain ⟨g, hg, hown, hset⟩ := h.owes.step hi
      have hlt : i < gs.length := (List.getElem?_eq_some_iff.1 hg).1
      obtain ⟨rings', hstep, hmay⟩ := perform_step h.holding (h.has i g hg) hlt hfine hown.1 hp
      refine ⟨rings', gs.set i (after a r g), ?_, ?_, ?_⟩
      · show Owes _ _ _ _ (t.threads.set i (k r)) _
        rw [hstep.threads]
        exact hset (hown.2 r hmay)
      · rw [length_set]
        exact ⟨hstep.holding.good, hstep.holding.order⟩
      · exact each_set h.has hstep.own fun j x hj hx => hx.other (hstep.others _) hj
    · cases hs
  | completed q k data =>
    unfold State.step at hs
    dsimp only at hs
    split at hs
    · next index hk =>
      cases q with
      | tx =>
        cases hs
        exact h.completed hk (fun _ => ⟨rfl, rfl⟩) fun hq => by cases hq
      | rx =>
        obtain ⟨hsize, hs⟩ := Option.ite_none_right_eq_some.1 hs
        cases hs
        exact h.completed hk (fun hq => by cases hq) fun _ => ⟨hsize, rfl, rfl⟩
    · cases hs

def startRings : Q → List Entry
  | .tx => (List.range bufferCount).map fun i => ⟨i, 0⟩
  | .rx => []

theorem start_good : ∀ q, Good 1 (start.sides q) (startRings q)
  | .tx => by
    refine ⟨⟨rfl, fun k e he => ?_⟩, by decide, rfl, fun _ => rfl, nofun, nofun⟩
    obtain ⟨hlt, he⟩ := List.getElem?_eq_some_iff.1 he
    have hk : k < bufferCount := by simpa [startRings] using hlt
    rw [← he]
    show (⟨(0 + k) % bufferCount, 0⟩ : Entry) = _
    rw [Nat.zero_add, Nat.mod_eq_of_lt hk]
    simp [startRings]
  | .rx => by
    refine ⟨holds_nil, by decide, rfl, fun _ => rfl, nofun, fun y hy => ?_⟩
    obtain ⟨i, -, rfl⟩ := mem_map.1 hy
    exact Nat.one_pos

theorem inv_start (d : Driver) : Inv d start := by
  refine ⟨startRings, [{ side := .rx, hand := (List.range bufferCount).map fun i => ⟨i, 0⟩ }], .cons (post_owing nodup_range) .nil,
    ⟨start_good, fun _ => ⟨rfl, nofun, Nat.zero_le _, nofun⟩⟩, fun i g hg => ?_⟩
  cases i with
  | zero =>
    cases hg
    refine ⟨⟨nofun, nofun⟩, nofun, nofun, nofun, nofun, fun e => ?_⟩
    show (0, e) ∈ (List.range bufferCount).map (fun i => (0, ⟨i, 0⟩)) ↔ e ∈ (List.range bufferCount).map fun i => (⟨i, 0⟩ : Entry)
    simp only [mem_map, Prod.mk.injEq, true_and]
  | succ i => exact nomatch hg

/-- **Every buffer is in one place, the counts are right, and requests are read whole, once each and in order**, whatever the order of
calls, device and bus, where user copies and queueing work. -/
theorem buffers_kept (d : Driver) {es : List Event} (hr : Runs.run (State.step d) start es = some s)
    (hf : Runs.Along (State.step d) (Fine d) start es) : Kept d s := by
  obtain ⟨rings, gs, h⟩ := Runs.run_inv (Inv.step d) (inv_start d) hf hr
  have hlength (q : Q) : (rings q).length < 2 ^ 32 := by
    have := (h.holding.good q).length
    unfold bufferCount at this
    omega
  refine ⟨fun q => ?_, fun q => ?_, fun hd => ?_⟩
  · unfold Side.places
    rw [(h.holding.good q).holds.contents (hlength q)]
    exact (h.holding.good q).perm
  · rw [(h.holding.good q).holds.count (hlength q)]
    exact (h.holding.good q).counts
  · exact ⟨_, (h.holding.order hd).eq.symm⟩

end

def posted : List Event := List.replicate 9 (.act 0 {})

/-- Two requests come and are read, and a frame is written; all in one another's way. -/
def requestsRead : List Event :=
  posted ++ [.completed .rx 3 [1, 2], .read 4096 0, .callback .rx 2, .write 5, .completed .rx 0 [3]] ++ List.replicate 3 (.act 2 {}) ++
    [.act 1 {}, .act 3 {}, .act 1 {}, .act 3 {}, .act 1 {}, .act 3 {}, .act 1 {}, .act 2 {}, .act 1 {}, .act 2 {}, .act 3 {},
      .act 1 {}, .act 3 {}, .act 1 {}, .act 3 {}, .act 2 {}, .read 4096 0] ++ List.replicate 7 (.act 4 {}) ++
    [.act 3 {}, .completed .tx 0 []]

theorem requestsRead_runs : (Runs.run (State.step .portal) start requestsRead).isSome = true := by decide

theorem requestsRead_kept : Kept .portal ((Runs.run (State.step .portal) start requestsRead).get requestsRead_runs) :=
  buffers_kept .portal (Option.some_get requestsRead_runs).symm (by decide)

example : ((Runs.run (State.step .portal) start requestsRead).map fun s => s.delivered) = some [[1, 2], [3]] := by decide

def badWrite : List Event :=
  posted ++ [.write 5] ++ List.replicate 3 (.act 1 {}) ++ [.act 1 ⟨false⟩, .act 1 {}, .act 1 {}]

/-- **The write is over, and its buffer nowhere.** -/
theorem bad_write_loses : ∃ s, Runs.run (State.step .portal) start badWrite = some s ∧ (∀ p ∈ s.threads, p.done = true) ∧
    ¬ Kept .portal s := by
  have hrun : (Runs.run (State.step .portal) start badWrite).map (fun s => ((s.sides .tx).places, s.threads.map Prog.done)) =
      some ([1, 2, 3, 4, 5, 6, 7], [true, true]) := by decide
  obtain ⟨s, hr, hs⟩ := Option.map_eq_some_iff.1 hrun
  obtain ⟨hplaces, hdone⟩ := Prod.mk.inj hs
  refine ⟨s, hr, fun p hp => ?_, fun h => ?_⟩
  · have hmem := mem_map_of_mem (f := Prog.done) hp
    rw [hdone] at hmem
    simpa using hmem
  · have := (h.places .tx).length_eq
    rw [hplaces] at this
    exact absurd this (by decide)

end Transfers
end Prose
