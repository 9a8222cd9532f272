import Prose.CommandKept
/-!
# CommandRuns — runs of the command page

The semaphore counts the calls of the callback, and the bus calls it for other queues too; so a count says nothing of the command
in flight, and a call that has taken one gives up ten milliseconds later, whatever is left of its five seconds.
-/
namespace Prose
namespace Command

open Tasks List

section
variable {s s' : State} {i n : Nat} {g : Debt}

/-- Whose command is in flight alone, and not on the used ring with a call of the callback, has had none. -/
theorem unsignalled (hd : Dev s n) (hf : s.flights = [i]) (hu : i ∈ s.used → ¬ ∃ x ∈ s.signals, x.call = i) :
    ∀ x ∈ s.signals, x.call ≠ i := fun x hx he => by
  obtain ⟨-, ha, hw⟩ := hd.signals x hx
  have hmem : i ∈ s.flights := by
    rw [hf]
    exact mem_singleton.2 rfl
  rcases mem_append.1 hmem with hm | hm
  · exact hu hm ⟨x, hx, he⟩
  rcases mem_append.1 hm with hm | hm
  · obtain ⟨w, hw', hwc⟩ := mem_map.1 hm
    exact hw w (Option.mem_toList.1 hw') (hwc.trans he.symm)
  · exact ha (he ▸ hm)

/-- **Every action keeps what the claim needs**, if it is a fine one. -/
theorem perform_step (hd : Dev s n) (h : Has s i g) (hf : Free s) (hi : i < n) {ok : Bool} : ∀ {a : Act} {r : Answer a},
    FineAct s a → ready a g → s.perform i ok a = some (s', r) → Step s s' i n (after a r g) ∧ s'.threads = s.threads
  | .lock, _, _, hr, hp => by
    obtain ⟨hl, hp⟩ := Option.ite_none_right_eq_some.1 hp
    cases hp
    exact ⟨lock_step hd h hf hi hl hr.2, rfl⟩
  | .unlock, _, _, hr, hp => by
    cases hp
    exact ⟨unlock_step hd h hr.1 hr.2, rfl⟩
  | .outstanding, _, _, hr, hp => by
    cases hp
    obtain ⟨hl, hplace, hown⟩ := hr
    have hplaced := h.placed hl
    rw [hplace] at hplaced
    have hawake : Awake s := h.awake hl (by rw [hplace]; nofun)
    refine ⟨look_step hd h hf ?_ fun _ _ => hawake, rfl⟩
    rw [hown]
    cases ho : s.outstanding with
    | true => exact ⟨ho, nofun⟩
    | false => exact ⟨ho, hplaced ho, nofun⟩
  | .acquire own since, _, _, hr, hp => by
    obtain ⟨hl, hplace, rfl⟩ := hr
    have hplaced := h.placed hl
    rw [hplace] at hplaced
    unfold State.perform at hp
    dsimp only at hp
    split at hp
    · cases hp
      exact ⟨acquired_step hd h hl hplace, rfl⟩
    rename_i hdone
    obtain ⟨htime, hp⟩ := Option.ite_none_right_eq_some.1 hp
    cases hp
    refine ⟨failed_step hd h hl (.inl hplace) fun hown => ⟨htime, ?_⟩, by split <;> rfl⟩
    obtain ⟨x, hx⟩ := Option.isSome_iff_exists.1 hown
    refine unsignalled hd (hplaced.2 x hx).1 fun hu hsig => hdone ?_
    exact h.awake hl (by rw [hplace]; nofun) i hu hsig
  | .dequeue, _, _, hr, hp => by
    unfold State.perform at hp
    dsimp only at hp
    split at hp
    · next hu =>
      cases hp
      have hplaced := h.placed hr.1
      refine ⟨look_step hd h hf ?_ fun _ _ => awake_nil hu, rfl⟩
      rcases hr.2 with hplace | hplace <;> rw [hplace] at hplaced <;> exact hplaced
    · next c rest hu =>
      cases hp
      exact ⟨dequeue_step hd h hr.1 hr.2 hu, rfl⟩
  | .spin since, _, _, _, hp => by
    obtain ⟨-, hp⟩ := Option.ite_none_right_eq_some.1 hp
    cases hp
    exact ⟨⟨hd, h, hf, fun _ _ _ hg => hg⟩, rfl⟩
  | .collected, _, _, hr, hp => by
    cases hp
    exact ⟨collected_step hd h hr.1 hr.2, rfl⟩
  | .giveUp own since, _, hfine, hr, hp => by
    obtain ⟨hl, hplace, rfl⟩ := hr
    have hplaced := h.placed hl
    rw [hplace] at hplaced
    cases hp
    refine ⟨failed_step hd h hl (.inr hplace) fun hown => ?_, by split <;> rfl⟩
    obtain ⟨htime, hu⟩ := hfine hown
    obtain ⟨x, hx⟩ := Option.isSome_iff_exists.1 hown
    refine ⟨htime, unsignalled hd (hplaced.2 x hx).1 fun hm => ?_⟩
    rw [hu] at hm
    exact absurd hm not_mem_nil
  | .nextSeq, _, _, _, hp => by
    cases hp
    have hout : Outside s { s with seq := s.seq + 1 } := ⟨rfl, rfl, rfl, rfl, rfl, fun _ => rfl, fun _ h => h, fun _ h => .inl h, id⟩
    refine ⟨⟨?_, hout.has h, hout.free hf, fun _ _ _ hg => hout.has hg⟩, rfl⟩
    exact ⟨hd.one, hd.work, hd.used, hd.signals, hd.failed, hd.clobbered, hd.own, hd.flying, hd.signalled, hd.holder⟩
  | .writePage seq request, _, _, hr, hp => by
    cases hp
    exact ⟨writePage_step hd h hr.1 hr.2.1 seq request, rfl⟩
  | .queue, _, _, hr, hp => by
    cases hp
    obtain ⟨hl, hplace, hsent, -⟩ := hr
    cases ok with
    | true => exact ⟨queue_step hd h hi hl hplace hsent, rfl⟩
    | false =>
      have hplaced := h.placed hl
      rw [hplace] at hplaced
      refine ⟨⟨hd, ⟨h.lock, fun _ => ⟨hplaced.1, hplaced.2.1, nofun⟩, fun hl _ => h.awake hl (by rw [hplace]; nofun), h.sent,
        h.copied⟩, hf, fun _ _ _ hg => hg⟩, rfl⟩
  | .setOutstanding, _, _, hr, hp => by
    cases hp
    exact ⟨setOutstanding_step hd h hr.1 hr.2, rfl⟩
  | .copyOut, _, _, hr, hp => by
    cases hp
    exact ⟨copyOut_step hd h hf hr.1 hr.2, rfl⟩
  | .finish request outcome, _, _, hr, hp => by
    cases hp
    exact ⟨finish_step hd h hf hr, rfl⟩
  | .time, _, _, _, hp | .answerSeq, _, _, _, hp => by
    cases hp
    exact ⟨⟨hd, h, hf, fun _ _ _ hg => hg⟩, rfl⟩

end

/-- **Every step.** -/
theorem Inv.step (d : Driver) (s : State) (e : Event) (s' : State) (h : ∃ gs, Inv s gs) (hfine : Fine s e)
    (hs : s.step d e = some s') : ∃ gs, Inv s' gs := by
  obtain ⟨gs, h⟩ := h
  rcases device_step h.dev hs with ⟨request, rfl⟩ | ⟨i, ok, rfl⟩ | ⟨hout, hdev, hthreads⟩
  · cases hs
    have hdev := h.dev
    have hout : Outside s { s with threads := s.threads ++ [command d request] } :=
      ⟨rfl, rfl, rfl, rfl, rfl, fun _ => rfl, fun _ h => h, fun _ h => .inl h, id⟩
    refine ⟨gs ++ [{}], h.owes.append (command_owing d request), ?_, ?_, hout.free h.free⟩
    · refine each_append h.has ?_ fun j g hg => hout.has hg
      exact ⟨⟨nofun, fun hl => absurd (hdev.holder _ hl) (lt_irrefl _)⟩, nofun, nofun,
        fun _ => ⟨fun hm => absurd (hdev.flying _ hm) (lt_irrefl _), fun x hx he =>
          absurd (he ▸ hdev.signalled x hx) (lt_irrefl _)⟩, nofun⟩
    · rw [length_append]
      exact ⟨hdev.one, hdev.work, hdev.used, hdev.signals, hdev.failed, hdev.clobbered, hdev.own,
        fun c hc => Nat.lt_add_right _ (hdev.flying c hc), fun x hx => Nat.lt_add_right _ (hdev.signalled x hx),
        fun i hi => Nat.lt_add_right _ (hdev.holder i hi)⟩
  · unfold State.step at hs
    unfold Fine at hfine
    dsimp only at hs hfine
    split at hs
    · next a k hi =>
      rw [hi] at hfine
      obtain ⟨⟨t, r⟩, hp, rfl⟩ := Option.map_eq_some_iff.1 hs
      obtain ⟨g, hg, hown, hset⟩ := h.owes.step hi
      have hlt : i < gs.length := (List.getElem?_eq_some_iff.1 hg).1
      obtain ⟨hstep, hthreads⟩ := perform_step h.dev (h.has i g hg) h.free hlt hfine hown.1 hp
      have hout : Outside t { t with threads := t.threads.set i (k r) } :=
        ⟨rfl, rfl, rfl, rfl, rfl, fun _ => rfl, fun _ h => h, fun _ h => .inl h, id⟩
      have hdev := hstep.dev
      refine ⟨gs.set i (after a r g), ?_, ?_, ?_, hout.free hstep.free⟩
      · show Owes _ _ _ _ (t.threads.set i (k r)) _
        rw [hthreads]
        exact hset (hown.2 r trivial)
      · exact each_set h.has (hout.has hstep.own) fun j g hj hg => hout.has (hstep.others j g hj hg)
      · rw [length_set]
        exact ⟨hdev.one, hdev.work, hdev.used, hdev.signals, hdev.failed, hdev.clobbered, hdev.own, hdev.flying, hdev.signalled,
          hdev.holder⟩
    · cases hs
  · refine ⟨gs, ?_, fun i g hg => hout.has (h.has i g hg), hdev, hout.free h.free⟩
    rw [hthreads]
    exact h.owes

theorem inv_none : Inv {} [] where
  owes := .nil
  has := fun _ _ hg => nomatch hg
  dev := ⟨Nat.zero_le _, nofun, nofun, nofun, nofun, rfl, nofun, nofun, nofun, nofun⟩
  free := fun _ => ⟨fun _ => rfl, nofun⟩

/-- **One command in flight, the page the device's own, every answer its caller's**, and no command given up before its time, in
any order of callers, device and bus, where no call that has taken a count and looked a thousand times in vain is short of time. -/
theorem commands_kept (d : Driver) {es : List Event} {s : State} (hr : Runs.run (State.step d) {} es = some s)
    (hf : Runs.Along (State.step d) Fine {} es) : Kept s := by
  obtain ⟨gs, h⟩ := Runs.run_inv (Inv.step d) ⟨[], inv_none⟩ hf hr
  exact ⟨h.dev.one, h.dev.clobbered, h.dev.own, fun f hf => (h.dev.failed f hf).2⟩

/-- A call gives up; the next one collects its command first, and is answered. -/
def lateAnswer : List Event :=
  [.call ⟨32, 1⟩, .call ⟨32, 2⟩] ++ List.replicate 7 (.act 0 true) ++
    [.tick commandTimeout, .act 0 true, .act 0 true, .act 0 true, .take, .answer ⟨true, 8⟩, .complete, .callback] ++
    List.replicate 11 (.act 1 true) ++ [.take, .answer ⟨true, 9⟩, .complete, .callback] ++ List.replicate 7 (.act 1 true)

theorem lateAnswer_runs : (Runs.run (State.step proseDisplay) {} lateAnswer).isSome = true := by decide

theorem lateAnswer_kept : Kept ((Runs.run (State.step proseDisplay) {} lateAnswer).get lateAnswer_runs) :=
  commands_kept proseDisplay (Option.some_get lateAnswer_runs).symm (by decide)

/-- One attempt of the loop of `collect`: the command is not there, and ten microseconds pass. -/
def oneAttempt : List Event := [.act 0 true, .act 0 true, .tick 10, .act 0 true]

/-- **As many attempts as there are**, in vain. -/
theorem attempts_run {own : Bool} {since : Nat} {k : Collected → Hook Unit} : ∀ (n m : Nat) (s : State), s.used = [] →
    s.threads = [attempts own since (n + m) >>= k] →
    Runs.run (State.step proseDisplay) s (List.replicate n oneAttempt).flatten =
      some { s with now := s.now + 10 * n, threads := [attempts own since m >>= k] }
  | 0, m, s, _, ht => by
    rw [Nat.zero_add] at ht
    rw [← ht]
    rfl
  | n + 1, m, s, hu, ht => by
    have hround : Runs.run (State.step proseDisplay) s oneAttempt =
        some { s with now := s.now + 10, threads := [attempts own since (n + m) >>= k] } := by
      rw [show n + 1 + m = (n + m) + 1 by omega] at ht
      obtain ⟨now⟩ := s
      dsimp only at hu ht
      subst hu ht
      refine (Runs.run_append _ [Event.act 0 true, .act 0 true, .tick 10] [.act 0 true]).trans ?_
      have hspin (t : State) (ht : t.now = now + 10) : t.perform 0 true (.spin now) = some (t, ()) := if_pos ht.ge
      show (State.perform _ 0 true (.spin now)).map _ >>= _ = _
      rw [hspin _ rfl]
      rfl
    rw [replicate_succ, flatten_cons, Runs.run_append, hround, Option.bind_some, attempts_run n m _ (by exact hu) rfl]
    rw [show s.now + 10 + 10 * n = s.now + 10 * (n + 1) by omega]

/-- A vertical blank comes while the device is at work on a command. -/
def blankComes : List Event :=
  [.call ⟨32, 1⟩] ++ List.replicate 7 (.act 0 true) ++ [.take, .callback, .act 0 true]

def tooLate : List Event := [.act 0 true, .act 0 true, .act 0 true, .answer ⟨true, 7⟩, .complete, .callback]

theorem blankComes_runs : (Runs.run (State.step proseDisplay) {} blankComes).isSome = true := by decide

/-- **Another queue's interrupt fails a command** that the device completes ten milliseconds after it was queued. -/
theorem other_queue_fails : ∃ s, Runs.run (State.step proseDisplay) {}
    (blankComes ++ (List.replicate dequeueAttempts oneAttempt).flatten ++ tooLate) = some s ∧ ¬ Kept s := by
  have hloop := attempts_run (k := collectedOwn 1 ⟨32, 1⟩) dequeueAttempts 0
    ((Runs.run (State.step proseDisplay) {} blankComes).get blankComes_runs) (by decide) (by rfl)
  have hend : (Runs.run (State.step proseDisplay) { (Runs.run (State.step proseDisplay) {} blankComes).get blankComes_runs with
      now := ((Runs.run (State.step proseDisplay) {} blankComes).get blankComes_runs).now + 10 * dequeueAttempts
      threads := [attempts true 0 0 >>= collectedOwn 1 ⟨32, 1⟩] } tooLate).map (fun s => (s.failed, s.signals)) =
      some ([⟨0, 0⟩], [⟨0, 10000⟩]) := by decide
  obtain ⟨s, hr, hs⟩ := Option.map_eq_some_iff.1 hend
  obtain ⟨hfailed, hsignals⟩ := Prod.mk.inj hs
  refine ⟨s, ?_, fun h => ?_⟩
  · rw [Runs.run_append, Runs.run_append, ← Option.some_get blankComes_runs, Option.bind_some, hloop, Option.bind_some]
    exact hr
  · have hlate := h.time ⟨0, 0⟩ (by rw [hfailed]; exact mem_singleton.2 rfl) ⟨0, 10000⟩
      (by rw [hsignals]; exact mem_singleton.2 rfl) rfl
    exact absurd hlate (by decide)

end Command
end Prose
