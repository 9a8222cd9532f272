import Mathlib.Order.Nat
import Prose.VirtioRing
/-!
# VirtioSeen — no completion is stranded

As long as a callback is owed to some completion, an interrupt is pending, or some CPU is in `Interrupt` and will look at the
index once more, or the device has yet to look at the flag and will find it on.  A flag that is off is so by the store of a CPU
that has not had its barrier, so it is on its way to that look.
-/
namespace Prose
namespace Virtio

open Tasks List

/-- What a CPU at that stage has in its buffer, and has made of the index it saw. -/
def Has (s : State) (i : Nat) : Stage → Prop
  | .fresh | .left => s.stores i = [] ∧ s.off ≠ some i
  | .disabled => True
  | .looked seen => seen ≤ s.posted
  | .called seen => Seen s seen
  | .enabled seen => Seen s seen ∧ ((∃ before, s.stores i = before ++ [false]) ∨ s.stores i = [] ∧ s.off ≠ some i)
  | .fenced seen => Seen s seen ∧ s.stores i = [] ∧ s.off ≠ some i

structure Wakes (s : State) (gs : List Stage) : Prop where
  owes : Owes ready after (fun _ _ => True) (· = .left) s.threads gs
  has : ∀ i g, gs[i]? = some g → Has s i g
  stores : ∀ i, gs.length ≤ i → s.stores i = []
  off : ∀ i, s.off = some i → i < gs.length
  seen : ¬ Seen s s.posted → s.raised = true ∨ (∃ g ∈ gs, g ≠ .left) ∨ s.unchecked ≠ 0 ∧ s.off = none

section
variable {s s' : State} {gs : List Stage} {i : Nat} {g : Stage}

theorem Seen.of_le {m n : Nat} (h : Seen s n) (hle : m ≤ n) : Seen s m := fun k hk => h k (hk.trans_le hle)

theorem Seen.of_starts {n : Nat} (h : Seen s n) (hst : ∀ p ∈ s.starts, p ∈ s'.starts) : Seen s' n := fun k hk => by
  obtain ⟨p, hp, hkp⟩ := h k hk
  exact ⟨p, hst p hp, hkp⟩

theorem Has.keep (h : Has s i g) (hst : s'.stores i = s.stores i) (hoff : s.off ≠ some i → s'.off ≠ some i)
    (hposted : s.posted ≤ s'.posted) (hstarts : ∀ p ∈ s.starts, p ∈ s'.starts) : Has s' i g := by
  cases g with
  | fresh => exact ⟨hst.trans h.1, hoff h.2⟩
  | disabled => trivial
  | looked seen => exact le_trans h hposted
  | called seen => exact Seen.of_starts h hstarts
  | enabled seen =>
    refine ⟨h.1.of_starts hstarts, ?_⟩
    rw [hst]
    exact h.2.imp_right fun h => ⟨h.1, hoff h.2⟩
  | fenced seen => exact ⟨h.1.of_starts hstarts, hst.trans h.2.1, hoff h.2.2⟩
  | left => exact ⟨hst.trans h.1, hoff h.2⟩

/-- **Whose store turned the interrupt off** is still in `Interrupt`. -/
theorem Wakes.running (h : Wakes s gs) (hoff : s.off = some i) : ∃ g ∈ gs, g ≠ .left := by
  have hlt := h.off i hoff
  refine ⟨gs[i], getElem_mem hlt, fun hleft => ?_⟩
  have hhas := h.has i gs[i] (getElem?_eq_getElem hlt)
  rw [hleft] at hhas
  exact hhas.2 hoff

theorem index_seen {posted seen : Nat} (hle : posted < seen + 65536) (h : index posted = index seen) : posted ≤ seen := by
  have hmod : posted % 65536 = seen % 65536 := by
    have := congrArg UInt16.toNat h
    simpa [index] using this
  omega

/-! ## The steps -/

structure Frame (s s' : State) (i : Nat) : Prop where
  posted : s'.posted = s.posted
  off : s'.off = s.off
  stores : ∀ j, j ≠ i → s'.stores j = s.stores j
  starts : ∀ p ∈ s.starts, p ∈ s'.starts

theorem store_frame (s : State) (i : Nat) (off : Bool) : Frame s (s.store i off) i :=
  ⟨rfl, rfl, fun _ hj => Function.update_of_ne hj _ _, fun _ hp => hp⟩

theorem frame_refl (s : State) (i : Nat) : Frame s s i := ⟨rfl, rfl, fun _ _ => rfl, fun _ hp => hp⟩

/-- **One action**: who leaves has found nothing new, and what was there then has been seen. -/
theorem perform_has {a : Act} {r : Answer a} (hf : FineAct s a) (hr : ready a g) (h : Has s i g)
    (hp : s.perform i a = some (s', r)) : Frame s s' i ∧ Has s' i (after a r g) ∧ (after a r g = .left → Seen s' s'.posted) := by
  cases a with
  | disable =>
    cases hp
    exact ⟨store_frame s i true, trivial, nofun⟩
  | enable =>
    obtain ⟨seen, rfl⟩ := hr
    cases hp
    refine ⟨store_frame s i false, ⟨h.of_starts (store_frame s i false).starts, .inl ⟨s.stores i, ?_⟩⟩, nofun⟩
    exact Function.update_self i _ _
  | barrier =>
    obtain ⟨seen, rfl⟩ := hr
    obtain ⟨hempty, hp⟩ := Option.ite_none_right_eq_some.1 hp
    cases hp
    refine ⟨frame_refl s i, ⟨h.1, hempty, ?_⟩, nofun⟩
    rcases h.2 with ⟨before, hst⟩ | ⟨-, hoff⟩
    · rw [hempty] at hst
      simp at hst
    · exact hoff
  | usedIndex =>
    cases hp
    exact ⟨frame_refl s i, Nat.le_refl s.posted, nofun⟩
  | usedAgain round seen =>
    obtain rfl := hr
    cases hp
    refine ⟨frame_refl s i, ?_⟩
    show Has s i (if leaves round seen s.posted = true then Stage.left else .fresh) ∧ _
    by_cases hl : leaves round seen s.posted = true
    · rw [if_pos hl]
      refine ⟨h.2, fun _ => h.1.of_le ?_⟩
      rcases of_decide_eq_true hl with heq | hmax
      · exact index_seen hf.1 heq
      · exact (hf.2 hmax).le
    rw [if_neg hl]
    refine ⟨h.2, fun hleft => ?_⟩
    rw [show after (.usedAgain round seen) s.posted (.fenced seen) = .fresh from if_neg hl] at hleft
    exact nomatch hleft
  | ringUsedIndex =>
    cases hp
    exact ⟨frame_refl s i, h, fun hleft => absurd hleft hr⟩
  | callback =>
    obtain ⟨seen, rfl⟩ := hr
    cases hp
    refine ⟨⟨rfl, rfl, fun _ _ => rfl, fun _ hp => mem_cons_of_mem _ hp⟩, fun k hk => ?_, nofun⟩
    exact ⟨s.posted, mem_cons_self, hk.trans_le h⟩
  | late =>
    cases hp
    refine ⟨⟨rfl, rfl, fun _ _ => rfl, fun _ hp => hp⟩, ?_, fun hleft => absurd hleft hr⟩
    exact h.keep rfl id (le_refl _) fun _ hp => hp

/-- What a CPU has stored gets to memory: the last it stores of a round turns the interrupt on. -/
theorem flush_has (h : Has s i g) (hs : s.flush i = some s') :
    Has s' i g ∧ (∀ j, s'.off = some j → j = i) ∧ (∀ j, j ≠ i → s'.stores j = s.stores j) ∧
      s'.posted = s.posted ∧ s'.starts = s.starts ∧ s'.threads = s.threads := by
  unfold State.flush at hs
  split at hs
  · exact nomatch hs
  next off rest hst =>
  cases hs
  have hself : Function.update s.stores i rest i = rest := Function.update_self i _ _
  refine ⟨?_, fun j hj => ?_, fun j hj => Function.update_of_ne hj _ _, rfl, rfl, rfl⟩
  · cases g with
    | fresh => exact absurd (hst.symm.trans h.1) (cons_ne_nil _ _)
    | disabled => trivial
    | looked seen => exact h
    | called seen => exact h
    | enabled seen =>
      refine ⟨h.1, ?_⟩
      rcases h.2 with ⟨before, hb⟩ | ⟨hempty, -⟩
      · rw [hst] at hb
        cases before with
        | nil =>
          obtain ⟨rfl, rfl⟩ := List.cons.inj hb
          exact .inr ⟨hself, nofun⟩
        | cons b before =>
          obtain ⟨-, hrest⟩ := List.cons.inj hb
          exact .inl ⟨before, hself.trans hrest⟩
      · exact absurd (hst.symm.trans hempty) (cons_ne_nil _ _)
    | fenced seen => exact absurd (hst.symm.trans h.2.1) (cons_ne_nil _ _)
    | left => exact absurd (hst.symm.trans h.1) (cons_ne_nil _ _)
  · cases off with
    | false => exact nomatch hj
    | true => exact (Option.some.inj hj).symm

theorem Wakes.act (h : Wakes s gs) (hf : Fine s (.act i)) (hs : s.step (.act i) = some s') : ∃ gs', Wakes s' gs' := by
  unfold State.step at hs
  dsimp only at hs
  unfold Fine at hf
  dsimp only at hf
  split at hs
  · next a k hi =>
    rw [hi] at hf
    obtain ⟨⟨t, r⟩, hp, rfl⟩ := Option.map_eq_some_iff.1 hs
    obtain ⟨g, hg, hown, hset⟩ := h.owes.step hi
    have hlt : i < gs.length := (List.getElem?_eq_some_iff.1 hg).1
    obtain ⟨hframe, hhas, hleft⟩ := perform_has hf hown.1 (h.has i g hg) hp
    have hthreads : t.threads = s.threads := by
      cases a <;> first
        | (cases hp; rfl)
        | (obtain ⟨-, hp⟩ := Option.ite_none_right_eq_some.1 hp; cases hp; rfl)
    refine ⟨gs.set i (after a r g), ?_, ?_, fun j hj => ?_, fun j hj => ?_, fun hseen => .inr (.inl ?_)⟩
    · show Owes _ _ _ _ (t.threads.set i (k r)) _
      rw [hthreads]
      exact hset (hown.2 r trivial)
    · refine each_set h.has ?_ fun j g hj hg => ?_
      · exact hhas.keep rfl id (le_refl _) fun _ hp => hp
      · exact hg.keep (hframe.stores j hj) (by show s.off ≠ _ → t.off ≠ _; rw [hframe.off]; exact id) hframe.posted.ge
          hframe.starts
    · rw [length_set] at hj
      exact (hframe.stores j (by omega)).trans (h.stores j hj)
    · rw [length_set]
      exact h.off j (hframe.off ▸ hj)
    · exact ⟨_, mem_set hlt _, fun he => hseen (hleft he)⟩
  · cases hs

theorem Wakes.step (s : State) (e : Event) (s' : State) (h : ∃ gs, Wakes s gs) (hf : Fine s e) (hs : s.step e = some s') :
    ∃ gs, Wakes s' gs := by
  obtain ⟨gs, h⟩ := h
  cases e with
  | post n =>
    obtain ⟨-, hs⟩ := Option.ite_none_right_eq_some.1 hs
    cases hs
    refine ⟨gs, h.owes, fun i g hg => (h.has i g hg).keep rfl id (Nat.le_add_right _ _) fun _ hp => hp, h.stores, h.off,
      fun _ => ?_⟩
    cases hoff : s.off with
    | none => exact .inr (.inr ⟨Nat.succ_ne_zero _, rfl⟩)
    | some i => exact .inr (.inl (h.running hoff))
  | check =>
    obtain ⟨-, hs⟩ := Option.ite_none_right_eq_some.1 hs
    cases hs
    refine ⟨gs, h.owes, fun i g hg => (h.has i g hg).keep rfl id (le_refl _) fun _ hp => hp, h.stores, h.off, fun _ => ?_⟩
    cases hoff : s.off with
    | none => exact .inl (Bool.or_true _)
    | some i => exact .inr (.inl (h.running hoff))
  | interrupt own =>
    obtain ⟨-, hs⟩ := Option.ite_none_right_eq_some.1 hs
    cases hs
    refine ⟨gs ++ [.fresh], h.owes.append (interrupt_owing 0), ?_, fun i hi => ?_, fun i hi => ?_, fun _ => .inr (.inl ?_)⟩
    · refine each_append h.has ⟨h.stores _ (le_refl _), fun hoff => ?_⟩ fun j g hg => ?_
      · exact absurd (h.off _ hoff) (lt_irrefl _)
      · exact hg.keep rfl id (le_refl _) fun _ hp => hp
    · rw [length_append] at hi
      exact h.stores i (by omega)
    · rw [length_append]
      exact Nat.lt_add_right _ (h.off i hi)
    · exact ⟨.fresh, mem_append_right _ (mem_singleton.2 rfl), nofun⟩
  | act i => exact h.act hf hs
  | flush i =>
    have hlt : i < gs.length := by
      by_contra hge
      have hempty := h.stores i (by omega)
      unfold State.step State.flush at hs
      dsimp only at hs
      rw [hempty] at hs
      exact nomatch hs
    obtain ⟨hhas, hoff, hst, hposted, hstarts, hthreads⟩ :=
      flush_has (h.has i gs[i] (getElem?_eq_getElem hlt)) hs
    refine ⟨gs, ?_, fun j g hg => ?_, fun j hj => ?_, fun j hj => ?_, fun _ => .inr (.inl ?_)⟩
    · rw [hthreads]
      exact h.owes
    · by_cases hj : j = i
      · subst hj
        obtain ⟨_, rfl⟩ := List.getElem?_eq_some_iff.1 hg
        exact hhas
      · refine (h.has j g hg).keep (hst j hj) (fun _ he => hj (hoff j he)) hposted.ge ?_
        rw [hstarts]
        exact fun _ hp => hp
    · exact (hst j (by omega)).trans (h.stores j hj)
    · rw [hoff j hj]
      exact hlt
    · refine ⟨gs[i], getElem_mem hlt, fun hleft => ?_⟩
      have hempty := h.has i gs[i] (getElem?_eq_getElem hlt)
      rw [hleft] at hempty
      unfold State.step State.flush at hs
      dsimp only at hs
      rw [hempty.1] at hs
      exact nomatch hs
  | dequeue =>
    obtain ⟨-, hs⟩ := Option.ite_none_right_eq_some.1 hs
    cases hs
    exact ⟨gs, h.owes, fun i g hg => (h.has i g hg).keep rfl id (le_refl _) fun _ hp => hp, h.stores, h.off, h.seen⟩

end

theorem wakes_none : Wakes {} [] :=
  ⟨.nil, fun _ _ hg => (nomatch hg), fun _ _ => rfl, nofun, fun h => absurd (fun _ hk => absurd hk (Nat.not_lt_zero _)) h⟩

/-- **No completion is stranded**, in any order of a device's steps, interrupts, stores and CPUs, if no round lasts for 65536
completions and none that is the last has missed one. -/
theorem completions_seen {es : List Event} {s : State} (hr : Runs.run State.step {} es = some s)
    (hf : Runs.Along State.step Fine {} es) (hq : Quiet s) : Seen s s.posted := by
  obtain ⟨gs, h⟩ := Runs.run_inv Wakes.step ⟨[], wakes_none⟩ hf hr
  by_contra hseen
  rcases h.seen hseen with hraised | ⟨g, hg, hleft⟩ | ⟨hchecked, -⟩
  · rw [hq.raised] at hraised
    exact nomatch hraised
  · exact hleft (h.owes.done hq.threads g hg)
  · exact hchecked hq.checked

/-- A round up to the last look, with so many completions posted, and their flag looked at, while the interrupt is off. -/
def oneRound (late : Bool) (posts : List Nat) : List Event :=
  [.act 0, .flush 0, .act 0, .act 0, .act 0] ++ posts.flatMap (fun n => [.post n, .check]) ++ [.act 0] ++
    (if late then [.act 0] else []) ++ [.act 0, .flush 0, .act 0, .act 0]

def twoRounds : List Event := [.post 1, .check, .interrupt true] ++ oneRound false [1] ++ oneRound false []

theorem twoRounds_runs : (Runs.run State.step {} twoRounds).isSome = true := by decide +kernel

theorem twoRounds_seen : Seen ((Runs.run State.step {} twoRounds).get twoRounds_runs)
    ((Runs.run State.step {} twoRounds).get twoRounds_runs).posted :=
  completions_seen (Option.some_get twoRounds_runs).symm (by decide +kernel) (by decide +kernel)

def sixtyFiveRounds : List Event :=
  [.post 1, .check, .interrupt true] ++ oneRound false [1] ++ (List.replicate 64 (oneRound false [1])).flatten

def wholeTurn : List Event := [.post 1, .check, .interrupt true] ++ oneRound false [32768, 32768]

/-- **The rounds are bounded, and so is the index**: what comes in the last round, or while the index goes all the way round, is
left where it is. -/
theorem last_round_misses : (∃ s, Runs.run State.step {} sixtyFiveRounds = some s ∧ Quiet s ∧ ¬ Seen s s.posted) ∧
    ∃ s, Runs.run State.step {} wholeTurn = some s ∧ Quiet s ∧ ¬ Seen s s.posted := by
  have hmissed (es : List Event) (hr : (Runs.run State.step {} es).isSome = true)
      (hq : Quiet ((Runs.run State.step {} es).get hr))
      (hpos : 0 < ((Runs.run State.step {} es).get hr).posted)
      (hs : ∀ p ∈ ((Runs.run State.step {} es).get hr).starts, p < ((Runs.run State.step {} es).get hr).posted) :
      ∃ s, Runs.run State.step {} es = some s ∧ Quiet s ∧ ¬ Seen s s.posted := by
    refine ⟨_, (Option.some_get hr).symm, hq, fun hseen => ?_⟩
    obtain ⟨p, hp, hlt⟩ := hseen _ (Nat.sub_one_lt_of_lt hpos)
    have := hs p hp
    omega
  exact ⟨hmissed sixtyFiveRounds (by decide +kernel) (by decide +kernel) (by decide +kernel) (by decide +kernel),
    hmissed wholeTurn (by decide +kernel) (by decide +kernel) (by decide +kernel) (by decide +kernel)⟩

end Virtio
end Prose
