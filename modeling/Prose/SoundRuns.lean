import Prose.SoundSteps
/-!
# SoundRuns — runs of the sound driver

A late completion bears only the index of its buffer, and the generation is remembered by index: once the next session has
submitted that buffer too, what comes back from the last one counts for it.
-/
namespace Prose
namespace Sound

open Tasks List

/-- **The stream, the submissions, and what each thread knows**: one call at a time, and none knows anything while there is none. -/
structure Holds (c : Config) (s : State) (ring : List Sub) (gs : List Debt) : Prop where
  owes : Owes (ready c) after (may c) (fun g => g.op = false ∧ g.releasing = false) s.threads gs
  good : Good c s ring
  has : ∀ i g, gs[i]? = some g → Has c s ring i g
  one : ∀ (i j : Nat) (g h : Debt), gs[i]? = some g → gs[j]? = some h → g.op = true → h.op = true → i = j
  free : s.busy = false → Knows c s ring .nothing

def Inv (c : Config) (s : State) : Prop := ∃ ring gs, Holds c s ring gs

section
variable {c : Config} {s s' : State} {ring : List Sub} {gs : List Debt} {i : Nat}

theorem Holds.begins (h : Holds c s ring gs) {p : Hook Unit} {k : Know} {op : Bool} (hp : Owing c p { op, know := k })
    (hop : op = true → s.busy = false ∧ k = .nothing) : Inv c { s with busy := op || s.busy, threads := s.threads ++ [p] } := by
  have hkeep {k : Know} (hk : Knows c s ring k) : Knows c { s with busy := op || s.busy, threads := s.threads ++ [p] } ring k :=
    hk.same rfl rfl rfl rfl rfl rfl rfl rfl rfl rfl
  have hold : op = true → ∀ (j : Nat) (h' : Debt), gs[j]? = some h' → h'.op = false := fun ho j h' hj => by
    refine Bool.eq_false_iff.2 fun ht => ?_
    have := ((h.has j h' hj).op ht).1
    exact absurd (this.symm.trans (hop ho).1) nofun
  have hsplit {j : Nat} {h' : Debt} (hj : (gs ++ [({ op, know := k } : Debt)])[j]? = some h') :
      gs[j]? = some h' ∨ j = gs.length ∧ h' = { op, know := k } := by
    rcases Nat.lt_or_ge j gs.length with hlt | hge
    · rw [getElem?_append_left hlt] at hj
      exact .inl hj
    · rw [getElem?_append_right hge, getElem?_singleton] at hj
      obtain ⟨hz, hj⟩ := Option.ite_none_right_eq_some.1 hj
      exact .inr ⟨by omega, (Option.some.inj hj).symm⟩
  refine ⟨ring, gs ++ [{ op, know := k }], h.owes.append hp,
    h.good.same (.refl _) rfl rfl rfl rfl rfl ⟨rfl, rfl⟩ ⟨rfl, rfl⟩ rfl rfl rfl h.good.running, ?_, fun a b x y ha hb hx hy => ?_,
    fun hb => ?_⟩
  · refine each_append h.has ⟨fun ho => ⟨?_, ?_⟩, nofun, nofun⟩ fun j x hx => hx.other (fun ho => ?_) (fun _ h => h) id
    · show (op || s.busy) = true
      rw [show op = true from ho, Bool.true_or]
    · show Knows c _ ring k
      rw [(hop ho).2]
      exact hkeep (h.free (hop ho).1)
    · refine ⟨?_, hkeep (hx.op ho).2⟩
      show (op || s.busy) = true
      rw [(hx.op ho).1, Bool.or_true]
  · rcases hsplit ha with ha | ⟨rfl, rfl⟩ <;> rcases hsplit hb with hb | ⟨rfl, rfl⟩
    · exact h.one a b x y ha hb hx hy
    · exact absurd ((hold hy a x ha).symm.trans hx) Bool.false_ne_true
    · exact absurd ((hold hx b y hb).symm.trans hy) Bool.false_ne_true
    · rfl
  · exact hkeep (h.free (Bool.or_eq_false_iff.1 hb).2)

/-- **A thread does something**: the call, and the callbacks keep what they had; or a callback, and the call knows what it knew. -/
theorem Holds.acts (h : Holds c s ring gs) {a : Act} {k : Answer a → Hook Unit} {r : Answer a} {ch : Choice}
    (hi : s.threads[i]? = some (.act a k)) (hfine : FineAct s a) (hp : s.perform c i ch a = some (s', r)) :
    Inv c { s' with threads := s'.threads.set i (k r) } := by
  obtain ⟨g, hg, hown, hset⟩ := h.owes.step hi
  have hh := h.has i g hg
  have hkeep {ring : List Sub} {k' : Know} (hk : Knows c s' ring k') :
      Knows c { s' with threads := s'.threads.set i (k r) } ring k' := hk.same rfl rfl rfl rfl rfl rfl rfl rfl rfl rfl
  have hrest {ring : List Sub} {j : Nat} {x : Debt} (hx : Has c s' ring j x) :
      Has c { s' with threads := s'.threads.set i (k r) } ring j x :=
    hx.other (fun ho => ⟨(hx.op ho).1, hkeep (hx.op ho).2⟩) (fun _ h => h) id
  have hgood {ring : List Sub} (hx : Good c s' ring) : Good c { s' with threads := s'.threads.set i (k r) } ring :=
    hx.same (.refl _) rfl rfl rfl rfl rfl ⟨rfl, rfl⟩ ⟨rfl, rfl⟩ rfl rfl rfl hx.running
  cases hop : g.op with
  | true =>
    obtain ⟨hbusy, -⟩ := hh.op hop
    obtain ⟨ring', hstep, hmay⟩ := call_step h.good hbusy hh hop hfine hown.1 hp
    have hothers (j : Nat) (x : Debt) (hj : j ≠ i) (hx : Has c s ring j x ∧ (x.op = true → j = i)) : Has c s' ring' j x :=
      hx.1.other (fun ho => absurd (hx.2 ho) hj) (fun sub hs => by rw [hstep.hands]; exact hs)
        fun hr => by rw [hstep.releasing]; exact hr
    have hone (j : Nat) (x : Debt) (hj : gs[j]? = some x) (ho : x.op = true) : j = i := h.one j i x g hj hg ho hop
    have hset' : ∀ (j : Nat) (x : Debt), (gs.set i (after a r g))[j]? = some x → x.op = true → j = i :=
      each_set hone (fun _ => rfl) fun _ _ _ hx => hx
    refine ⟨ring', gs.set i (after a r g), ?_, hgood hstep.good, ?_, fun p q x y hx hy hxo hyo => ?_, fun hb => hkeep (hstep.free hb)⟩
    · show Owes _ _ _ _ (s'.threads.set i (k r)) _
      rw [hstep.threads]
      exact hset (hown.2 r hmay)
    · exact each_set (fun j x hj => ⟨h.has j x hj, hone j x hj⟩) (hrest hstep.own) fun j x hj hx => hrest (hothers j x hj hx)
    · exact (hset' p x hx hxo).trans (hset' q y hy hyo).symm
  | false =>
    obtain ⟨ring', hstep, hmay⟩ := hand_step h.good hh hop hown.1 hp
    have hothers (j : Nat) (x : Debt) (hj : j ≠ i) (hx : Has c s ring j x) : Has c s' ring' j x :=
      hx.other (fun ho => ⟨hstep.busy.trans (hx.op ho).1, hstep.knows (hx.op ho).2⟩) (fun sub => hstep.hands j sub hj)
        (hstep.releasing j hj)
    have hold : ∀ (j : Nat) (x : Debt), (gs.set i (after a r g))[j]? = some x → x.op = true → gs[j]? = some x :=
      each_set (H := fun j x => gs[j]? = some x) (fun _ _ hj => hj) (fun ho => absurd (hstep.op.symm.trans ho) Bool.false_ne_true)
        fun _ _ _ hj _ => hj
    refine ⟨ring', gs.set i (after a r g), ?_, hgood hstep.good, ?_, fun p q x y hx hy hxo hyo => ?_, fun hb => ?_⟩
    · show Owes _ _ _ _ (s'.threads.set i (k r)) _
      rw [hstep.threads]
      exact hset (hown.2 r hmay)
    · exact each_set h.has (hrest hstep.own) fun j x hj hx => hrest (hothers j x hj hx)
    · exact h.one p q x y (hold p x hx hxo) (hold q y hy hyo) hxo hyo
    · exact hkeep (hstep.knows (h.free (hstep.busy.symm.trans hb)))

theorem Holds.finished (h : Holds c s ring gs) {n : Nat} {sub : Sub} (hn : s.device[n]? = some sub) :
    Inv c { s with device := s.device.eraseIdx n, used := s.used ++ [sub] } := by
  have hperm : (State.out { s with device := s.device.eraseIdx n, used := s.used ++ [sub] }).Perm s.out := by
    obtain ⟨hlt, rfl⟩ := List.getElem?_eq_some_iff.1 hn
    unfold State.out
    refine .append_left _ ?_
    have hdevice : (s.device[n] :: s.device.eraseIdx n).Perm s.device := getElem_cons_eraseIdx_perm hlt
    refine .trans ?_ (hdevice.append_right _)
    rw [append_assoc, singleton_append]
    exact (perm_middle.append_left _).trans perm_middle
  have hkeep {k : Know} (hk : Knows c s ring k) : Knows c { s with device := s.device.eraseIdx n, used := s.used ++ [sub] } ring k :=
    hk.keep rfl id rfl rfl rfl rfl rfl (fun x hx => (hperm.append_left ring).mem_iff.1 hx) (fun _ h => h) fun _ h => .inl h
  exact ⟨ring, gs, h.owes, h.good.same hperm rfl rfl rfl rfl rfl ⟨rfl, rfl⟩ ⟨rfl, rfl⟩ rfl rfl rfl h.good.running,
    fun j x hx => (h.has j x hx).other (fun ho => ⟨((h.has j x hx).op ho).1, hkeep ((h.has j x hx).op ho).2⟩) (fun _ h => h) id,
    h.one, fun hb => hkeep (h.free hb)⟩

/-- **Every step.** -/
theorem Inv.step (c : Config) (s : State) (e : Event) (s' : State) (h : Inv c s) (hfine : Fine s e) (hs : s.step c e = some s') :
    Inv c s' := by
  obtain ⟨ring, gs, h⟩ := h
  cases e with
  | bufferExchange =>
    obtain ⟨hb, hs⟩ := Option.ite_none_right_eq_some.1 hs
    cases hs
    exact h.begins bufferExchange_owing fun _ => ⟨hb, rfl⟩
  | stop =>
    obtain ⟨hb, hs⟩ := Option.ite_none_right_eq_some.1 hs
    cases hs
    exact h.begins stop_owing fun _ => ⟨hb, rfl⟩
  | act i ch =>
    unfold State.step at hs
    unfold Fine at hfine
    dsimp only at hs hfine
    split at hs
    · next a k hi =>
      rw [hi] at hfine
      obtain ⟨⟨t, r⟩, hp, rfl⟩ := Option.map_eq_some_iff.1 hs
      exact h.acts hi hfine hp
    · cases hs
  | finished n =>
    unfold State.step at hs
    dsimp only at hs
    split at hs
    · next sub hn =>
      cases hs
      exact h.finished hn
    · cases hs
  | callback rounds =>
    cases hs
    exact h.begins (txCallback_owing rounds) fun hop => absurd hop Bool.false_ne_true

theorem good_none : Good c {} [] where
  nodup := nodup_nil
  bound := fun _ hs => absurd hs not_mem_nil
  session := fun _ hs => absurd hs not_mem_nil
  gen := nofun
  genOf := fun _ hi => absurd rfl hi
  generation := fun hs => absurd rfl hs
  flight := nofun
  ringOf := nofun
  slots := nofun
  head := rfl
  ids := fun _ hs => absurd hs not_mem_nil
  countedIds := nofun
  counted := nofun
  once := nodup_nil
  handed := nofun
  handedOnce := nodup_nil
  running := nofun
  begun := nofun

theorem knows_none : Knows c {} [] .nothing where
  pending := rfl
  counts := fun hl => absurd hl Bool.false_ne_true
  facts := fun _ hi => nomatch hi

theorem inv_none : Inv c {} :=
  ⟨[], [], .nil, good_none, (fun _ _ hg => nomatch hg), (fun _ _ _ _ hg => nomatch hg), fun _ => knows_none⟩

/-- **Sessions do not leak into each other**, whatever the order of calls, device and bus, where a session begins with nothing left
of the last one's completions and no buffer is submitted that the device still has. -/
theorem sessions_kept {es : List Event} (hr : Runs.run (State.step c) {} es = some s) (hf : Runs.Along (State.step c) Fine {} es) :
    Kept s := by
  obtain ⟨ring, gs, h⟩ := Runs.run_inv (Inv.step c) inv_none hf hr
  refine ⟨h.good.flight, h.good.counted, h.good.once, fun x hx => ?_, h.good.handedOnce⟩
  obtain ⟨hheld, sub, hsub, hsession, hindex, -⟩ := h.good.handed x hx
  exact ⟨hheld, sub, hsub, hsession, hindex⟩

end

def twoBuffers : Config where
  bufferCount := 2
  frames := 1024
  rateHz := 48000
  bufferCount_le := by decide

/-- The first call of a session, until it waits; a callback for the oldest buffer, if it is thread `i`. -/
def begins (i : Nat) : List Event := .bufferExchange :: List.replicate 15 (.act i {})

def comesBack (i : Nat) : List Event := [.finished 0, .callback 1, .act i {}, .act i {}, .act i {}]

def inVain (i : Nat) : List Event := [.act i ⟨false, 0⟩, .act i {}]

def takes (i : Nat) : List Event := List.replicate 5 (.act i {})

/-- `snd_pcm_stop`. -/
def stops (i : Nat) : List Event := .stop :: List.replicate 9 (.act i {})

/-- Two sessions; the buffers of the first come back before the second, one in the session and one after it. -/
def twoSessions : List Event :=
  begins 0 ++ comesBack 1 ++ takes 0 ++ stops 2 ++ [.finished 0, .callback 1, .act 3 {}, .act 3 {}] ++ begins 4 ++ comesBack 5 ++ takes 4

theorem twoSessions_runs : (Runs.run (State.step twoBuffers) {} twoSessions).isSome = true := by decide

theorem twoSessions_kept : Kept ((Runs.run (State.step twoBuffers) {} twoSessions).get twoSessions_runs) :=
  sessions_kept (Option.some_get twoSessions_runs).symm (by decide +kernel)

/-- The device keeps both buffers at the end of the first session, and returns the older one in the second. -/
def lateReturn : List Event := begins 0 ++ inVain 0 ++ stops 1 ++ begins 2 ++ comesBack 3 ++ takes 2

/-- **A buffer of the last session counts for this one**, and is handed to the mixer while the device has it. -/
theorem late_return_counts : ∃ s, Runs.run (State.step twoBuffers) {} lateReturn = some s ∧ ¬ Kept s ∧
    s.handed = [⟨2, 0, some ⟨0, 0, 1⟩, true⟩] := by
  have hrun : (Runs.run (State.step twoBuffers) {} lateReturn).map (fun s => s.handed) = some [⟨2, 0, some ⟨0, 0, 1⟩, true⟩] := by
    decide
  obtain ⟨s, hr, hs⟩ := Option.map_eq_some_iff.1 hrun
  refine ⟨s, hr, fun h => ?_, hs⟩
  have := (h.handed ⟨2, 0, some ⟨0, 0, 1⟩, true⟩ (by rw [hs]; exact mem_singleton.2 rfl)).1
  exact nomatch this

end Sound
end Prose
