import Mathlib.Data.Fin.VecNotation
import Mathlib.Data.List.Induction
import Mathlib.Logic.Function.Basic
import Mathlib.Tactic.Linarith
/-!
# ChipEnvelope — the envelopes of the synthesiser

The envelope of each voice of `chip.swift`: the registers that shape it, its gate, and its samples.  The other registers and the
filter neither read it nor change it.
-/
namespace Prose
namespace Synth

def kChipSampleRate : Int := 48000

inductive Env
  | idle
  | attack
  | decay
  | sustain
  | release
  deriving DecidableEq

/-- The top of an envelope, `255 << 16`. -/
def full : Int := 255 * 65536

def kAttackMS : Fin 16 → Int := ![2, 8, 16, 24, 38, 56, 68, 80, 100, 250, 500, 800, 1000, 3000, 5000, 8000]

def rateIncrement (ms : Int) : Int :=
  let samples := ms * kChipSampleRate / 1000
  if samples < 1 then full else max 1 (full / samples)

structure Voice where
  gate : Bool := false
  aInc : Int := 0
  dInc : Int := 0
  rInc : Int := 0
  sus : Int := 0
  env : Int := 0
  phase : Env := .idle

/-- `x & 15`. -/
def nibble (x : Int) : Fin 16 := ⟨(x % 16).toNat, by omega⟩

namespace Voice

def setADSR (v : Voice) (a d s r : Int) : Voice :=
  { v with
    aInc := rateIncrement (kAttackMS (nibble a))
    dInc := rateIncrement (kAttackMS (nibble d) * 3)
    sus := (nibble s).val * 17
    rInc := rateIncrement (kAttackMS (nibble r) * 3) }

def setSustain (v : Voice) (level : Int) : Voice := { v with sus := max 0 (min 255 level) }

def gateOn (v : Voice) : Voice := { v with gate := true, phase := .attack }

def gateOff (v : Voice) : Voice := { v with gate := false, phase := .release }

def divisor (level : Int) : Int :=
  if level ≤ 6 then 30
  else if level ≤ 14 then 16
  else if level ≤ 26 then 8
  else if level ≤ 54 then 4
  else if level ≤ 93 then 2
  else 1

def advanceEnvelope (v : Voice) : Int × Voice :=
  match v.phase with
  | .idle    => (0, v)
  | .attack  =>
    let env := v.env + v.aInc
    if full ≤ env then (full / 65536, { v with env := full, phase := .decay }) else (env / 65536, { v with env })
  | .decay   =>
    let env := v.env - v.dInc / divisor (v.env / 65536)
    if env ≤ v.sus * 65536 then (v.sus, { v with env := v.sus * 65536, phase := .sustain }) else (env / 65536, { v with env })
  | .sustain => (v.env / 65536, v)
  | .release =>
    let env := v.env - v.rInc / divisor (v.env / 65536)
    if env ≤ 0 then (0, { v with env := 0, phase := .idle }) else (env / 65536, { v with env })

end Voice

abbrev Chip := Fin 3 → Voice

inductive Event
  | setADSR (v : Fin 3) (a d s r : Int)
  | setSustain (v : Fin 3) (level : Int)
  | gateOn (v : Fin 3)
  | gateOff (v : Fin 3)
  | sample
  deriving DecidableEq

def Chip.init : Chip := fun _ => Voice.setADSR {} 0 9 0 9

def Chip.step (c : Chip) : Event → Chip
  | .setADSR v a d s r  => Function.update c v ((c v).setADSR a d s r)
  | .setSustain v level => Function.update c v ((c v).setSustain level)
  | .gateOn v           => Function.update c v (c v).gateOn
  | .gateOff v          => Function.update c v (c v).gateOff
  | .sample             => fun v => (c v).advanceEnvelope.2

def after (es : List Event) : Chip := es.foldl Chip.step Chip.init

@[simp] theorem after_snoc (es : List Event) (e : Event) : after (es ++ [e]) = (after es).step e := by
  unfold after
  rw [List.foldl_append]
  rfl

/-! ## One voice of a step -/

def Voice.step (n : Fin 3) (v : Voice) : Event → Voice
  | .setADSR k a d s r  => if n = k then v.setADSR a d s r else v
  | .setSustain k level => if n = k then v.setSustain level else v
  | .gateOn k           => if n = k then v.gateOn else v
  | .gateOff k          => if n = k then v.gateOff else v
  | .sample             => v.advanceEnvelope.2

theorem step_apply (c : Chip) (e : Event) (n : Fin 3) : c.step e n = (c n).step n e := by
  cases e with
  | sample => rfl
  | setADSR k _ _ _ _ | setSustain k _ | gateOn k | gateOff k =>
    unfold Chip.step Voice.step
    dsimp only
    rw [Function.update_apply]
    split
    · rename_i h
      rw [h]
    · rfl

/-! ## The invariant -/

structure Voice.Ok (v : Voice) : Prop where
  aInc : 1 ≤ v.aInc
  dInc : 1 ≤ v.dInc
  rInc : 1 ≤ v.rInc
  sus : 0 ≤ v.sus ∧ v.sus ≤ 255
  env : 0 ≤ v.env ∧ v.env ≤ full
  idle : v.phase = .idle → v.env = 0
  gate : v.gate = false → v.phase = .idle ∨ v.phase = .release

theorem one_le_rateIncrement (ms : Int) : 1 ≤ rateIncrement ms := by
  unfold rateIncrement
  dsimp only
  split
  · decide
  · exact le_max_left _ _

namespace Voice

variable {v : Voice}

theorem ok_setADSR (henv : 0 ≤ v.env ∧ v.env ≤ full) (hidle : v.phase = .idle → v.env = 0)
    (hgate : v.gate = false → v.phase = .idle ∨ v.phase = .release) (a d s r : Int) : (v.setADSR a d s r).Ok where
  aInc := one_le_rateIncrement _
  dInc := one_le_rateIncrement _
  rInc := one_le_rateIncrement _
  sus := by
    have := (nibble s).isLt
    show 0 ≤ ((nibble s).val : Int) * 17 ∧ ((nibble s).val : Int) * 17 ≤ 255
    omega
  env := henv
  idle := hidle
  gate := hgate

theorem Ok.setSustain (h : v.Ok) (level : Int) : (v.setSustain level).Ok where
  aInc := h.aInc
  dInc := h.dInc
  rInc := h.rInc
  sus := by
    show 0 ≤ max 0 (min 255 level) ∧ max 0 (min 255 level) ≤ 255
    omega
  env := h.env
  idle := h.idle
  gate := h.gate

theorem Ok.gateOn (h : v.Ok) : v.gateOn.Ok :=
  ⟨h.aInc, h.dInc, h.rInc, h.sus, h.env, fun hp => (nomatch hp), fun hg => (nomatch hg)⟩

theorem Ok.gateOff (h : v.Ok) : v.gateOff.Ok :=
  ⟨h.aInc, h.dInc, h.rInc, h.sus, h.env, fun hp => (nomatch hp), fun _ => Or.inr rfl⟩

theorem divisor_cases (level : Int) : level ≤ 6 ∧ divisor level = 30 ∨ 6 < level ∧ level ≤ 14 ∧ divisor level = 16 ∨
    14 < level ∧ (divisor level = 8 ∨ divisor level = 4 ∨ divisor level = 2 ∨ divisor level = 1) := by
  unfold divisor
  split_ifs <;> omega

theorem stepDown_bounds (x level : Int) (hx : 0 ≤ x) : 0 ≤ x / divisor level ∧ x / divisor level ≤ x := by
  rcases divisor_cases level with ⟨-, hd⟩ | ⟨-, -, hd⟩ | ⟨-, hd | hd | hd | hd⟩ <;> rw [hd] <;> omega

theorem Ok.gated (h : v.Ok) (hp : v.phase ≠ .idle) (hp' : v.phase ≠ .release) : ¬ v.gate = false := fun hg =>
  (h.gate hg).elim hp hp'

theorem Ok.goes (h : v.Ok) {env : Int} {phase : Env} (henv : 0 ≤ env ∧ env ≤ full) (hidle : phase = .idle → env = 0)
    (hgate : v.gate = false → phase = .idle ∨ phase = .release) : Ok { v with env, phase } :=
  ⟨h.aInc, h.dInc, h.rInc, h.sus, henv, hidle, hgate⟩

theorem Ok.advance (h : v.Ok) : v.advanceEnvelope.2.Ok := by
  have henv := h.env
  have hsus := h.sus
  have hfull : full = 16711680 := rfl
  unfold advanceEnvelope
  split
  · exact h
  · rename_i hp
    have hgate := h.gated (by rw [hp]; decide) (by rw [hp]; decide)
    have hinc := h.aInc
    dsimp only
    split
    · exact h.goes ⟨by omega, le_rfl⟩ (fun hi => nomatch hi) (fun hg => absurd hg hgate)
    · exact h.goes ⟨by omega, by omega⟩ (fun hi => nomatch hp.symm.trans hi) (fun hg => absurd hg hgate)
  · rename_i hp
    have hgate := h.gated (by rw [hp]; decide) (by rw [hp]; decide)
    have hdown := stepDown_bounds v.dInc (v.env / 65536) (by linarith [h.dInc])
    dsimp only
    split
    · exact h.goes ⟨by omega, by omega⟩ (fun hi => nomatch hi) (fun hg => absurd hg hgate)
    · exact h.goes ⟨by omega, by omega⟩ (fun hi => nomatch hp.symm.trans hi) (fun hg => absurd hg hgate)
  · exact h
  · rename_i hp
    have hdown := stepDown_bounds v.rInc (v.env / 65536) (by linarith [h.rInc])
    dsimp only
    split
    · exact h.goes ⟨le_rfl, by omega⟩ (fun _ => rfl) (fun _ => Or.inl rfl)
    · exact h.goes ⟨by omega, by omega⟩ (fun hi => nomatch hp.symm.trans hi) (fun _ => Or.inr hp)

theorem Ok.step (h : v.Ok) (n : Fin 3) (e : Event) : (v.step n e).Ok := by
  unfold Voice.step
  cases e with
  | sample => exact h.advance
  | setADSR k a d s r =>
    dsimp only
    split
    · exact ok_setADSR h.env h.idle h.gate a d s r
    · exact h
  | setSustain k level =>
    dsimp only
    split
    · exact h.setSustain level
    · exact h
  | gateOn k =>
    dsimp only
    split
    · exact h.gateOn
    · exact h
  | gateOff k =>
    dsimp only
    split
    · exact h.gateOff
    · exact h

end Voice

theorem init_ok (n : Fin 3) : (Chip.init n).Ok :=
  Voice.ok_setADSR ⟨le_rfl, show (0 : Int) ≤ full by decide⟩ (fun _ => rfl) (fun _ => Or.inl rfl) 0 9 0 9

theorem after_ok (es : List Event) (n : Fin 3) : (after es n).Ok := by
  induction es using List.reverseRecOn with
  | nil => exact init_ok n
  | append_singleton es e ih =>
    rw [after_snoc, step_apply]
    exact ih.step n e

/-! ## The sustain level -/

namespace Voice

def AtLevel (v : Voice) : Prop := v.phase = .sustain → v.env = v.sus * 65536

def Steady (n : Fin 3) (v : Voice) : Event → Prop
  | .setADSR k _ _ s _  => n = k → v.phase = .sustain → ((nibble s).val : Int) * 17 = v.sus
  | .setSustain k level => n = k → v.phase = .sustain → max 0 (min 255 level) = v.sus
  | _                   => True

theorem atLevel_sus {v w : Voice} (h : v.AtLevel) (hphase : w.phase = v.phase) (henv : w.env = v.env) :
    w.AtLevel ↔ (v.phase = .sustain → w.sus = v.sus) := by
  unfold AtLevel at h ⊢
  rw [hphase, henv]
  constructor
  · intro hw hp
    have h1 := h hp
    have h2 := hw hp
    omega
  · intro hw hp
    rw [hw hp, h hp]

theorem AtLevel.advance {v : Voice} (h : v.AtLevel) : v.advanceEnvelope.2.AtLevel := by
  intro hp
  unfold advanceEnvelope at hp ⊢
  split at hp
  · exact h hp
  · rename_i ha
    dsimp only at hp ⊢
    split at hp
    · exact nomatch hp
    · exact nomatch ha.symm.trans hp
  · rename_i ha
    dsimp only at hp ⊢
    split at hp
    · rename_i hle
      rw [if_pos hle]
    · exact nomatch ha.symm.trans hp
  · exact h hp
  · rename_i ha
    dsimp only at hp ⊢
    split at hp
    · exact nomatch hp
    · exact nomatch ha.symm.trans hp

/-- **One event keeps a voice at its level exactly if it is steady.** -/
theorem AtLevel.step_iff {v : Voice} (h : v.AtLevel) (n : Fin 3) (e : Event) : (v.step n e).AtLevel ↔ v.Steady n e := by
  unfold Voice.step
  cases e with
  | sample => exact iff_of_true h.advance trivial
  | setADSR k a d s r =>
    dsimp only
    split
    · rename_i hk
      exact (atLevel_sus (w := v.setADSR a d s r) h rfl rfl).trans ⟨fun hs _ => hs, fun hs => hs hk⟩
    · rename_i hk
      exact iff_of_true h (fun hk' => absurd hk' hk)
  | setSustain k level =>
    dsimp only
    split
    · rename_i hk
      exact (atLevel_sus (w := v.setSustain level) h rfl rfl).trans ⟨fun hs _ => hs, fun hs => hs hk⟩
    · rename_i hk
      exact iff_of_true h (fun hk' => absurd hk' hk)
  | gateOn k =>
    dsimp only
    split
    · exact iff_of_true (fun hp => nomatch hp) trivial
    · exact iff_of_true h trivial
  | gateOff k =>
    dsimp only
    split
    · exact iff_of_true (fun hp => nomatch hp) trivial
    · exact iff_of_true h trivial

end Voice

/-- **A voice is at its sustain level wherever a run comes to, exactly if every event on the way is steady.** -/
theorem atLevel_iff (es : List Event) (n : Fin 3) : (∀ pre post, es = pre ++ post → (after pre n).AtLevel) ↔
    ∀ pre e post, es = pre ++ e :: post → (after pre n).Steady n e := by
  constructor
  · intro h pre e post he
    have hnext := h (pre ++ [e]) post (by rw [he, List.append_assoc]; rfl)
    rw [after_snoc, step_apply] at hnext
    exact ((h pre (e :: post) he).step_iff n e).1 hnext
  · intro h pre
    induction pre using List.reverseRecOn with
    | nil => exact fun _ _ hp => nomatch (show Env.idle = Env.sustain from hp)
    | append_singleton pre e ih =>
      intro post he
      rw [List.append_assoc] at he
      rw [after_snoc, step_apply]
      exact ((ih (e :: post) he).step_iff n e).2 (h pre e post he)

/-! ## The release -/

def releaseOf (n : Fin 3) (es : List Event) : Int :=
  es.foldl (fun r e =>
    match e with
    | .setADSR k _ _ _ r' => if n = k then r' else r
    | _                   => r) 9

theorem releaseOf_snoc (n : Fin 3) (es : List Event) (e : Event) : releaseOf n (es ++ [e]) =
    match e with
    | .setADSR k _ _ _ r' => if n = k then r' else releaseOf n es
    | _                   => releaseOf n es := by
  unfold releaseOf
  rw [List.foldl_append]
  rfl

theorem rInc_advance (v : Voice) : v.advanceEnvelope.2.rInc = v.rInc := by
  unfold Voice.advanceEnvelope
  split
  · rfl
  · dsimp only
    split <;> rfl
  · dsimp only
    split <;> rfl
  · rfl
  · dsimp only
    split <;> rfl

theorem rInc_after (n : Fin 3) (es : List Event) :
    (after es n).rInc = rateIncrement (kAttackMS (nibble (releaseOf n es)) * 3) := by
  induction es using List.reverseRecOn with
  | nil => rfl
  | append_singleton es e ih =>
    rw [after_snoc, step_apply, releaseOf_snoc]
    unfold Voice.step
    cases e with
    | sample => exact (rInc_advance _).trans ih
    | setADSR k a d s r =>
      dsimp only
      split
      · rfl
      · exact ih
    | setSustain k level | gateOn k | gateOff k =>
      dsimp only
      split <;> exact ih

theorem rateIncrement_release (k : Fin 16) : 30 ≤ rateIncrement (kAttackMS k * 3) ↔ k.val ≤ 13 := by
  revert k
  decide

theorem rInc_fast_iff (n : Fin 3) (es : List Event) : 30 ≤ (after es n).rInc ↔ releaseOf n es % 16 ≤ 13 := by
  rw [rInc_after, rateIncrement_release]
  show (releaseOf n es % 16).toNat ≤ 13 ↔ releaseOf n es % 16 ≤ 13
  omega

/-- How many samples behind `es` are taken at a release value up to 13. -/
def fastSamples (n : Fin 3) (es : List Event) : List Event → Nat
  | []       => 0
  | e :: es' => (if e = .sample ∧ releaseOf n es % 16 ≤ 13 then 1 else 0) + fastSamples n (es ++ [e]) es'

def BecomesIdle (n : Fin 3) (es es' : List Event) : Prop := ∃ pre post, es' = pre ++ post ∧ (after (es ++ pre) n).phase = .idle

theorem becomesIdle_cons {n : Fin 3} {es es' : List Event} {e : Event} (h : BecomesIdle n (es ++ [e]) es') :
    BecomesIdle n es (e :: es') := by
  obtain ⟨pre, post, rfl, hp⟩ := h
  exact ⟨e :: pre, post, rfl, by rw [List.append_assoc] at hp; exact hp⟩

/-- A released voice after one more event: idle, or released and no higher; at a release value up to 13 a sample is lower. -/
theorem release_step {v : Voice} (h : v.Ok) (hp : v.phase = .release) {n : Fin 3} {e : Event} (he : e ≠ .gateOn n) :
    (v.step n e).phase = .idle ∨ (v.step n e).phase = .release ∧ (v.step n e).env ≤ v.env ∧
      (e = .sample → 0 < (v.step n e).env ∧ (30 ≤ v.rInc → (v.step n e).env < v.env)) := by
  unfold Voice.step
  cases e with
  | sample =>
    have hdown := Voice.stepDown_bounds v.rInc (v.env / 65536) (by linarith [h.rInc])
    have hfast : 30 ≤ v.rInc → 1 ≤ v.rInc / Voice.divisor (v.env / 65536) := by
      rcases Voice.divisor_cases (v.env / 65536) with ⟨-, hd⟩ | ⟨-, -, hd⟩ | ⟨-, hd | hd | hd | hd⟩ <;> rw [hd] <;> omega
    unfold Voice.advanceEnvelope
    rw [hp]
    dsimp only
    split
    · exact Or.inl rfl
    refine Or.inr ⟨rfl, by dsimp only; omega, fun _ => ⟨by dsimp only; omega, fun hf => ?_⟩⟩
    have := hfast hf
    dsimp only
    omega
  | setADSR k a d s r =>
    refine Or.inr ?_
    dsimp only
    split <;> exact ⟨hp, le_rfl, fun hs => nomatch hs⟩
  | setSustain k level =>
    refine Or.inr ?_
    dsimp only
    split <;> exact ⟨hp, le_rfl, fun hs => nomatch hs⟩
  | gateOn k =>
    dsimp only
    rw [if_neg (fun hk => he (by rw [hk]))]
    exact Or.inr ⟨hp, le_rfl, fun hs => nomatch hs⟩
  | gateOff k =>
    refine Or.inr ?_
    dsimp only
    split
    · exact ⟨rfl, le_rfl, fun hs => nomatch hs⟩
    · exact ⟨hp, le_rfl, fun hs => nomatch hs⟩

theorem becomesIdle_of_level {n : Fin 3} : ∀ {es' es : List Event}, (after es n).phase = .release →
    (∀ e ∈ es', e ≠ .gateOn n) → 0 < fastSamples n es es' → (after es n).env ≤ fastSamples n es es' → BecomesIdle n es es'
  | [], _, _, _, hpos, _ => absurd hpos (lt_irrefl 0)
  | e :: es', es, hp, he, hpos, hle => by
    have hok := after_ok es n
    have hfast := rInc_fast_iff n es
    have hzero := (after_ok (es ++ [e]) n).env.1
    refine becomesIdle_cons ?_
    rcases release_step hok hp (he e List.mem_cons_self) with hidle | ⟨hp', henv, hlow⟩
    · exact ⟨[], es', rfl, by rw [List.append_nil, after_snoc, step_apply]; exact hidle⟩
    rw [← step_apply, ← after_snoc] at hp' henv hlow
    have hrest := fun x hx => he x (List.mem_cons_of_mem e hx)
    by_cases hs : e = .sample ∧ releaseOf n es % 16 ≤ 13
    · have hk : fastSamples n es (e :: es') = 1 + fastSamples n (es ++ [e]) es' := by
        rw [fastSamples, if_pos hs]
      obtain ⟨hpos', hless⟩ := hlow hs.1
      have := hless (hfast.2 hs.2)
      exact becomesIdle_of_level hp' hrest (by omega) (by omega)
    · have hk : fastSamples n es (e :: es') = 0 + fastSamples n (es ++ [e]) es' := by
        rw [fastSamples, if_neg hs]
      exact becomesIdle_of_level hp' hrest (by omega) (by omega)

theorem becomesIdle_of_zero {n : Fin 3} : ∀ {es' es : List Event}, (after es n).phase = .release → (after es n).env ≤ 0 →
    (∀ e ∈ es', e ≠ .gateOn n) → .sample ∈ es' → BecomesIdle n es es'
  | [], _, _, _, _, hs => absurd hs List.not_mem_nil
  | e :: es', es, hp, hzero, he, hs => by
    refine becomesIdle_cons ?_
    rcases release_step (after_ok es n) hp (he e List.mem_cons_self) with hidle | ⟨hp', henv, hlow⟩
    · exact ⟨[], es', rfl, by rw [List.append_nil, after_snoc, step_apply]; exact hidle⟩
    rw [← step_apply, ← after_snoc] at hp' henv hlow
    have hne : .sample ≠ e := fun h => by
      have := (hlow h.symm).1
      omega
    exact becomesIdle_of_zero hp' (by omega) (fun x hx => he x (List.mem_cons_of_mem e hx)) (List.mem_of_ne_of_mem hne hs)

/-- The event neither turns the gate on nor shapes the envelope anew. -/
def Quiet (n : Fin 3) (e : Event) : Prop := e ≠ .gateOn n ∧ ∀ a d s r, e ≠ .setADSR n a d s r

def Stuck (v : Voice) : Prop := v.phase = .release ∧ 1 ≤ v.env ∧ 0 ≤ v.rInc ∧ v.rInc < 30

theorem Stuck.step {v : Voice} (h : Stuck v) {n : Fin 3} {e : Event} (he : Quiet n e) : Stuck (v.step n e) := by
  obtain ⟨hp, henv, hinc, hslow⟩ := h
  unfold Voice.step
  cases e with
  | sample =>
    -- the last levels divide the rate to nothing, and no step from above jumps them
    have hdown : v.rInc / Voice.divisor (v.env / 65536) < v.env := by
      rcases Voice.divisor_cases (v.env / 65536) with ⟨-, hd⟩ | ⟨hl, -, hd⟩ | ⟨hl, hd | hd | hd | hd⟩ <;> rw [hd] <;> omega
    unfold Voice.advanceEnvelope
    rw [hp]
    dsimp only
    rw [if_neg (by omega)]
    exact ⟨rfl, by dsimp only; omega, hinc, hslow⟩
  | setADSR k a d s r =>
    dsimp only
    rw [if_neg (fun hk => he.2 a d s r (by rw [hk]))]
    exact ⟨hp, henv, hinc, hslow⟩
  | setSustain k level =>
    dsimp only
    split <;> exact ⟨hp, henv, hinc, hslow⟩
  | gateOn k =>
    dsimp only
    rw [if_neg (fun hk => he.1 (by rw [hk]))]
    exact ⟨hp, henv, hinc, hslow⟩
  | gateOff k =>
    dsimp only
    split
    · exact ⟨rfl, henv, hinc, hslow⟩
    · exact ⟨hp, henv, hinc, hslow⟩

theorem Stuck.run {n : Fin 3} {es : List Event} (h : Stuck (after es n)) (es' : List Event) (he : ∀ e ∈ es', Quiet n e) :
    Stuck (after (es ++ es') n) := by
  induction es' using List.reverseRecOn with
  | nil =>
    rw [List.append_nil]
    exact h
  | append_singleton es' e ih =>
    rw [← List.append_assoc, after_snoc, step_apply]
    exact (ih (fun x hx => he x (List.mem_append_left _ hx))).step (he e (List.mem_append_right _ List.mem_cons_self))

theorem fastSamples_quiet {n : Fin 3} : ∀ {es' es : List Event}, (∀ e ∈ es', Quiet n e) → releaseOf n es % 16 ≤ 13 →
    fastSamples n es es' = es'.count .sample
  | [], _, _, _ => rfl
  | e :: es', es, he, hr => by
    have hsame : releaseOf n (es ++ [e]) = releaseOf n es := by
      rw [releaseOf_snoc]
      split
      · rename_i k a d s r
        exact if_neg (fun hk => (he _ List.mem_cons_self).2 a d s r (by rw [hk]))
      · rfl
    rw [fastSamples, fastSamples_quiet (fun x hx => he x (List.mem_cons_of_mem e hx)) (by rw [hsame]; exact hr), List.count_cons,
      Nat.add_comm]
    by_cases hs : e = .sample
    · rw [if_pos ⟨hs, hr⟩, hs]
      rfl
    · rw [if_neg (fun h => hs h.1), if_neg (by simpa using hs)]

theorem released {es : List Event} {n : Fin 3} (hg : (after es n).gate = false) {es' : List Event}
    (h : (after es n).phase = .release → BecomesIdle n es es') : BecomesIdle n es es' := by
  rcases (after_ok es n).gate hg with hidle | hp
  · exact ⟨[], es', rfl, by rw [List.append_nil]; exact hidle⟩
  · exact h hp

theorem finitely_iff {es : List Event} {n : Fin 3} (hg : (after es n).gate = false) :
    (∃ N, ∀ es', (∀ e ∈ es', Quiet n e) → N ≤ es'.count .sample → BecomesIdle n es es') ↔
      releaseOf n es % 16 ≤ 13 ∨ (after es n).env = 0 := by
  have hok := after_ok es n
  constructor
  · rintro ⟨N, hN⟩
    by_contra hcon
    obtain ⟨hslow, hzero⟩ := not_or.1 hcon
    have hinc := mt (rInc_fast_iff n es).1 hslow
    have hstuck : Stuck (after es n) := by
      refine ⟨(hok.gate hg).resolve_left (fun hi => hzero (hok.idle hi)), ?_, by linarith [hok.rInc], by omega⟩
      have := hok.env.1
      omega
    have hquiet : ∀ e ∈ List.replicate N Event.sample, Quiet n e := fun e he => by
      rw [List.eq_of_mem_replicate he]
      exact ⟨fun h => (nomatch h), fun _ _ _ _ h => (nomatch h)⟩
    obtain ⟨pre, post, he, hidle⟩ := hN _ hquiet (by rw [List.count_replicate_self])
    have := (hstuck.run pre (fun x hx => hquiet x (by rw [he]; exact List.mem_append_left _ hx))).1
    exact nomatch this.symm.trans hidle
  · rintro (hfast | hzero)
    · refine ⟨16711680, fun es' he hc => released hg (fun hp => ?_)⟩
      have hcount := fastSamples_quiet he hfast
      have henv : (after es n).env ≤ 16711680 := hok.env.2
      exact becomesIdle_of_level hp (fun e h => (he e h).1) (by omega) (by omega)
    · refine ⟨1, fun es' he hc => released hg (fun hp => ?_)⟩
      exact becomesIdle_of_zero hp (by omega) (fun e h => (he e h).1) (List.count_pos_iff.1 (by omega))

/-- **The envelope of every voice in every run.**  It stays between 0 and `255 << 16`.  Wherever the run comes to, the voice is at
its sustain level in its sustain phase, exactly if no event on the way gives it another level in that phase.  With its gate off
it becomes idle within `255 << 16` samples at release values up to 13; and with the release value it has, it becomes idle after
finitely many samples exactly if that value is at most 13, or the envelope is at zero. -/
theorem envelope_iff (es : List Event) (n : Fin 3) : (0 ≤ (after es n).env ∧ (after es n).env ≤ full) ∧
    ((∀ pre post, es = pre ++ post → (after pre n).AtLevel) ↔
      ∀ pre e post, es = pre ++ e :: post → (after pre n).Steady n e) ∧
    ((after es n).gate = false →
      (∀ es', (∀ e ∈ es', e ≠ .gateOn n) → full ≤ fastSamples n es es' → BecomesIdle n es es') ∧
      ((∃ N, ∀ es', (∀ e ∈ es', Quiet n e) → N ≤ es'.count .sample → BecomesIdle n es es') ↔
        releaseOf n es % 16 ≤ 13 ∨ (after es n).env = 0)) := by
  refine ⟨(after_ok es n).env, atLevel_iff es n, fun hg => ⟨fun es' he hc => released hg (fun hp => ?_), finitely_iff hg⟩⟩
  have hpos : 0 < full := by decide
  exact becomesIdle_of_level hp he (by omega) ((after_ok es n).env.2.trans hc)

def held : List Event := .setADSR 0 0 0 15 15 :: .gateOn 0 :: List.replicate 97 .sample

/-- A voice that is held does not follow its sustain level, and one that is let go at once never becomes idle. -/
theorem tremolo_not_followed : ¬ (after (held ++ [.setSustain 0 0]) 0).AtLevel ∧
    ¬ ∃ N, ∀ es', (∀ e ∈ es', Quiet 0 e) → N ≤ es'.count .sample →
      BecomesIdle 0 [.setADSR 0 0 0 15 15, .gateOn 0, .sample, .gateOff 0] es' := by
  refine ⟨fun h => ?_, ?_⟩
  · exact absurd (h (by decide +kernel)) (by decide +kernel)
  · rw [finitely_iff (by decide)]
    decide

end Synth
end Prose
