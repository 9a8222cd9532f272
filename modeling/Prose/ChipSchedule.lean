import Prose.ChipSteps
import Mathlib.Data.List.Sort
import Mathlib.Data.List.Enum
/-!
# ChipSchedule — a tune into steps

`tickToSample` and `schedule` of `abc.swift`: when they trap, and what the schedule of a tune is.
-/
namespace Prose
namespace Chip

open Trapping List

inductive StepKind
  | noteOn
  | noteOff
  | chip
  deriving DecidableEq

structure Step where
  sample : Int
  kind : StepKind
  voice : Int
  midi : Int
  velocity : Int
  param : Int := 0
  value : Int := 0
  deriving DecidableEq

def kChipSampleRate : Int := 48000

def Tune.ticksPerBeat (t : Tune) : Option Int := do
  let x ← mul kTicksPerWhole t.tempoNum
  let x ← quot x t.tempoDen
  some (max 1 x)

def tickToSample (tick bpm perBeat sampleRate : Int) : Option Int := do
  let denom ← mul bpm perBeat
  if denom ≤ 0 then some 0
  else do
    let x ← mul tick sampleRate
    let x ← mul x 60
    let x ← add x (denom.tdiv 2)
    quot x denom

def liftTick (n : Note) (perBeat : Int) : Option Int := do
  let offTick ← add n.tick n.duration
  let gap := min (n.duration.tdiv 20) (perBeat.tdiv 16)
  if 0 < gap ∧ gap < n.duration then sub offTick gap else some offTick

def chipStep (t : Tune) (perBeat sampleRate : Int) (c : ChipSet) : Option Step := do
  let sample ← tickToSample c.tick t.bpm perBeat sampleRate
  some { sample, kind := .chip, voice := c.voice, midi := 0, velocity := 0, param := c.param, value := c.value }

def noteSteps (t : Tune) (perBeat sampleRate : Int) (n : Note) : Option (Step × Step) := do
  let on ← tickToSample n.tick t.bpm perBeat sampleRate
  let offTick ← liftTick n perBeat
  let off ← tickToSample offTick t.bpm perBeat sampleRate
  let sample ← (if on < off then some off else add on 1)
  some ({ sample := on, kind := .noteOn, voice := n.voice, midi := n.midi, velocity := n.velocity },
    { sample, kind := .noteOff, voice := n.voice, midi := n.midi, velocity := 0 })

def order : StepKind → Nat
  | .chip    => 0
  | .noteOff => 1
  | .noteOn  => 2

/-- What the steps are sorted by; the place in the source is the last tie-break. -/
def before (a b : Step × Nat) : Bool :=
  if a.1.sample ≠ b.1.sample then a.1.sample < b.1.sample
  else if order a.1.kind ≠ order b.1.kind then order a.1.kind < order b.1.kind
  else a.2 < b.2

def ordered (steps : List Step) : List (Step × Nat) := steps.zipIdx.mergeSort (fun a b => !before b a)

def schedule (t : Tune) (sampleRate : Int) : Option (List Step) := do
  let perBeat ← t.ticksPerBeat
  let chips ← t.chips.mapM (chipStep t perBeat sampleRate)
  let notes ← t.notes.mapM (noteSteps t perBeat sampleRate)
  some ((ordered (chips ++ notes.flatMap (fun p => [p.1, p.2]))).map Prod.fst)

/-! ## Samples -/

def perBeatValue (t : Tune) : Int := max 1 ((1920 * t.tempoNum).tdiv t.tempoDen)

/-- The sample a tick comes to, `denom` ticks being a minute. -/
def sampleOf (denom sampleRate tick : Int) : Int :=
  if denom ≤ 0 then 0 else (tick * sampleRate * 60 + denom / 2) / denom

def SampleOk (denom sampleRate tick : Int) : Prop :=
  Fits denom ∧ (0 < denom → Fits (tick * sampleRate * 60 + denom / 2))

instance (denom sampleRate tick : Int) : Decidable (SampleOk denom sampleRate tick) :=
  inferInstanceAs (Decidable (_ ∧ (_ → _)))

theorem tickToSample_eq {tick bpm perBeat rate : Int} (ht : 0 ≤ tick) (hr : 0 ≤ rate) :
    tickToSample tick bpm perBeat rate = when (SampleOk (bpm * perBeat) rate tick) (sampleOf (bpm * perBeat) rate tick) := by
  unfold tickToSample sampleOf
  by_cases hd : Fits (bpm * perBeat)
  · rw [mul_eq_some.2 ⟨hd, rfl⟩]
    generalize bpm * perBeat = denom at hd
    show (if denom ≤ 0 then some 0 else _) = _
    by_cases hpos : denom ≤ 0
    · rw [if_pos hpos, if_pos hpos]
      exact (when_of ⟨hd, fun h => absurd h (by omega)⟩).symm
    rw [if_neg hpos, if_neg hpos]
    have h0 : 0 ≤ tick * rate := mul_nonneg ht hr
    have hhalf : denom.tdiv 2 = denom / 2 := Int.tdiv_eq_ediv_of_nonneg (by omega)
    refine eq_when (fun h => ?_) (fun h => ?_)
    · have hf := h.2 (by omega)
      have h1 : mul tick rate = some (tick * rate) := mul_eq_some.2 ⟨⟨by omega, by unfold Fits at hf; omega⟩, rfl⟩
      have h2 : mul (tick * rate) 60 = some (tick * rate * 60) :=
        mul_eq_some.2 ⟨⟨by omega, by unfold Fits at hf; omega⟩, rfl⟩
      have h3 : add (tick * rate * 60) (denom.tdiv 2) = some (tick * rate * 60 + denom / 2) :=
        add_eq_some.2 ⟨by rw [hhalf]; exact hf, by rw [hhalf]⟩
      rw [h1]
      show (mul (tick * rate) 60 >>= fun x => add x (denom.tdiv 2) >>= fun x => quot x denom) = _
      rw [h2]
      show (add (tick * rate * 60) (denom.tdiv 2) >>= fun x => quot x denom) = _
      rw [h3]
      show quot (tick * rate * 60 + denom / 2) denom = _
      rw [quot_of_pos hf (by omega), Int.tdiv_eq_ediv_of_nonneg (by omega)]
    · cases h1 : mul tick rate with
      | none => rfl
      | some x =>
        obtain ⟨-, rfl⟩ := mul_eq_some.1 h1
        show (mul (tick * rate) 60 >>= fun x => add x (denom.tdiv 2) >>= fun x => quot x denom) = _
        cases h2 : mul (tick * rate) 60 with
        | none => rfl
        | some x =>
          obtain ⟨-, rfl⟩ := mul_eq_some.1 h2
          show (add (tick * rate * 60) (denom.tdiv 2) >>= fun x => quot x denom) = _
          rw [show add (tick * rate * 60) (denom.tdiv 2) = none from
            if_neg (fun hf => h ⟨hd, fun _ => by rw [hhalf] at hf; exact hf⟩)]
          rfl
  · rw [show mul bpm perBeat = none from if_neg hd]
    exact (when_not (fun h => hd h.1)).symm

theorem sampleOf_mono {denom rate t t' : Int} (hr : 0 ≤ rate) (h : t ≤ t') :
    sampleOf denom rate t ≤ sampleOf denom rate t' := by
  unfold sampleOf
  split
  · exact le_rfl
  · have : t * rate ≤ t' * rate := mul_le_mul_of_nonneg_right h hr
    exact Int.ediv_le_ediv (by omega) (by omega)

theorem sampleOf_lt {denom rate t t' : Int} (hd : 0 < denom) (hr : denom ≤ 60 * rate) (h : t < t') :
    sampleOf denom rate t < sampleOf denom rate t' := by
  have hstep : t * rate * 60 + denom / 2 + denom ≤ t' * rate * 60 + denom / 2 := by
    have : (t + 1) * rate ≤ t' * rate := mul_le_mul_of_nonneg_right (by omega) (by omega)
    rw [add_mul, one_mul] at this
    omega
  unfold sampleOf
  rw [if_neg (by omega), if_neg (by omega)]
  calc (t * rate * 60 + denom / 2) / denom
      < (t * rate * 60 + denom / 2) / denom + 1 := Int.lt_succ _
    _ = (t * rate * 60 + denom / 2 + denom) / denom := (Int.add_ediv_of_dvd_right (dvd_refl _)).symm ▸ by
        rw [Int.ediv_self (by omega)]
    _ ≤ _ := Int.ediv_le_ediv hd hstep

theorem SampleOk.mono {denom rate t t' : Int} (h : SampleOk denom rate t') (ht : 0 ≤ t) (hr : 0 ≤ rate) (htt : t ≤ t') :
    SampleOk denom rate t := by
  refine ⟨h.1, fun hd => ?_⟩
  have hf := h.2 hd
  have h0 : 0 ≤ t * rate := mul_nonneg ht hr
  have h1 : t * rate ≤ t' * rate := mul_le_mul_of_nonneg_right htt hr
  unfold Fits at *
  omega

theorem SampleOk.succ {denom rate t : Int} (h : SampleOk denom rate t) (ht : 0 ≤ t) (hr : 0 ≤ rate) :
    Fits (sampleOf denom rate t + 1) := by
  unfold sampleOf
  split
  · decide
  rename_i hd
  have hf := h.2 (by omega)
  have h0 : 0 ≤ t * rate := mul_nonneg ht hr
  have hq0 : 0 ≤ (t * rate * 60 + denom / 2) / denom := Int.ediv_nonneg (by omega) (by omega)
  by_cases h1 : denom = 1
  · subst h1
    rw [Int.ediv_one]
    unfold Fits at *
    omega
  have hle : (t * rate * 60 + denom / 2) / denom * 2 ≤ t * rate * 60 + denom / 2 :=
    (mul_le_mul_of_nonneg_left (by omega) hq0).trans (Int.ediv_mul_le _ (by omega))
  unfold Fits at *
  omega

/-! ## A note's steps -/

def liftValue (n : Note) (perBeat : Int) : Int :=
  let gap := min (n.duration.tdiv 20) (perBeat.tdiv 16)
  if 0 < gap ∧ gap < n.duration then n.tick + n.duration - gap else n.tick + n.duration

theorem liftTick_eq {n : Note} (hn : n.Ok) (perBeat : Int) : liftTick n perBeat = some (liftValue n perBeat) := by
  have h0 := hn.tick
  have hf := hn.fits
  unfold liftTick liftValue
  rw [add_eq_some.2 ⟨hn.fits, rfl⟩]
  show (if _ then sub (n.tick + n.duration) _ else some (n.tick + n.duration)) = _
  split
  · rename_i hgap
    rw [if_pos hgap]
    exact sub_eq_some.2 ⟨⟨by omega, by unfold Fits at hf; omega⟩, rfl⟩
  · rename_i hgap
    rw [if_neg hgap]

theorem liftValue_bounds {n : Note} (hn : n.Ok) (perBeat : Int) :
    n.tick < liftValue n perBeat ∧ liftValue n perBeat ≤ n.tick + n.duration := by
  have := hn.duration
  unfold liftValue
  dsimp only
  split
  · rename_i h
    obtain ⟨h1, h2⟩ := h
    exact ⟨by omega, by omega⟩
  · exact ⟨by omega, le_rfl⟩

def strikeStep (denom rate : Int) (n : Note) : Step :=
  { sample := sampleOf denom rate n.tick, kind := .noteOn, voice := n.voice, midi := n.midi, velocity := n.velocity }

def releaseSample (denom rate perBeat : Int) (n : Note) : Int :=
  if sampleOf denom rate n.tick < sampleOf denom rate (liftValue n perBeat) then
    sampleOf denom rate (liftValue n perBeat)
  else sampleOf denom rate n.tick + 1

def releaseStep (denom rate perBeat : Int) (n : Note) : Step :=
  { sample := releaseSample denom rate perBeat n, kind := .noteOff, voice := n.voice, midi := n.midi, velocity := 0 }

def registerStep (denom rate : Int) (c : ChipSet) : Step :=
  { sample := sampleOf denom rate c.tick, kind := .chip, voice := c.voice, midi := 0, velocity := 0, param := c.param,
    value := c.value }

theorem lt_releaseSample (denom rate perBeat : Int) (n : Note) :
    sampleOf denom rate n.tick < releaseSample denom rate perBeat n := by
  unfold releaseSample
  split
  · assumption
  · exact Int.lt_succ _

theorem chipStep_eq {t : Tune} {perBeat rate : Int} (hr : 0 ≤ rate) {c : ChipSet} (hc : 0 ≤ c.tick) :
    chipStep t perBeat rate c = when (SampleOk (t.bpm * perBeat) rate c.tick) (registerStep (t.bpm * perBeat) rate c) := by
  unfold chipStep
  rw [tickToSample_eq hc hr, when_bind]
  rfl

theorem noteSteps_eq {t : Tune} {perBeat rate : Int} (hr : 0 ≤ rate) {n : Note} (hn : n.Ok) :
    noteSteps t perBeat rate n = when (SampleOk (t.bpm * perBeat) rate (liftValue n perBeat))
      (strikeStep (t.bpm * perBeat) rate n, releaseStep (t.bpm * perBeat) rate perBeat n) := by
  have hb := liftValue_bounds hn perBeat
  have h0 := hn.tick
  unfold noteSteps
  rw [tickToSample_eq h0 hr, liftTick_eq hn]
  refine eq_when (fun h => ?_) (fun h => ?_)
  · have hon := h.mono h0 hr hb.1.le
    rw [when_of hon]
    show (tickToSample (liftValue n perBeat) t.bpm perBeat rate >>= _) = _
    rw [tickToSample_eq (by omega) hr, when_of h]
    unfold releaseStep releaseSample
    show ((if _ then some _ else add _ 1) >>= _) = _
    split
    · rfl
    · rw [add_eq_some.2 ⟨hon.succ h0 hr, rfl⟩]
      rfl
  · rw [when_bind]
    split
    · show (tickToSample (liftValue n perBeat) t.bpm perBeat rate >>= _) = _
      rw [tickToSample_eq (by omega) hr, when_not h]
      rfl
    · rfl

/-! ## The schedule -/

structure ScheduleOk (t : Tune) (rate : Int) : Prop where
  beat : Fits (1920 * t.tempoNum)
  chips : ∀ c ∈ t.chips, SampleOk (t.bpm * perBeatValue t) rate c.tick
  notes : ∀ n ∈ t.notes, SampleOk (t.bpm * perBeatValue t) rate (liftValue n (perBeatValue t))

def sourceSteps (t : Tune) (rate : Int) : List Step :=
  let denom := t.bpm * perBeatValue t
  t.chips.map (registerStep denom rate) ++
    t.notes.flatMap (fun n => [strikeStep denom rate n, releaseStep denom rate (perBeatValue t) n])

theorem ticksPerBeat_eq {t : Tune} (h : 0 < t.tempoDen) :
    t.ticksPerBeat = when (Fits (1920 * t.tempoNum)) (perBeatValue t) :=
  mul_quot_map h (max 1)

/-- **A tune is scheduled exactly if its samples fit**, and then it is its steps sorted. -/
theorem schedule_eq_some {t : Tune} {rate : Int} (hr : 0 ≤ rate) (hden : 0 < t.tempoDen)
    (hchips : ∀ c ∈ t.chips, 0 ≤ c.tick) (hnotes : ∀ n ∈ t.notes, n.Ok) {steps : List Step} :
    schedule t rate = some steps ↔ ScheduleOk t rate ∧ (ordered (sourceSteps t rate)).map Prod.fst = steps := by
  unfold schedule
  rw [ticksPerBeat_eq hden]
  have hc : t.chips.mapM (chipStep t (perBeatValue t) rate) = _ :=
    mapM_when (fun c hc => @chipStep_eq t (perBeatValue t) rate hr c (hchips c hc))
  have hn : t.notes.mapM (noteSteps t (perBeatValue t) rate) = _ :=
    mapM_when (fun n hn => @noteSteps_eq t (perBeatValue t) rate hr n (hnotes n hn))
  constructor
  · intro h
    obtain ⟨pb, hpb, h⟩ := Option.bind_eq_some_iff.1 h
    obtain ⟨hbeat, rfl⟩ := when_eq_some.1 hpb
    obtain ⟨cs, hcs, h⟩ := Option.bind_eq_some_iff.1 h
    obtain ⟨ns, hns, h⟩ := Option.bind_eq_some_iff.1 h
    rw [hc] at hcs
    rw [hn] at hns
    obtain ⟨hcok, rfl⟩ := when_eq_some.1 hcs
    obtain ⟨hnok, rfl⟩ := when_eq_some.1 hns
    refine ⟨⟨hbeat, hcok, hnok⟩, ?_⟩
    rw [← Option.some.inj h]
    unfold sourceSteps
    rw [flatMap_map]
  · rintro ⟨hok, rfl⟩
    rw [when_of hok.beat]
    show (t.chips.mapM (chipStep t (perBeatValue t) rate) >>= _) = _
    rw [hc, when_of hok.chips]
    show (t.notes.mapM (noteSteps t (perBeatValue t) rate) >>= _) = _
    rw [hn, when_of hok.notes]
    show some ((ordered (_ ++ (t.notes.map _).flatMap _)).map Prod.fst) = _
    rw [flatMap_map]
    rfl

/-! ## The order -/

theorem before_irrefl (a : Step × Nat) : before a a = false := by
  unfold before
  simp

theorem before_iff {a b : Step × Nat} : before a b = true ↔ a.1.sample < b.1.sample ∨ a.1.sample = b.1.sample ∧
    (order a.1.kind < order b.1.kind ∨ order a.1.kind = order b.1.kind ∧ a.2 < b.2) := by
  unfold before
  split
  · rw [decide_eq_true_iff]
    omega
  · split <;> rw [decide_eq_true_iff] <;> omega

theorem not_before_trans {a b c : Step × Nat} (h : (!before b a) = true) (h' : (!before c b) = true) :
    (!before c a) = true := by
  rw [Bool.not_eq_true', ← Bool.not_eq_true, before_iff] at *
  omega

theorem not_before_total (a b : Step × Nat) : (!before b a || !before a b) = true := by
  rw [Bool.or_eq_true, Bool.not_eq_true', Bool.not_eq_true', ← Bool.not_eq_true, ← Bool.not_eq_true, before_iff,
    before_iff]
  omega

theorem ordered_perm (steps : List Step) : (ordered steps).Perm steps.zipIdx := mergeSort_perm _ _

theorem places_nodup (steps : List Step) : (steps.zipIdx.map Prod.snd).Nodup := by
  rw [zipIdx_map_snd]
  exact nodup_range'

/-- **The steps stand in the order they are sorted by**, none beside another. -/
theorem ordered_pairwise (steps : List Step) : (ordered steps).Pairwise (fun a b => before a b = true) := by
  have hle : (ordered steps).Pairwise (fun a b => (!before b a) = true) :=
    @pairwise_mergeSort _ (fun a b => !before b a) (fun _ _ _ => not_before_trans) not_before_total _
  have hne : (ordered steps).Pairwise (fun a b => a.2 ≠ b.2) := by
    have := ((ordered_perm steps).map Prod.snd).nodup_iff.2 (places_nodup steps)
    exact pairwise_map.1 this
  refine (hle.and hne).imp (fun {a b} h => ?_)
  obtain ⟨hba, hab⟩ := h
  rw [Bool.not_eq_true', ← Bool.not_eq_true, before_iff] at hba
  rw [before_iff]
  omega

theorem ordered_of_sorted {steps : List Step} (h : steps.zipIdx.Pairwise (fun a b => before a b = true)) :
    ordered steps = steps.zipIdx := by
  refine mergeSort_of_pairwise (h.imp fun {a b} hab => ?_)
  rw [Bool.not_eq_true', ← Bool.not_eq_true, before_iff]
  rw [before_iff] at hab
  omega

/-! ## What a schedule is for -/

/-- Where in the source the strike of the `i`-th note stands. -/
def strikeAt (t : Tune) (i : Nat) : Nat := t.chips.length + 2 * i

def releaseAt (t : Tune) (i : Nat) : Nat := t.chips.length + 2 * i + 1

def Precedes (placed : List (Step × Nat)) (a b : Step × Nat) : Prop := [a, b].Sublist placed

/-- **The schedule of a tune**: its steps with their places in the source, each place once, and sorted; a strike and a
later release for every note, a step for every setting; and a note that begins where another one of its voice and pitch
has ended is struck behind the other's release. -/
structure Scheduled (t : Tune) (placed : List (Step × Nat)) : Prop where
  places : (placed.map Prod.snd).Perm (List.range (t.chips.length + 2 * t.notes.length))
  sorted : placed.Pairwise (fun a b => a.1.sample < b.1.sample ∨ a.1.sample = b.1.sample ∧
    (order a.1.kind < order b.1.kind ∨ order a.1.kind = order b.1.kind ∧ a.2 < b.2))
  settings : ∀ i c, t.chips[i]? = some c → ∃ s, (s, i) ∈ placed ∧ s.kind = .chip ∧ s.voice = c.voice ∧
    s.param = c.param ∧ s.value = c.value
  notes : ∀ i n, t.notes[i]? = some n → ∃ on off, (on, strikeAt t i) ∈ placed ∧ (off, releaseAt t i) ∈ placed ∧
    on.kind = .noteOn ∧ on.voice = n.voice ∧ on.midi = n.midi ∧ on.velocity = n.velocity ∧
    off.kind = .noteOff ∧ off.voice = n.voice ∧ off.midi = n.midi ∧
    on.sample < off.sample ∧ Precedes placed (on, strikeAt t i) (off, releaseAt t i)
  restrike : ∀ i j a b off on, t.notes[i]? = some a → t.notes[j]? = some b → a.voice = b.voice → a.midi = b.midi →
    a.tick + a.duration ≤ b.tick → (off, releaseAt t i) ∈ placed → (on, strikeAt t j) ∈ placed →
    Precedes placed (off, releaseAt t i) (on, strikeAt t j)

theorem precedes_of_before {l : List (Step × Nat)} (hl : l.Pairwise (fun a b => before a b = true)) {a b : Step × Nat}
    (ha : a ∈ l) (hb : b ∈ l) (h : before a b = true) : Precedes l a b := by
  induction l with
  | nil => exact absurd ha not_mem_nil
  | cons x l ih =>
    rcases mem_cons.1 ha with rfl | hal
    · rcases mem_cons.1 hb with rfl | hbl
      · rw [before_irrefl] at h
        exact nomatch h
      · exact List.Sublist.cons_cons a (singleton_sublist.2 hbl)
    rcases mem_cons.1 hb with rfl | hbl
    · have hba := rel_of_pairwise_cons hl hal
      rw [before_iff] at h hba
      omega
    · exact (ih hl.of_cons hal hbl).cons x

theorem length_sourceNotes (f g : Note → Step) : ∀ notes : List Note,
    (notes.flatMap (fun n => [f n, g n])).length = 2 * notes.length
  | []     => rfl
  | n :: l => by
    rw [flatMap_cons, length_append, length_sourceNotes f g l, length_cons]
    simp only [length_cons, length_nil]
    omega

theorem getElem?_sourceNotes (f g : Note → Step) : ∀ (notes : List Note) (i : Nat),
    (notes.flatMap (fun n => [f n, g n]))[2 * i]? = (notes[i]?).map f ∧
      (notes.flatMap (fun n => [f n, g n]))[2 * i + 1]? = (notes[i]?).map g
  | [], i         => by simp
  | n :: l, 0     => ⟨rfl, rfl⟩
  | n :: l, i + 1 => getElem?_sourceNotes f g l i

section

variable {t : Tune} {rate : Int}

theorem length_sourceSteps (t : Tune) (rate : Int) :
    (sourceSteps t rate).length = t.chips.length + 2 * t.notes.length := by
  unfold sourceSteps
  rw [length_append, length_map, length_sourceNotes]

theorem getElem?_register {i : Nat} {c : ChipSet} (h : t.chips[i]? = some c) :
    (sourceSteps t rate)[i]? = some (registerStep (t.bpm * perBeatValue t) rate c) := by
  unfold sourceSteps
  have hi := (List.getElem?_eq_some_iff.1 h).1
  rw [getElem?_append_left (by rw [length_map]; exact hi), getElem?_map, h]
  rfl

theorem getElem?_strike {i : Nat} {n : Note} (h : t.notes[i]? = some n) :
    (sourceSteps t rate)[strikeAt t i]? = some (strikeStep (t.bpm * perBeatValue t) rate n) := by
  unfold sourceSteps strikeAt
  rw [getElem?_append_right (by rw [length_map]; omega), length_map, Nat.add_sub_cancel_left]
  rw [(getElem?_sourceNotes _ _ t.notes i).1, h]
  rfl

theorem getElem?_release {i : Nat} {n : Note} (h : t.notes[i]? = some n) :
    (sourceSteps t rate)[releaseAt t i]? = some (releaseStep (t.bpm * perBeatValue t) rate (perBeatValue t) n) := by
  unfold sourceSteps releaseAt
  rw [getElem?_append_right (by rw [length_map]; omega), length_map, Nat.add_assoc,
    Nat.add_sub_cancel_left]
  rw [(getElem?_sourceNotes _ _ t.notes i).2, h]
  rfl

theorem mem_ordered {steps : List Step} {s : Step} {i : Nat} : (s, i) ∈ ordered steps ↔ steps[i]? = some s := by
  rw [(ordered_perm steps).mem_iff, mem_zipIdx_iff_getElem?]

/-- **What is sorted is the schedule.** -/
theorem scheduled_ordered (hden : 0 < t.bpm * perBeatValue t) (hrate : t.bpm * perBeatValue t ≤ 60 * rate)
    (hnotes : ∀ n ∈ t.notes, n.Ok) : Scheduled t (ordered (sourceSteps t rate)) where
  places := by
    refine ((ordered_perm _).map Prod.snd).trans ?_
    rw [zipIdx_map_snd, length_sourceSteps, range_eq_range']
  sorted := (ordered_pairwise _).imp (fun h => before_iff.1 h)
  settings i c h := ⟨_, mem_ordered.2 (getElem?_register h), rfl, rfl, rfl, rfl⟩
  notes i n h := by
    have hlt := lt_releaseSample (t.bpm * perBeatValue t) rate (perBeatValue t) n
    have hon := mem_ordered.2 (@getElem?_strike t rate i n h)
    have hoff := mem_ordered.2 (@getElem?_release t rate i n h)
    exact ⟨_, _, hon, hoff, rfl, rfl, rfl, rfl, rfl, rfl, rfl, hlt,
      precedes_of_before (ordered_pairwise _) hon hoff (before_iff.2 (Or.inl hlt))⟩
  restrike i j a b off on ha hb _ _ hle hoff hon := by
    refine precedes_of_before (ordered_pairwise _) hoff hon (before_iff.2 ?_)
    rw [mem_ordered, getElem?_release ha] at hoff
    rw [mem_ordered, getElem?_strike hb] at hon
    cases hoff
    cases hon
    have hlift := liftValue_bounds (hnotes a (mem_of_getElem? ha)) (perBeatValue t)
    have hsample : releaseSample (t.bpm * perBeatValue t) rate (perBeatValue t) a ≤
        sampleOf (t.bpm * perBeatValue t) rate b.tick := by
      have h1 := sampleOf_lt hden hrate hlift.1
      unfold releaseSample
      rw [if_pos h1]
      exact sampleOf_mono (by omega) (hlift.2.trans hle)
    rcases hsample.lt_or_eq with h | h
    · exact Or.inl h
    · exact Or.inr ⟨h, Or.inl (show order .noteOff < order .noteOn by decide)⟩

end

/-- **A tune that was read, at a tempo at which a tick lasts a sample at least, is scheduled exactly if its samples
fit.** -/
theorem schedule_iff (u : Unicode) {source : Text} {t : Tune} (h : parseABC u source = some t) {rate : Int}
    (hden : 0 < t.bpm * perBeatValue t) (hrate : t.bpm * perBeatValue t ≤ 60 * rate) :
    (∃ placed, schedule t rate = some (placed.map Prod.fst) ∧ Scheduled t placed) ↔ ScheduleOk t rate := by
  obtain ⟨hnotes, hchips, htempo⟩ := parseABC_ok u h
  have heq {steps : List Step} := @schedule_eq_some t rate (by omega) htempo (fun c hc => (hchips c hc).1) hnotes steps
  refine ⟨fun ⟨placed, hs, _⟩ => (heq.1 hs).1, fun hok => ?_⟩
  exact ⟨_, heq.2 ⟨hok, rfl⟩, scheduled_ordered hden hrate hnotes⟩

def oneNote : Text := text "L:1/8\nC"

theorem schedule_iff_oneNote : ∃ placed, schedule ((parseABC .plain oneNote).get (by decide)) kChipSampleRate =
    some (placed.map Prod.fst) ∧ Scheduled ((parseABC .plain oneNote).get (by decide)) placed :=
  (schedule_iff .plain (Option.some_get _).symm (by decide) (by decide)).2
    ⟨by decide, by decide, by decide⟩

def lateNote : Text := text "L:1/8\nz9999999999999 C"

theorem lateNote_read : (parseABC .plain lateNote).map (fun t => (t.bpm * perBeatValue t, schedule t kChipSampleRate)) =
    some (57600, none) := by
  decide

/-- **Not every tune that was read is scheduled.** -/
theorem not_scheduled : ¬ ∀ t, parseABC .plain lateNote = some t → 0 < t.bpm * perBeatValue t →
    t.bpm * perBeatValue t ≤ 60 * kChipSampleRate →
    ∃ placed, schedule t kChipSampleRate = some (placed.map Prod.fst) ∧ Scheduled t placed := by
  intro h
  obtain ⟨t, ht, he⟩ := Option.map_eq_some_iff.1 lateNote_read
  obtain ⟨hbpm, hnone⟩ := Prod.mk.inj he
  obtain ⟨placed, hs, -⟩ := h t ht (by rw [hbpm]; decide) (by rw [hbpm]; decide)
  rw [hnone] at hs
  exact nomatch hs

end Chip
end Prose
