import Prose.TrioVoices
import Mathlib.Logic.Function.Iterate
/-!
# TrioTiming — when the steps of a schedule are applied

What a track applies and when does not depend on the other tracks nor on how the output is cut into buffers: rendering is
the track's own clock, ticked once a frame (`clockOf_render`).  A schedule is then met to the sample until a track
begins again; a step at the very start of a later pass is one frame late.
-/
namespace Prose
namespace Chip
namespace Trio

/-! ## One track's clock -/

/-- What a track has applied: the frame and the place in its schedule. -/
def appliedBy (t : Fin 4) (s : Trio) : List (Nat × Nat) :=
  (s.log.filter (fun a => a.track = t)).map (fun a => (a.frame, a.index))

structure Clock where
  track : Track
  applied : List (Nat × Nat)
  frame : Nat

def clockOf (s : Trio) (t : Fin 4) : Clock := { track := s.tracks t, applied := appliedBy t s, frame := s.frame }

def dueCount (track : Track) : Nat :=
  ((track.steps.drop track.cursor).takeWhile (fun step => step.sample ≤ track.position)).length

namespace Clock

def applyDue (c : Clock) : Clock :=
  { c with
    track := { c.track with cursor := c.track.cursor + dueCount c.track }
    applied := c.applied ++ (List.range' c.track.cursor (dueCount c.track)).map (fun i => (c.frame, i)) }

def due (c : Clock) : Clock :=
  if c.track.playing then { c.applyDue with track := endOf c.applyDue.track } else c

def advance (c : Clock) (n : Nat) : Clock :=
  { c with
    track := if c.track.playing then { c.track with position := c.track.position + n } else c.track
    frame := c.frame + n }

def tick (c : Clock) : Clock := c.due.advance 1

end Clock

theorem dueCount_eq_zero {track : Track} (h : ∀ step, track.steps[track.cursor]? = some step → track.position < step.sample) :
    dueCount track = 0 := by
  unfold dueCount
  cases hd : track.steps.drop track.cursor with
  | nil => rfl
  | cons step rest =>
    have := h step (by rw [← List.head?_drop, hd]; rfl)
    rw [List.takeWhile_cons, if_neg (by rw [decide_eq_true_iff]; omega)]
    rfl

theorem dueCount_eq_succ {track : Track} {step : Step} (h : track.steps[track.cursor]? = some step)
    (hdue : step.sample ≤ track.position) : dueCount track = dueCount { track with cursor := track.cursor + 1 } + 1 := by
  obtain ⟨hlt, he⟩ := List.getElem?_eq_some_iff.1 h
  unfold dueCount
  dsimp only
  rw [List.drop_eq_getElem_cons hlt, he, List.takeWhile_cons, if_pos (decide_eq_true hdue), List.length_cons]

/-! ## What is applied, on the clocks -/

theorem tracks_applyNoteOff (s : Trio) (voice midi : Int) (t : Fin 4) : (s.applyNoteOff voice midi t).tracks = s.tracks ∧
    (s.applyNoteOff voice midi t).log = s.log ∧ (s.applyNoteOff voice midi t).frame = s.frame := by
  unfold applyNoteOff
  dsimp only
  split <;> exact ⟨rfl, rfl, rfl⟩

theorem applyStep_fields (idle : Idle) (t : Fin 4) (step : Step) (s : Trio) :
    (applyStep idle t step s).tracks = Function.update s.tracks t { s.tracks t with cursor := (s.tracks t).cursor + 1 } ∧
      (applyStep idle t step s).log = s.log ++ [Applied.mk s.frame t (s.tracks t).cursor] ∧
      (applyStep idle t step s).frame = s.frame := by
  unfold applyStep setTrack
  dsimp only
  split
  · exact ⟨rfl, rfl, rfl⟩
  · obtain ⟨h1, h2, h3⟩ := tracks_applyNoteOff { s with log := s.log ++ [Applied.mk s.frame t (s.tracks t).cursor] }
      step.voice step.midi t
    rw [h1, h2, h3]
    exact ⟨rfl, rfl, rfl⟩
  · exact ⟨rfl, rfl, rfl⟩

def Clock.applyOne (c : Clock) : Clock :=
  { c with track := { c.track with cursor := c.track.cursor + 1 }, applied := c.applied ++ [(c.frame, c.track.cursor)] }

theorem clockOf_applyStep (idle : Idle) (t : Fin 4) (step : Step) (s : Trio) (x : Fin 4) :
    clockOf (applyStep idle t step s) x = if x = t then (clockOf s x).applyOne else clockOf s x := by
  obtain ⟨h1, h2, h3⟩ := applyStep_fields idle t step s
  unfold clockOf appliedBy
  rw [h1, h2, h3, List.filter_append, List.map_append]
  split
  · rename_i h
    subst h
    rw [Function.update_self, List.filter_cons, if_pos (decide_eq_true rfl)]
    rfl
  · rename_i h
    rw [Function.update_of_ne h, List.filter_cons_of_neg (by simpa using Ne.symm h), List.filter_nil, List.map_nil,
      List.append_nil]

theorem Clock.applyDue_of_zero {c : Clock} (h : dueCount c.track = 0) : c.applyDue = c := by
  unfold Clock.applyDue
  rw [h, List.range'_zero, List.map_nil, List.append_nil]
  rfl

theorem Clock.applyDue_of_succ {c : Clock} {step : Step} (h : c.track.steps[c.track.cursor]? = some step)
    (hdue : step.sample ≤ c.track.position) : c.applyDue = c.applyOne.applyDue := by
  have hcount := dueCount_eq_succ h hdue
  unfold Clock.applyDue Clock.applyOne
  dsimp only
  rw [hcount, List.range'_succ, List.map_cons, List.append_assoc, List.singleton_append]
  congr 2
  omega

theorem clockOf_applyDue (idle : Idle) (t : Fin 4) : ∀ (fuel : Nat) (s : Trio),
    (s.tracks t).steps.length - (s.tracks t).cursor < fuel → ∀ x,
      clockOf (applyDue idle t fuel s) x = if x = t then (clockOf s x).applyDue else clockOf s x
  | 0, _, h, _        => absurd h (Nat.not_lt_zero _)
  | fuel + 1, s, h, x => by
    unfold applyDue
    split
    · rename_i step hstep
      split
      · rename_i hdue
        have hlt := (List.getElem?_eq_some_iff.1 hstep).1
        have htrack : (applyStep idle t step s).tracks t = { s.tracks t with cursor := (s.tracks t).cursor + 1 } := by
          rw [(applyStep_fields idle t step s).1, Function.update_self]
        rw [clockOf_applyDue idle t fuel _ (by rw [htrack]; dsimp only; omega) x, clockOf_applyStep]
        split
        · rename_i hx
          subst hx
          exact (Clock.applyDue_of_succ (c := clockOf s x) hstep hdue).symm
        · rfl
      · rename_i hdue
        split
        · rename_i hx
          subst hx
          refine (Clock.applyDue_of_zero (c := clockOf s x) (dueCount_eq_zero fun step' hs => ?_)).symm
          rw [show (clockOf s x).track = s.tracks x from rfl, hstep] at hs
          rw [← Option.some.inj hs]
          exact not_le.1 hdue
        · rfl
    · rename_i hnone
      split
      · rename_i hx
        subst hx
        refine (Clock.applyDue_of_zero (c := clockOf s x) (dueCount_eq_zero fun step' hs => ?_)).symm
        rw [show (clockOf s x).track = s.tracks x from rfl, hnone] at hs
        exact nomatch hs
      · rfl

theorem clockOf_setTrack (s : Trio) (t : Fin 4) (track : Track) (x : Fin 4) :
    clockOf (s.setTrack t track) x = if x = t then { clockOf s x with track } else clockOf s x := by
  unfold clockOf
  rw [tracks_setTrack]
  split <;> rfl

theorem clockOf_due (idle : Idle) (s : Trio) (t x : Fin 4) :
    clockOf (due idle s t) x = if x = t then (clockOf s x).due else clockOf s x := by
  unfold due
  split
  · rename_i hp
    have happly := clockOf_applyDue idle t ((s.tracks t).steps.length + 1) s (by omega)
    dsimp only
    rw [clockOf_setTrack]
    split
    · rename_i hx
      subst hx
      have h := happly x
      rw [if_pos rfl] at h
      unfold Clock.due
      rw [if_pos (show (clockOf s x).track.playing = true from hp), ← h]
      rfl
    · rename_i hx
      rw [happly x, if_neg hx]
  · rename_i hp
    split
    · rename_i hx
      subst hx
      exact (if_neg hp).symm
    · rfl

theorem clockOf_allDue (idle : Idle) (s : Trio) (t : Fin 4) : clockOf (s.allDue idle) t = (clockOf s t).due := by
  unfold allDue
  simp only [List.foldl_cons, List.foldl_nil, clockOf_due]
  match t with
  | 0 | 1 | 2 | 3 => rfl

theorem clockOf_advance (s : Trio) (n : Nat) (t : Fin 4) : clockOf (s.advance n) t = (clockOf s t).advance n := rfl

end Trio

namespace Trio

/-! ## Between two events nothing is due -/

theorem not_of_getElem?_takeWhile {α : Type} (p : α → Bool) : ∀ (l : List α) (a : α),
    l[(l.takeWhile p).length]? = some a → p a = false
  | [], _, h     => nomatch h
  | x :: l, a, h => by
    rw [List.takeWhile_cons] at h
    split at h
    · exact not_of_getElem?_takeWhile p l a h
    · rename_i hx
      rw [← show x = a from Option.some.inj h]
      exact Bool.not_eq_true _ ▸ hx

/-- The due steps are the next ones not later than the position, up to the first that is. -/
theorem dueCount_spec (track : Track) : track.cursor + dueCount track ≤ max track.cursor track.steps.length ∧
    (∀ k, track.cursor ≤ k → k < track.cursor + dueCount track →
      ∃ step, track.steps[k]? = some step ∧ step.sample ≤ track.position) ∧
    ∀ step, track.steps[track.cursor + dueCount track]? = some step → track.position < step.sample := by
  have hprefix := List.takeWhile_prefix (fun step => step.sample ≤ track.position) (l := track.steps.drop track.cursor)
  refine ⟨?_, fun k hk hlt => ?_, fun step h => ?_⟩
  · have := hprefix.length_le
    rw [List.length_drop] at this
    unfold dueCount
    omega
  · unfold dueCount at hlt
    have hi : k - track.cursor < ((track.steps.drop track.cursor).takeWhile
      (fun step => step.sample ≤ track.position)).length := by omega
    have hdue := List.mem_takeWhile_imp (List.getElem_mem hi)
    refine ⟨_, ?_, of_decide_eq_true hdue⟩
    have hget := List.getElem?_eq_getElem (hi.trans_le hprefix.length_le)
    rw [List.getElem?_drop, show track.cursor + (k - track.cursor) = k by omega] at hget
    rw [hget, ← hprefix.getElem hi]
  · rw [← List.getElem?_drop] at h
    have := not_of_getElem?_takeWhile _ _ _ h
    exact not_le.1 (of_decide_eq_false this)

def Clock.Ready (c : Clock) : Prop := c.track.playing → c.track.steps ≠ []

namespace Clock

theorem due_of_stopped {c : Clock} (h : ¬ c.track.playing) : c.due = c := if_neg h

theorem due_of_early {c : Clock} {step : Step} (hs : c.track.steps[c.track.cursor]? = some step)
    (h : c.track.position < step.sample) : c.due = c := by
  have hzero : dueCount c.track = 0 := dueCount_eq_zero fun step' hs' => by
    rw [hs] at hs'
    rwa [← Option.some.inj hs']
  unfold due
  split
  · rw [applyDue_of_zero hzero]
    unfold endOf
    rw [if_neg (by have := (List.getElem?_eq_some_iff.1 hs).1; omega)]
  · rfl

/-- Behind what is due a playing track has a step before it, later than its position but at the start of a pass. -/
theorem due_playing {c : Clock} (h : c.Ready) (hp : c.due.track.playing) :
    ∃ step, c.due.track.steps[c.due.track.cursor]? = some step ∧
      (c.due.track.position < step.sample ∨ c.due.track.cursor = 0 ∧ c.due.track.position = 0) := by
  have hplays : c.track.playing := by
    by_contra hn
    rw [due_of_stopped hn] at hp
    exact hn hp
  have hne := List.getElem?_eq_getElem (List.length_pos_of_ne_nil (h hplays))
  unfold due endOf at *
  rw [if_pos hplays] at *
  dsimp only at *
  split
  · rename_i hend
    rw [if_pos hend] at hp
    split
    · exact ⟨_, hne, Or.inr ⟨rfl, rfl⟩⟩
    · rename_i hl
      rw [if_neg hl] at hp
      exact nomatch hp
  · rename_i hend
    have hlt : c.track.cursor + dueCount c.track < c.track.steps.length := not_le.1 hend
    have hs := List.getElem?_eq_getElem hlt
    exact ⟨_, hs, Or.inl ((dueCount_spec c.track).2.2 _ hs)⟩

theorem Ready.due {c : Clock} (h : c.Ready) : c.due.Ready := by
  unfold Clock.due
  split
  · rename_i hp
    intro _
    unfold endOf
    split
    · split <;> exact h hp
    · exact h hp
  · exact h

theorem Ready.advance {c : Clock} (h : c.Ready) (n : Nat) : (c.advance n).Ready := by
  unfold Ready Clock.advance at *
  dsimp only
  split
  · exact h
  · exact h

/-- **To the next event the frames go by as one.** -/
theorem advance_due {c : Clock} (h : c.Ready) : ∀ {n : Nat}, (∀ step, c.due.track.playing →
      c.due.track.steps[c.due.track.cursor]? = some step →
        ((n + 1 : Nat) : Int) ≤ max 1 (step.sample - c.due.track.position)) →
    c.due.advance (n + 1) = Clock.tick^[n + 1] c
  | 0, _        => rfl
  | n + 1, hgap => by
    have ih := advance_due h (n := n) (fun step hp hs => by have := hgap step hp hs; omega)
    rw [Function.iterate_succ_apply', ← ih]
    have hquiet : (c.due.advance (n + 1)).due = c.due.advance (n + 1) := by
      by_cases hp : c.due.track.playing
      · obtain ⟨step, hs, -⟩ := due_playing h hp
        have := hgap step hp hs
        have htrack : (c.due.advance (n + 1)).track =
          { c.due.track with position := c.due.track.position + ((n + 1 : Nat) : Int) } := if_pos hp
        refine @due_of_early _ step (by rw [htrack]; exact hs) ?_
        rw [htrack]
        change c.due.track.position + ((n + 1 : Nat) : Int) < step.sample
        omega
      · refine due_of_stopped ?_
        rw [show (c.due.advance (n + 1)).track = c.due.track from if_neg hp]
        exact hp
    unfold tick
    rw [hquiet]
    unfold advance
    dsimp only
    congr 1
    by_cases hp : c.due.track.playing
    · rw [if_pos hp, if_pos hp, if_pos hp, Nat.cast_add ((n + 1 : Nat)), add_assoc]
    · rw [if_neg hp, if_neg hp, if_neg hp]

end Clock

end Trio

namespace Trio

/-! ## Rendering is the clock -/

theorem toNext_le (track : Track) (n : Int) : toNext track n ≤ n := by
  unfold toNext
  split
  · split <;> omega
  · exact le_rfl

theorem toNext_pos (track : Track) {n : Int} (h : 0 < n) : 0 < toNext track n := by
  unfold toNext
  split
  · split <;> omega
  · exact h

theorem toNext_le_gap {track : Track} {step : Step} (hp : track.playing) (hs : track.steps[track.cursor]? = some step)
    (n : Int) : toNext track n ≤ max 1 (step.sample - track.position) := by
  unfold toNext
  rw [if_pos hp, hs]
  exact min_le_right _ _

theorem span_spec (s : Trio) {left : Nat} (h : 0 < left) : 0 < s.span left ∧ s.span left ≤ left ∧
    ∀ t step, (s.tracks t).playing → (s.tracks t).steps[(s.tracks t).cursor]? = some step →
      (s.span left : Int) ≤ max 1 (step.sample - (s.tracks t).position) := by
  have h0 : 0 < min (left : Int) 4096 := by omega
  have p0 := toNext_pos (s.tracks 0) h0
  have p1 := toNext_pos (s.tracks 1) p0
  have p2 := toNext_pos (s.tracks 2) p1
  have p3 := toNext_pos (s.tracks 3) p2
  have l0 := toNext_le (s.tracks 0) (min (left : Int) 4096)
  have l1 := toNext_le (s.tracks 1) (toNext (s.tracks 0) (min (left : Int) 4096))
  have l2 := toNext_le (s.tracks 2) (toNext (s.tracks 1) (toNext (s.tracks 0) (min (left : Int) 4096)))
  have l3 := toNext_le (s.tracks 3)
    (toNext (s.tracks 2) (toNext (s.tracks 1) (toNext (s.tracks 0) (min (left : Int) 4096))))
  have hspan : (s.span left : Int) =
      toNext (s.tracks 3) (toNext (s.tracks 2) (toNext (s.tracks 1) (toNext (s.tracks 0) (min (left : Int) 4096)))) := by
    unfold span
    simp only [List.foldl_cons, List.foldl_nil]
    omega
  refine ⟨by omega, by omega, fun t step hp hs => ?_⟩
  match t with
  | 0 => have := toNext_le_gap hp hs (min (left : Int) 4096); omega
  | 1 => have := toNext_le_gap hp hs (toNext (s.tracks 0) (min (left : Int) 4096)); omega
  | 2 => have := toNext_le_gap hp hs (toNext (s.tracks 1) (toNext (s.tracks 0) (min (left : Int) 4096))); omega
  | 3 =>
    have := toNext_le_gap hp hs
      (toNext (s.tracks 2) (toNext (s.tracks 1) (toNext (s.tracks 0) (min (left : Int) 4096))))
    omega

/-- **Rendering is each track's own clock**, a tick a frame. -/
theorem clockOf_renderLoop (idle : Idle) : ∀ {fuel left : Nat} {s : Trio}, left ≤ fuel → (∀ t, (clockOf s t).Ready) →
    ∀ t, clockOf (renderLoop idle fuel left s) t = Clock.tick^[left] (clockOf s t)
  | 0, left, s, hle, _, t => by
    rw [Nat.le_zero.1 hle]
    rfl
  | fuel + 1, left, s, hle, hr, t => by
    unfold renderLoop
    split
    · rename_i h
      rw [h]
      rfl
    rename_i h
    have hdue (x : Fin 4) : clockOf (s.allDue idle) x = (clockOf s x).due := clockOf_allDue idle s x
    obtain ⟨hpos, hle', hgap⟩ := span_spec (s.allDue idle) (Nat.pos_of_ne_zero h)
    dsimp only
    generalize (s.allDue idle).span left = n at hpos hle' hgap
    obtain ⟨m, rfl⟩ : ∃ m, n = m + 1 := ⟨n - 1, by omega⟩
    have hspan (x : Fin 4) : clockOf ((s.allDue idle).advance (m + 1)) x = Clock.tick^[m + 1] (clockOf s x) := by
      rw [clockOf_advance, hdue]
      refine Clock.advance_due (hr x) (fun step hp hs => ?_)
      rw [← hdue] at hp hs ⊢
      exact hgap x step hp hs
    have hready (x : Fin 4) : (clockOf ((s.allDue idle).advance (m + 1)) x).Ready := by
      rw [clockOf_advance, hdue]
      exact (hr x).due.advance _
    rw [clockOf_renderLoop idle (by omega) hready, hspan, ← Function.iterate_add_apply,
      show left - (m + 1) + (m + 1) = left by omega]

def renderAll (s : Trio) (parts : List (Idle × Nat)) : Trio := parts.foldl (fun s p => s.render p.1 p.2) s

theorem Clock.Ready.ticks {c : Clock} (h : c.Ready) : ∀ n : Nat, (Clock.tick^[n] c).Ready
  | 0     => h
  | n + 1 => by
    rw [Function.iterate_succ_apply']
    exact (h.ticks n).due.advance 1

/-- **How the output is cut into buffers makes no difference.** -/
theorem clockOf_renderAll : ∀ {parts : List (Idle × Nat)} {s : Trio}, (∀ t, (clockOf s t).Ready) →
    ∀ t, clockOf (s.renderAll parts) t = Clock.tick^[(parts.map Prod.snd).sum] (clockOf s t)
  | [], _, _, _           => rfl
  | p :: parts, s, hr, t => by
    have hone (x : Fin 4) : clockOf (s.render p.1 p.2) x = Clock.tick^[p.2] (clockOf s x) :=
      clockOf_renderLoop p.1 le_rfl hr x
    have hready (x : Fin 4) : (clockOf (s.render p.1 p.2) x).Ready := by
      rw [hone]
      exact (hr x).ticks _
    change clockOf ((s.render p.1 p.2).renderAll parts) t = _
    rw [clockOf_renderAll hready, hone, ← Function.iterate_add_apply, List.map_cons, List.sum_cons, Nat.add_comm]

end Trio

namespace Trio

/-! ## When a step should be applied -/

def sampleAt (steps : List Step) (k : Nat) : Int := ((steps[k]?).map Step.sample).getD 0

def passLength (steps : List Step) : Int := sampleAt steps (steps.length - 1)

/-- The frame the `j`-th step applied belongs before: its offset from the start of its pass. -/
def dueFrame (steps : List Step) (j : Nat) : Int :=
  (j / steps.length : Nat) * passLength steps + sampleAt steps (j % steps.length)

/-- The `j`-th thing a track has to have applied after `n` frames, if there is one. -/
def dueApplied (track : Track) (n j : Nat) : Option (Nat × Nat) :=
  if track.playing ∧ (track.loop ∨ j < track.steps.length) ∧ dueFrame track.steps j < n then
    some ((dueFrame track.steps j).toNat, j % track.steps.length)
  else none

/-- The first `n` of them. -/
def met (steps : List Step) (n : Nat) : List (Nat × Nat) :=
  (List.range n).map (fun j => ((dueFrame steps j).toNat, j % steps.length))

theorem length_met (steps : List Step) (n : Nat) : (met steps n).length = n := by
  unfold met
  rw [List.length_map, List.length_range]

theorem getElem?_met (steps : List Step) (n j : Nat) :
    (met steps n)[j]? = if j < n then some ((dueFrame steps j).toNat, j % steps.length) else none := by
  unfold met
  rw [List.getElem?_map]
  split
  · rename_i h
    rw [List.getElem?_range h]
    rfl
  · rename_i h
    rw [List.getElem?_eq_none (by rw [List.length_range]; omega)]
    rfl

/-- The schedule of a track that is played: sorted, from the start on. -/
structure Schedule (steps : List Step) : Prop where
  ne_nil : steps ≠ []
  sorted : steps.Pairwise (fun a b => a.sample ≤ b.sample)
  nonneg : ∀ step ∈ steps, 0 ≤ step.sample

theorem sampleAt_eq {steps : List Step} {k : Nat} {step : Step} (h : steps[k]? = some step) :
    sampleAt steps k = step.sample := by
  unfold sampleAt
  rw [h]
  rfl

namespace Schedule

variable {steps : List Step} (h : Schedule steps)
include h

theorem pos : 0 < steps.length := List.length_pos_of_ne_nil h.ne_nil

theorem sampleAt_mono {j k : Nat} (hjk : j ≤ k) (hk : k < steps.length) : sampleAt steps j ≤ sampleAt steps k := by
  rw [sampleAt_eq (List.getElem?_eq_getElem (hjk.trans_lt hk)), sampleAt_eq (List.getElem?_eq_getElem hk)]
  rcases hjk.lt_or_eq with hlt | rfl
  · exact List.pairwise_iff_getElem.1 h.sorted j k (hjk.trans_lt hk) hk hlt
  · exact le_rfl

theorem sampleAt_nonneg {k : Nat} (hk : k < steps.length) : 0 ≤ sampleAt steps k := by
  rw [sampleAt_eq (List.getElem?_eq_getElem hk)]
  exact h.nonneg _ (List.getElem_mem hk)

theorem le_passLength {k : Nat} (hk : k < steps.length) : sampleAt steps k ≤ passLength steps :=
  h.sampleAt_mono (by omega) (by have := h.pos; omega)

theorem passLength_nonneg : 0 ≤ passLength steps := h.sampleAt_nonneg (by have := h.pos; omega)

end Schedule

theorem met_append {steps : List Step} {p cursor n frame : Nat} (hle : cursor + n ≤ steps.length)
    (hframe : ∀ k, cursor ≤ k → k < cursor + n → (frame : Int) = p * passLength steps + sampleAt steps k) :
    met steps (p * steps.length + cursor) ++ (List.range' cursor n).map (fun i => (frame, i)) =
      met steps (p * steps.length + cursor + n) := by
  unfold met
  have hrange : List.range (p * steps.length + cursor + n) =
      List.range (p * steps.length + cursor) ++ (List.range n).map (p * steps.length + cursor + ·) := List.range_add
  rw [hrange, List.map_append, List.range'_eq_map_range, List.map_map, List.map_map]
  refine congrArg _ (List.map_congr_left fun i hi => ?_)
  rw [List.mem_range] at hi
  have hmod : (p * steps.length + cursor + i) % steps.length = cursor + i := by
    rw [Nat.add_assoc, Nat.mul_comm, Nat.mul_add_mod, Nat.mod_eq_of_lt (by omega)]
  have hdiv : (p * steps.length + cursor + i) / steps.length = p := by
    rw [Nat.add_assoc, Nat.mul_comm, Nat.mul_add_div (by omega), Nat.div_eq_of_lt (by omega), Nat.add_zero]
  have := hframe (cursor + i) (by omega) (by omega)
  dsimp only [Function.comp]
  unfold dueFrame
  rw [hmod, hdiv, ← this]
  rfl

/-- **A clock that has met its schedule** up to its frame: in the middle of a pass, or behind the only one. -/
inductive Met (steps : List Step) (loop : Bool) : Clock → Prop
  | passing {c : Clock} (p : Nat) (hsteps : c.track.steps = steps) (hloop : c.track.loop = loop)
      (hplays : c.track.playing) (again : p = 0 ∨ loop ∧ 0 < c.track.position)
      (frame : (c.frame : Int) = p * passLength steps + c.track.position)
      (cursor : c.track.cursor < steps.length) (behind : ∀ k < c.track.cursor, sampleAt steps k < c.track.position)
      (ahead : ∀ k, c.track.cursor ≤ k → k < steps.length → c.track.position ≤ sampleAt steps k)
      (applied : c.applied = met steps (p * steps.length + c.track.cursor)) : Met steps loop c
  | ended {c : Clock} (hloop : loop = false) (hplays : ¬ c.track.playing) (frame : passLength steps < c.frame)
      (applied : c.applied = met steps steps.length) : Met steps loop c

end Trio

namespace Trio

section

variable {steps : List Step} {loop : Bool}

theorem tick_stopped {c : Clock} (h : ¬ c.track.playing) : c.tick = { c with frame := c.frame + 1 } := by
  unfold Clock.tick
  rw [Clock.due_of_stopped h]
  unfold Clock.advance
  rw [if_neg h]

theorem tick_within {c : Clock} (hp : c.track.playing) (h : c.track.cursor + dueCount c.track < c.track.steps.length) :
    c.tick = { c.applyDue with
      track := { c.applyDue.track with position := c.track.position + 1 }, frame := c.frame + 1 } := by
  unfold Clock.tick Clock.due endOf
  rw [if_pos hp, if_neg (show ¬ c.applyDue.track.steps.length ≤ c.applyDue.track.cursor from not_le.2 h)]
  unfold Clock.advance
  rw [if_pos (show c.applyDue.track.playing = true from hp)]
  rfl

theorem tick_at_end {c : Clock} (hp : c.track.playing) (h : c.track.steps.length ≤ c.track.cursor + dueCount c.track) :
    c.tick = { c.applyDue with
      track := if c.track.loop then { c.track with cursor := 0, position := 1 }
        else { c.applyDue.track with playing := false }
      frame := c.frame + 1 } := by
  unfold Clock.tick Clock.due endOf
  rw [if_pos hp, if_pos (show c.applyDue.track.steps.length ≤ c.applyDue.track.cursor from h)]
  unfold Clock.advance Clock.applyDue
  dsimp only
  cases c.track.loop
  · rfl
  · rw [if_pos rfl, if_pos rfl, if_pos hp]
    rfl

/-- **A frame on, the schedule is met still**, unless a pass but the first has a step at its very start. -/
theorem Met.tick (h : Schedule steps) {c : Clock} (hc : Met steps loop c)
    (hok : loop = true → 0 < sampleAt steps 0 ∨ (c.frame : Int) + 1 ≤ passLength steps) : Met steps loop c.tick := by
  cases hc with
  | passing p hsteps hloop hplays again frame cursor behind ahead applied =>
    obtain ⟨hmax, hdue, hlater⟩ := dueCount_spec c.track
    rw [hsteps] at hmax hdue hlater
    have hnow : ∀ k, c.track.cursor ≤ k → k < c.track.cursor + dueCount c.track →
        sampleAt steps k = c.track.position := fun k hk hlt => by
      obtain ⟨step, hs, hle⟩ := hdue k hk hlt
      have := ahead k hk (List.getElem?_eq_some_iff.1 hs).1
      rw [sampleAt_eq hs] at this ⊢
      omega
    have happlied : c.applyDue.applied = met steps (p * steps.length + c.track.cursor + dueCount c.track) := by
      change c.applied ++ _ = _
      rw [applied]
      exact met_append (by omega) (fun k hk hlt => by rw [frame, hnow k hk hlt])
    by_cases hend : c.track.cursor + dueCount c.track < steps.length
    · rw [tick_within hplays (by rw [hsteps]; exact hend)]
      refine .passing p hsteps hloop hplays ?_ ?_ hend (fun k hk => ?_) (fun k hk hlt => ?_) ?_
      · exact again.imp id (fun ha => ⟨ha.1, by dsimp only; omega⟩)
      · dsimp only
        push_cast
        omega
      · change k < c.track.cursor + dueCount c.track at hk
        change sampleAt steps k < c.track.position + 1
        by_cases hkc : k < c.track.cursor
        · have := behind k hkc
          omega
        · rw [hnow k (not_lt.1 hkc) hk]
          omega
      · change c.track.cursor + dueCount c.track ≤ k at hk
        change c.track.position + 1 ≤ sampleAt steps k
        have hnext := List.getElem?_eq_getElem hend
        have := hlater _ hnext
        rw [← sampleAt_eq hnext] at this
        have := h.sampleAt_mono hk hlt
        omega
      · dsimp only
        rw [happlied, Nat.add_assoc]
        rfl
    · have hlast : c.track.position = passLength steps :=
        (hnow (steps.length - 1) (by omega) (by omega)).symm
      have hall : c.track.cursor + dueCount c.track = steps.length := by omega
      rw [tick_at_end hplays (by rw [hsteps]; omega), hloop]
      cases loop
      · have hp0 : p = 0 := again.resolve_right (fun ha => nomatch ha.1)
        subst hp0
        refine .ended rfl Bool.false_ne_true ?_ ?_
        · dsimp only
          push_cast
          omega
        · dsimp only
          rw [happlied, Nat.add_assoc, hall, Nat.zero_mul, Nat.zero_add]
      · have hfirst : 0 < sampleAt steps 0 := by
          refine (hok rfl).resolve_right (fun hle => ?_)
          have : 0 ≤ (p : Int) * passLength steps := mul_nonneg (Int.natCast_nonneg p) h.passLength_nonneg
          omega
        refine .passing (p + 1) hsteps hloop hplays (Or.inr ⟨rfl, Int.one_pos⟩) ?_ h.pos
          (fun k hk => absurd hk (Nat.not_lt_zero k)) (fun k _ hk => ?_) ?_
        · change ((c.frame + 1 : Nat) : Int) = ((p + 1 : Nat) : Int) * passLength steps + 1
          push_cast
          rw [add_mul]
          omega
        · have := h.sampleAt_mono (Nat.zero_le k) hk
          change (1 : Int) ≤ sampleAt steps k
          omega
        · dsimp only
          rw [happlied, Nat.add_assoc, hall, Nat.succ_mul]
          rfl
  | ended hloop hplays frame applied =>
    rw [tick_stopped hplays]
    exact .ended hloop hplays (by dsimp only; push_cast; omega) applied

theorem Met.ticks (h : Schedule steps) {c : Clock} (hc : Met steps loop c) : ∀ {n : Nat},
    (loop = true → 0 < sampleAt steps 0 ∨ ((c.frame + n : Nat) : Int) ≤ passLength steps) →
      Met steps loop (Clock.tick^[n] c) ∧ (Clock.tick^[n] c).frame = c.frame + n
  | 0, _       => ⟨hc, rfl⟩
  | n + 1, hok => by
    obtain ⟨ih, hframe⟩ := hc.ticks h (n := n) (fun hl => (hok hl).imp id (fun hle => by omega))
    rw [Function.iterate_succ_apply']
    refine ⟨ih.tick h (fun hl => (hok hl).imp id (fun hle => ?_)), ?_⟩
    · rw [hframe]
      omega
    · unfold Clock.tick Clock.advance Clock.due
      dsimp only
      split
      · exact congrArg (· + 1) hframe
      · exact congrArg (· + 1) hframe

/-- In the middle of pass `p` the steps of earlier passes are behind, and those of this one that are before the position. -/
theorem dueFrame_lt_iff (h : Schedule steps) {p cursor : Nat} {position : Int} (again : p = 0 ∨ loop = true ∧ 0 < position)
    (hcursor : cursor < steps.length) (behind : ∀ k < cursor, sampleAt steps k < position)
    (ahead : ∀ k, cursor ≤ k → k < steps.length → position ≤ sampleAt steps k) (j : Nat) :
    j < p * steps.length + cursor ↔
      (loop = true ∨ j < steps.length) ∧ dueFrame steps j < p * passLength steps + position := by
  have hmod : j % steps.length < steps.length := Nat.mod_lt _ h.pos
  have hj : j / steps.length * steps.length + j % steps.length = j := Nat.div_add_mod' j steps.length
  have hL := h.passLength_nonneg
  unfold dueFrame
  generalize j / steps.length = q at hj ⊢
  generalize j % steps.length = k at hj hmod ⊢
  have hsk := h.le_passLength hmod
  have hsk0 := h.sampleAt_nonneg hmod
  rcases Nat.lt_trichotomy q p with hlt | rfl | hgt
  · have hpl := Nat.mul_le_mul_right steps.length hlt
    have hpL := mul_le_mul_of_nonneg_right (Int.ofNat_le.2 hlt) hL
    rw [Nat.succ_mul] at hpl
    push_cast at hpL
    rw [add_mul, one_mul] at hpL
    obtain ⟨hloop, hpos⟩ := again.resolve_left (by omega)
    exact ⟨fun _ => ⟨Or.inl hloop, by omega⟩, fun _ => by omega⟩
  · have hk : k < cursor ↔ sampleAt steps k < position :=
      ⟨behind k, fun hs => by by_contra hc; have := ahead k (not_lt.1 hc) hmod; omega⟩
    have hagain : loop = true ∨ j < steps.length := by
      rcases again with rfl | hl
      · exact Or.inr (by rw [Nat.zero_mul] at hj; omega)
      · exact Or.inl hl.1
    exact ⟨fun hlt => ⟨hagain, by have := hk.1 (by omega); omega⟩, fun hr => by have := hk.2 (by omega); omega⟩
  · have hql := Nat.mul_le_mul_right steps.length hgt
    have hqL := mul_le_mul_of_nonneg_right (Int.ofNat_le.2 hgt) hL
    rw [Nat.succ_mul] at hql
    push_cast at hqL
    rw [add_mul, one_mul] at hqL
    have := ahead cursor le_rfl hcursor
    have := h.le_passLength hcursor
    exact ⟨fun hlt => by omega, fun hr => by omega⟩

theorem Met.getElem? (h : Schedule steps) {c : Clock} (hc : Met steps loop c) (j : Nat) : c.applied[j]? =
    if (loop = true ∨ j < steps.length) ∧ dueFrame steps j < c.frame then
      some ((dueFrame steps j).toNat, j % steps.length) else none := by
  cases hc with
  | passing p hsteps hloop hplays again frame cursor behind ahead applied =>
    rw [applied, getElem?_met]
    refine if_congr ?_ rfl rfl
    rw [frame]
    exact dueFrame_lt_iff h (again.imp id id) cursor behind ahead j
  | ended hloop hplays frame applied =>
    rw [applied, getElem?_met]
    refine if_congr ⟨fun hlt => ⟨Or.inr hlt, ?_⟩, fun hlt => ?_⟩ rfl rfl
    · unfold dueFrame
      rw [Nat.div_eq_of_lt hlt, Nat.mod_eq_of_lt hlt]
      have := h.le_passLength hlt
      push_cast
      omega
    · exact hlt.1.resolve_left (by rw [hloop]; exact Bool.false_ne_true)

end

end Trio

namespace Trio

theorem Met.length_tick {steps : List Step} (h : Schedule steps) {c : Clock} (hc : Met steps loop c)
    (hframe : (c.frame : Int) = passLength steps) (hloop : loop = true) : c.tick.applied.length = steps.length := by
  cases hc with
  | passing p hsteps _ hplays again frame cursor behind ahead applied =>
    have hL := h.passLength_nonneg
    obtain rfl : p = 0 := by
      by_contra hp
      have hpos := (again.resolve_left hp).2
      have := mul_le_mul_of_nonneg_right (Int.ofNat_le.2 (Nat.pos_of_ne_zero hp)) hL
      push_cast at this
      omega
    obtain ⟨hmax, -, hlater⟩ := dueCount_spec c.track
    rw [hsteps] at hmax hlater
    have hall : c.track.cursor + dueCount c.track = steps.length := by
      by_contra hne
      have hnext := List.getElem?_eq_getElem (show c.track.cursor + dueCount c.track < steps.length by omega)
      have := hlater _ hnext
      have := h.le_passLength (List.getElem?_eq_some_iff.1 hnext).1
      rw [sampleAt_eq hnext] at this
      omega
    rw [tick_at_end hplays (by rw [hsteps]; omega)]
    change (c.applied ++ _).length = _
    rw [applied, List.length_append, length_met, List.length_map, List.length_range']
    omega
  | ended hl _ _ _ => rw [hl] at hloop; exact nomatch hloop

/-! ## From the start -/

/-- Tracks started at one moment, from which the frames are counted. -/
structure Started (s : Trio) : Prop where
  frame : s.frame = 0
  log : s.log = []
  tracks : ∀ t, (s.tracks t).playing →
    (s.tracks t).cursor = 0 ∧ (s.tracks t).position = 0 ∧ Schedule (s.tracks t).steps

theorem schedule_sorted (u : Unicode) {source : Text} {t : Tune} (h : parseABC u source = some t) {rate : Int}
    (hr : 0 ≤ rate) {steps : List Step} (hs : schedule t rate = some steps) (hne : steps ≠ []) : Schedule steps := by
  obtain ⟨hnotes, hchips, htempo⟩ := parseABC_ok u h
  obtain ⟨-, rfl⟩ := (schedule_eq_some hr htempo (fun c hc => (hchips c hc).1) hnotes).1 hs
  have hsample {tick : Int} (ht : 0 ≤ tick) : 0 ≤ sampleOf (t.bpm * perBeatValue t) rate tick := by
    unfold sampleOf
    split
    · exact le_rfl
    · have := mul_nonneg ht hr
      exact Int.ediv_nonneg (by omega) (by omega)
  refine ⟨hne, ?_, fun step hstep => ?_⟩
  · refine List.pairwise_map.2 ((ordered_pairwise _).imp (fun {a b} hab => ?_))
    rcases before_iff.1 hab with h | h
    · exact h.le
    · exact h.1.le
  · obtain ⟨⟨step, i⟩, hmem, rfl⟩ := List.mem_map.1 hstep
    rcases List.mem_append.1 (List.mem_of_getElem? (mem_ordered.1 hmem)) with hc | hn
    · obtain ⟨c, hmemc, rfl⟩ := List.mem_map.1 hc
      exact hsample (hchips c hmemc).1
    obtain ⟨n, hn, hpair⟩ := List.mem_flatMap.1 hn
    have hon := hsample (hnotes n hn).tick
    rcases List.mem_pair.1 hpair with rfl | rfl
    · exact hon
    · exact hon.trans (lt_releaseSample _ _ _ n).le

theorem Started.play {s s' : Trio} (h : Started s) (u : Unicode) {source : Text} {track : Int} {loop : Bool} {notes : Nat}
    {warnings : List String} (hs : s.play u source track loop = some (s', notes, warnings)) : Started s' := by
  obtain ⟨tune, htune, hs⟩ := Option.bind_eq_some_iff.1 hs
  obtain ⟨steps, hsteps, hs⟩ := Option.bind_eq_some_iff.1 hs
  obtain ⟨stranded, -, hs⟩ := Option.bind_eq_some_iff.1 hs
  split at hs
  · rw [← (Prod.mk.inj (Option.some.inj hs)).1]
    refine ⟨h.frame, h.log, fun t hp => ?_⟩
    unfold load at *
    rw [tracks_setTrack] at hp ⊢
    split
    · rename_i ht
      rw [if_pos ht] at hp
      exact ⟨rfl, rfl, schedule_sorted u htune (by decide) hsteps (of_decide_eq_true hp)⟩
    · rename_i ht
      rw [if_neg ht] at hp
      exact h.tracks t hp
  · rw [← (Prod.mk.inj (Option.some.inj hs)).1]
    exact h

theorem Started.ready {s : Trio} (h : Started s) (t : Fin 4) : (clockOf s t).Ready := fun hp => (h.tracks t hp).2.2.ne_nil

theorem Started.met {s : Trio} (h : Started s) {t : Fin 4} (hp : (s.tracks t).playing) :
    Met (s.tracks t).steps (s.tracks t).loop (clockOf s t) := by
  obtain ⟨hcursor, hposition, hs⟩ := h.tracks t hp
  refine .passing 0 rfl rfl hp (Or.inl rfl) ?_ ?_ (fun k hk => ?_) (fun k _ hk => ?_) ?_
  · change (s.frame : Int) = _ * _ + (s.tracks t).position
    rw [h.frame, hposition]
    simp
  · change (s.tracks t).cursor < _
    rw [hcursor]
    exact hs.pos
  · change k < (s.tracks t).cursor at hk
    omega
  · change (s.tracks t).position ≤ _
    rw [hposition]
    exact hs.sampleAt_nonneg hk
  · change appliedBy t s = Trio.met _ (_ + (s.tracks t).cursor)
    unfold appliedBy
    rw [h.log, hcursor, Nat.zero_mul]
    rfl

/-- What is applied is applied before the frame the clock has come to, or a later one. -/
theorem tick_applied (c : Clock) : ∃ more, c.tick.applied = c.applied ++ more ∧ ∀ e ∈ more, e.1 = c.frame := by
  unfold Clock.tick Clock.advance Clock.due
  dsimp only
  split
  · refine ⟨_, rfl, fun e he => ?_⟩
    obtain ⟨i, -, rfl⟩ := List.mem_map.1 he
    rfl
  · exact ⟨[], (List.append_nil _).symm, fun e he => nomatch he⟩

theorem tick_frame (c : Clock) : c.tick.frame = c.frame + 1 := by
  unfold Clock.tick Clock.advance Clock.due
  dsimp only
  split <;> rfl

theorem ticks_applied (c : Clock) : ∀ n : Nat, ∃ more, (Clock.tick^[n] c).applied = c.applied ++ more ∧
    (∀ e ∈ more, c.frame ≤ e.1) ∧ (Clock.tick^[n] c).frame = c.frame + n
  | 0     => ⟨[], (List.append_nil _).symm, fun e he => (nomatch he), rfl⟩
  | n + 1 => by
    obtain ⟨more, happlied, hmore, hframe⟩ := ticks_applied c n
    obtain ⟨now, hnow, heq⟩ := tick_applied (Clock.tick^[n] c)
    rw [Function.iterate_succ_apply', tick_frame, hframe, hnow, happlied, List.append_assoc]
    refine ⟨_, rfl, fun e he => ?_, rfl⟩
    rcases List.mem_append.1 he with h | h
    · exact hmore e h
    · have := heq e h
      omega

/-- **The steps are met to the sample**, however `n` frames are cut into buffers. -/
def Exact (s : Trio) (n : Nat) : Prop := ∀ parts : List (Idle × Nat), (parts.map Prod.snd).sum = n →
  ∀ t j, (appliedBy t (s.renderAll parts))[j]? = dueApplied (s.tracks t) n j

theorem appliedBy_renderAll {s : Trio} (h : Started s) (parts : List (Idle × Nat)) (t : Fin 4) :
    appliedBy t (s.renderAll parts) = (Clock.tick^[(parts.map Prod.snd).sum] (clockOf s t)).applied := by
  rw [← clockOf_renderAll h.ready t]
  rfl

theorem not_exact {s : Trio} (h : Started s) {t : Fin 4} (hp : (s.tracks t).playing) (hl : (s.tracks t).loop)
    (hfirst : sampleAt (s.tracks t).steps 0 = 0) {n : Nat} (hn : passLength (s.tracks t).steps < n) : ¬ Exact s n := by
  intro hex
  obtain ⟨-, -, hs⟩ := h.tracks t hp
  obtain ⟨L, hL⟩ := Int.eq_ofNat_of_zero_le hs.passLength_nonneg
  have hframe0 : (clockOf s t).frame = 0 := h.frame
  -- before the last frame of the first pass nothing is late
  obtain ⟨hmet, hframe⟩ := (h.met hp).ticks hs (n := L) (fun _ => Or.inr (by rw [hframe0, hL]; omega))
  rw [hframe0, Nat.zero_add] at hframe
  have hpass := hmet.length_tick hs (by rw [hframe, hL]) hl
  -- and what comes behind it comes a frame later
  obtain ⟨more, happlied, hmore, -⟩ := ticks_applied (Clock.tick^[L] (clockOf s t)).tick (n - (L + 1))
  rw [tick_frame, hframe] at hmore
  rw [← Function.iterate_succ_apply' Clock.tick, ← Function.iterate_add_apply,
    show n - (L + 1) + L.succ = n by omega] at happlied
  rw [← Function.iterate_succ_apply' Clock.tick] at hpass
  have hdue := hex [(fun _ _ _ _ _ => false, n)] (Nat.add_zero n) t (s.tracks t).steps.length
  have hframe' : dueFrame (s.tracks t).steps (s.tracks t).steps.length = L := by
    unfold dueFrame
    rw [Nat.div_self hs.pos, Nat.mod_self, hfirst, hL]
    simp
  rw [appliedBy_renderAll h, show ([(fun _ _ _ _ _ => false, n)] : List (Idle × Nat)).map Prod.snd = [n] from rfl,
    List.sum_singleton, happlied, List.getElem?_append_right (by omega), hpass, Nat.sub_self] at hdue
  unfold dueApplied at hdue
  rw [hframe', if_pos ⟨hp, Or.inl hl, by omega⟩] at hdue
  have := hmore _ (List.mem_of_getElem? hdue)
  omega

/-- **A track's steps are met to the sample exactly if no pass but the first has a step at its very start.** -/
theorem exact_iff {s : Trio} (h : Started s) (n : Nat) : Exact s n ↔
    ∀ t, (s.tracks t).playing → (s.tracks t).loop →
      sampleAt (s.tracks t).steps 0 ≠ 0 ∨ (n : Int) ≤ passLength (s.tracks t).steps := by
  refine ⟨fun hex t hp hl => ?_, fun hok parts hsum t j => ?_⟩
  · by_contra hno
    obtain ⟨hfirst, hlen⟩ := not_or.1 hno
    exact not_exact h hp hl (not_not.1 hfirst) (not_le.1 hlen) hex
  · rw [appliedBy_renderAll h, hsum]
    unfold dueApplied
    have hframe0 : (clockOf s t).frame = 0 := h.frame
    by_cases hp : (s.tracks t).playing
    · obtain ⟨-, -, hs⟩ := h.tracks t hp
      obtain ⟨hmet, hframe⟩ := (h.met hp).ticks hs (n := n) (fun hl => (hok t hp hl).imp
        (fun hne => by have := hs.sampleAt_nonneg hs.pos; omega) (fun hle => by rw [hframe0]; push_cast; omega))
      rw [hmet.getElem? hs, hframe, hframe0, Nat.zero_add]
      exact if_congr ⟨fun hr => ⟨hp, hr⟩, fun hr => hr.2⟩ rfl rfl
    have hnone : (Clock.tick^[n] (clockOf s t)).applied = [] ∧ ¬ (Clock.tick^[n] (clockOf s t)).track.playing := by
      clear hsum
      induction n with
      | zero => exact ⟨by unfold clockOf appliedBy; rw [h.log]; rfl, hp⟩
      | succ n ih =>
        obtain ⟨h1, h2⟩ := ih (fun t hp hl => (hok t hp hl).imp id (fun hle => by omega))
        rw [Function.iterate_succ_apply', tick_stopped h2]
        exact ⟨h1, h2⟩
    rw [hnone.1, if_neg (fun hr => hp hr.1)]
    rfl

end Trio

namespace Trio

def oneNoteTune : Tune := (parseABC .plain oneNote).get (by decide)

def repeated : Trio := ({} : Trio).load (sourceSteps oneNoteTune kChipSampleRate) 0 true

theorem play_repeated : ({} : Trio).play .plain oneNote 0 true = some (repeated, 1, []) := by
  have hparse : parseABC .plain oneNote = some oneNoteTune := (Option.some_get _).symm
  have hsorted : ordered (sourceSteps oneNoteTune kChipSampleRate) = (sourceSteps oneNoteTune kChipSampleRate).zipIdx :=
    ordered_of_sorted (by decide)
  have hschedule : schedule oneNoteTune kChipSampleRate = some (sourceSteps oneNoteTune kChipSampleRate) := by
    obtain ⟨hnotes, hchips, htempo⟩ := parseABC_ok .plain hparse
    refine (schedule_eq_some (by decide) htempo (fun c hc => (hchips c hc).1) hnotes).2
      ⟨⟨by decide, by decide, by decide⟩, ?_⟩
    rw [hsorted, List.zipIdx_map_fst]
  have hstranded : strandedSettings oneNoteTune = some [] := by decide
  have hnotes : oneNoteTune.notes.length = 1 := by decide
  have hwarnings : oneNoteTune.barWarnings = [] := by decide
  unfold play
  rw [hparse]
  simp only [Option.bind_eq_bind, Option.bind_some, hschedule, hstranded, hnotes, hwarnings]
  rfl

theorem started_repeated : Started repeated :=
  Started.play (s := {}) ⟨rfl, rfl, fun _ hp => (nomatch hp)⟩ .plain play_repeated

/-- The note is struck again a frame behind its release, and belongs before the same. -/
theorem repeated_late : ¬ ∀ s, Started s → ∀ n, Exact s n := fun h =>
  not_exact started_repeated (t := 0) (by decide) (by decide) (by decide)
    (show passLength _ < ((11401 : Nat) : Int) by decide) (h repeated started_repeated 11401)

theorem exact_iff_repeated : Exact repeated 11400 :=
  (exact_iff started_repeated 11400).2 (by decide)

end Trio

end Chip
end Prose
