import Prose.TrioModel
import Mathlib.Data.Fintype.Card
import Mathlib.Data.List.Perm.Subperm
/-!
# TrioVoices — who holds which voice

A schedule releases what it strikes, and no release comes before its strike, so that behind any point of it there are at
least as many releases of a pitch as strikes.  A track never holds more voices on a pitch than it has still to release
there, whatever the others steal from it.
-/
namespace Prose
namespace Chip

open List

/-! ## Schedules that release what they strike -/

def strikes (chip : Fin 3) (midi : Int) (s : Step) : Bool :=
  s.kind = .noteOn ∧ Trio.chipOf s.voice = chip ∧ s.midi = midi

def releases (chip : Fin 3) (midi : Int) (s : Step) : Bool :=
  s.kind = .noteOff ∧ Trio.chipOf s.voice = chip ∧ s.midi = midi

/-- By how many the releases of a pitch on a chip outnumber its strikes. -/
def ahead (chip : Fin 3) (midi : Int) (steps : List Step) : Int :=
  (steps.countP (releases chip midi) : Int) - steps.countP (strikes chip midi)

structure Balanced (steps : List Step) : Prop where
  rest : ∀ k chip midi, 0 ≤ ahead chip midi (steps.drop k)
  whole : ∀ chip midi, ahead chip midi steps = 0

/-- Where each of some elements has one of others at the next place, the others are as many. -/
theorem countP_le_of_next {α : Type} {l : List (α × Nat)} (hl : (l.map Prod.snd).Nodup) {p q : α × Nat → Bool}
    (h : ∀ a ∈ l, p a → ∃ b ∈ l, q b ∧ b.2 = a.2 + 1) : l.countP p ≤ l.countP q := by
  have hnodup : ((l.filter p).map (fun a => a.2 + 1)).Nodup := by
    have hp : ((l.filter p).map Prod.snd).Nodup := hl.sublist (filter_sublist.map _)
    have := hp.map (f := (· + 1)) (fun _ _ => Nat.succ.inj)
    rwa [map_map] at this
  have hsub : (l.filter p).map (fun a => a.2 + 1) ⊆ (l.filter q).map Prod.snd := by
    intro i hi
    obtain ⟨a, ha, rfl⟩ := mem_map.1 hi
    obtain ⟨hal, hpa⟩ := mem_filter.1 ha
    obtain ⟨b, hb, hqb, he⟩ := h a hal hpa
    exact mem_map.2 ⟨b, mem_filter.2 ⟨hb, hqb⟩, he⟩
  have := (subperm_of_subset hnodup hsub).length_le
  rw [length_map, length_map] at this
  rwa [countP_eq_length_filter, countP_eq_length_filter]

section

variable {t : Tune} {rate : Int}

theorem source_cases {i : Nat} {s : Step} (h : (sourceSteps t rate)[i]? = some s) :
    s.kind = .chip ∨ ∃ j n, t.notes[j]? = some n ∧
      (i = strikeAt t j ∧ s = strikeStep (t.bpm * perBeatValue t) rate n ∨
        i = releaseAt t j ∧ s = releaseStep (t.bpm * perBeatValue t) rate (perBeatValue t) n) := by
  have hi := (List.getElem?_eq_some_iff.1 h).1
  rw [length_sourceSteps] at hi
  by_cases hc : i < t.chips.length
  · rw [getElem?_register (getElem?_eq_getElem hc)] at h
    rw [← Option.some.inj h]
    exact Or.inl rfl
  have hj : (i - t.chips.length) / 2 < t.notes.length := by omega
  refine Or.inr ⟨(i - t.chips.length) / 2, _, getElem?_eq_getElem hj, ?_⟩
  rcases Nat.mod_two_eq_zero_or_one (i - t.chips.length) with h0 | h1
  · have he : i = strikeAt t ((i - t.chips.length) / 2) := by unfold strikeAt; omega
    rw [he, getElem?_strike (getElem?_eq_getElem hj)] at h
    exact Or.inl ⟨he, (Option.some.inj h).symm⟩
  · have he : i = releaseAt t ((i - t.chips.length) / 2) := by unfold releaseAt; omega
    rw [he, getElem?_release (getElem?_eq_getElem hj)] at h
    exact Or.inr ⟨he, (Option.some.inj h).symm⟩

/-- Behind any point of the schedule a strike has its release at the next place of the source. -/
theorem release_behind {k : Nat} {a : Step × Nat} (ha : a ∈ (ordered (sourceSteps t rate)).drop k) {chip : Fin 3}
    {midi : Int} (hs : strikes chip midi a.1) :
    ∃ b ∈ (ordered (sourceSteps t rate)).drop k, releases chip midi b.1 ∧ b.2 = a.2 + 1 := by
  obtain ⟨s, i⟩ := a
  obtain ⟨hkind, hchip, hmidi⟩ := of_decide_eq_true hs
  rcases source_cases (mem_ordered.1 (mem_of_mem_drop ha)) with hc | ⟨j, n, hn, ⟨rfl, rfl⟩ | ⟨rfl, rfl⟩⟩
  · rw [show s.kind = .chip from hc] at hkind
    exact nomatch hkind
  · have hrel := mem_ordered.2 (@getElem?_release t rate j n hn)
    refine ⟨(releaseStep (t.bpm * perBeatValue t) rate (perBeatValue t) n, releaseAt t j), ?_, decide_eq_true ⟨rfl, hchip, hmidi⟩, rfl⟩
    rw [← take_append_drop k (ordered (sourceSteps t rate)), mem_append] at hrel
    refine hrel.resolve_left (fun hb => ?_)
    have hsorted := ordered_pairwise (sourceSteps t rate)
    rw [← take_append_drop k (ordered (sourceSteps t rate)), pairwise_append] at hsorted
    have hba := before_iff.1 (hsorted.2.2 _ hb _ ha)
    have hlt := lt_releaseSample (t.bpm * perBeatValue t) rate (perBeatValue t) n
    change releaseSample _ _ _ _ < sampleOf _ _ _ ∨ releaseSample _ _ _ _ = sampleOf _ _ _ ∧ _ at hba
    omega
  · exact nomatch hkind

theorem ahead_sourceNotes (denom perBeat : Int) (chip : Fin 3) (midi : Int) : ∀ notes : List Note,
    ahead chip midi (notes.flatMap (fun n => [strikeStep denom rate n, releaseStep denom rate perBeat n])) = 0
  | []         => rfl
  | n :: notes => by
    have ih := ahead_sourceNotes denom perBeat chip midi notes
    have hs : strikes chip midi (strikeStep denom rate n) = releases chip midi (releaseStep denom rate perBeat n) := by
      unfold strikes releases strikeStep releaseStep
      simp
    have h0 : strikes chip midi (releaseStep denom rate perBeat n) = false := by
      unfold strikes releaseStep
      simp
    have h1 : releases chip midi (strikeStep denom rate n) = false := by
      unfold releases strikeStep
      simp
    unfold ahead at *
    rw [flatMap_cons, countP_append, countP_append]
    simp only [countP_cons, countP_nil, hs, h0, h1]
    omega

theorem ahead_sourceSteps (chip : Fin 3) (midi : Int) : ahead chip midi (sourceSteps t rate) = 0 := by
  have hnotes := @ahead_sourceNotes rate (t.bpm * perBeatValue t) (perBeatValue t) chip midi t.notes
  have hstrike : (t.chips.map (registerStep (t.bpm * perBeatValue t) rate)).countP (strikes chip midi) = 0 := by
    rw [countP_map, countP_eq_zero]
    exact fun c _ => by simp [strikes, registerStep]
  have hrelease : (t.chips.map (registerStep (t.bpm * perBeatValue t) rate)).countP (releases chip midi) = 0 := by
    rw [countP_map, countP_eq_zero]
    exact fun c _ => by simp [releases, registerStep]
  unfold ahead sourceSteps at *
  rw [countP_append, countP_append, hstrike, hrelease, Nat.zero_add, Nat.zero_add]
  exact hnotes

/-- **A schedule releases what it strikes, and behind every point of it what was struck before.** -/
theorem balanced_ordered : Balanced ((ordered (sourceSteps t rate)).map Prod.fst) where
  rest k chip midi := by
    have hnodup : (((ordered (sourceSteps t rate)).drop k).map Prod.snd).Nodup := by
      have := ((ordered_perm (sourceSteps t rate)).map Prod.snd).nodup_iff.2 (places_nodup _)
      exact this.sublist ((drop_sublist k _).map _)
    have hle := countP_le_of_next hnodup (fun a ha hs => @release_behind t rate k a ha chip midi hs)
    unfold ahead
    rw [← map_drop, countP_map, countP_map]
    change List.countP (strikes chip midi ∘ Prod.fst) _ ≤ List.countP (releases chip midi ∘ Prod.fst) _ at hle
    omega
  whole chip midi := by
    have hperm : ((ordered (sourceSteps t rate)).map Prod.fst).Perm (sourceSteps t rate) := by
      have := (ordered_perm (sourceSteps t rate)).map Prod.fst
      rwa [zipIdx_map_fst] at this
    unfold ahead
    rw [hperm.countP_eq, hperm.countP_eq]
    exact ahead_sourceSteps chip midi

end

theorem balanced_schedule (u : Unicode) {source : Text} {t : Tune} (h : parseABC u source = some t) {rate : Int}
    (hr : 0 ≤ rate) {steps : List Step} (hs : schedule t rate = some steps) : Balanced steps := by
  obtain ⟨hnotes, hchips, htempo⟩ := parseABC_ok u h
  obtain ⟨-, rfl⟩ := (schedule_eq_some hr htempo (fun c hc => (hchips c hc).1) hnotes).1 hs
  exact balanced_ordered

/-! ## Voices held -/

theorem ahead_cons (chip : Fin 3) (midi : Int) (s : Step) (steps : List Step) :
    ahead chip midi (s :: steps) = ahead chip midi steps + (if releases chip midi s then 1 else 0 : Nat) -
      (if strikes chip midi s then 1 else 0 : Nat) := by
  unfold ahead
  rw [countP_cons, countP_cons]
  omega

theorem releases_add_strikes_le (chip : Fin 3) (midi : Int) (s : Step) :
    (if releases chip midi s then 1 else 0) + (if strikes chip midi s then 1 else 0) ≤ 1 := by
  unfold releases strikes
  cases s.kind <;> simp <;> split <;> decide

theorem exists_release {chip : Fin 3} {midi : Int} {steps : List Step} (h : 0 < ahead chip midi steps) :
    ∃ s ∈ steps, s.kind = .noteOff ∧ Trio.chipOf s.voice = chip ∧ s.midi = midi := by
  unfold ahead at h
  obtain ⟨s, hs, hr⟩ := countP_pos_iff.1 (show 0 < steps.countP (releases chip midi) by omega)
  exact ⟨s, hs, of_decide_eq_true hr⟩

namespace Trio

theorem mem_voices : ∀ v : Fin 3, v ∈ [0, 1, 2] := by decide

def held (s : Trio) (t : Fin 4) (chip : Fin 3) (midi : Int) : Nat :=
  (Finset.univ.filter (fun v => (s.macros chip v).note = midi ∧ (s.macros chip v).owner = (t : Nat))).card

theorem macros_setMacros (s : Trio) (chip c v x : Fin 3) (m : Macros) :
    (s.setMacros chip v m).macros c x = if c = chip ∧ x = v then m else s.macros c x := by
  unfold setMacros
  dsimp only
  by_cases hc : c = chip
  · subst hc
    rw [Function.update_self]
    by_cases hx : x = v
    · subst hx
      rw [Function.update_self, if_pos ⟨rfl, rfl⟩]
    · rw [Function.update_of_ne hx, if_neg (fun h => hx h.2)]
  · rw [Function.update_of_ne hc, if_neg (fun h => hc h.1)]

/-- A voice that is given a note is one more for the note's owner at most, and none more for the others. -/
theorem held_setMacros_le (s : Trio) (chip v : Fin 3) (m : Macros) (t : Fin 4) (c : Fin 3) (midi : Int) :
    (s.setMacros chip v m).held t c midi ≤
      s.held t c midi + if c = chip ∧ m.note = midi ∧ m.owner = (t : Nat) then 1 else 0 := by
  unfold held
  split
  · refine (Finset.card_le_card fun x hx => ?_).trans (Finset.card_insert_le v _)
    rw [Finset.mem_filter, macros_setMacros] at hx
    rw [Finset.mem_insert, Finset.mem_filter]
    by_cases hxv : x = v
    · exact Or.inl hxv
    · rw [if_neg (fun h => hxv h.2)] at hx
      exact Or.inr hx
  · rename_i hm
    rw [Nat.add_zero]
    refine Finset.card_le_card fun x hx => ?_
    rw [Finset.mem_filter, macros_setMacros] at hx
    rw [Finset.mem_filter]
    split at hx
    · rename_i he
      exact absurd ⟨he.1, hx.2⟩ hm
    · exact hx

theorem held_setMacros_lt (s : Trio) {chip v : Fin 3} {m : Macros} {t : Fin 4} {midi : Int}
    (hold : (s.macros chip v).note = midi ∧ (s.macros chip v).owner = (t : Nat))
    (hnew : ¬ (m.note = midi ∧ m.owner = (t : Nat))) :
    (s.setMacros chip v m).held t chip midi < s.held t chip midi := by
  unfold held
  refine Finset.card_lt_card (Finset.ssubset_iff_of_subset (fun x hx => ?_) |>.2 ⟨v, ?_, ?_⟩)
  · rw [Finset.mem_filter, macros_setMacros] at hx
    rw [Finset.mem_filter]
    split at hx
    · exact absurd hx.2 hnew
    · exact hx
  · exact Finset.mem_filter.2 ⟨Finset.mem_univ v, hold⟩
  · rw [Finset.mem_filter, macros_setMacros, if_pos ⟨rfl, rfl⟩]
    exact fun h => hnew h.2

theorem held_pos {s : Trio} {t : Fin 4} {chip v : Fin 3} (h : (s.macros chip v).owner = (t : Nat)) :
    0 < s.held t chip (s.macros chip v).note :=
  Finset.card_pos.2 ⟨v, Finset.mem_filter.2 ⟨Finset.mem_univ v, rfl, h⟩⟩

theorem held_eq_zero {s : Trio} {t : Fin 4} {chip : Fin 3} {midi : Int}
    (h : ∀ v, ¬ ((s.macros chip v).note = midi ∧ (s.macros chip v).owner = (t : Nat))) : s.held t chip midi = 0 :=
  Finset.card_eq_zero.2 (Finset.filter_eq_empty_iff.2 (fun {v} _ => h v))

/-! ## The invariant -/

def owed (track : Track) (chip : Fin 3) (midi : Int) : Int :=
  if track.playing then ahead chip midi (track.steps.drop track.cursor) else 0

/-- **No voice is held that is not owed**, by the tracks of `s`. -/
structure Sound (s : Trio) : Prop where
  owners : ∀ c v, s.macros c v = released (s.macros c v) ∨ ∃ t : Fin 4, (s.macros c v).owner = (t : Nat)
  held : ∀ t c midi, (s.held t c midi : Int) ≤ owed (s.tracks t) c midi
  balanced : ∀ t, (s.tracks t).playing → Balanced (s.tracks t).steps

theorem sound_start (reference : Bool) : Sound { referenceAllocation := reference } where
  owners _ _ := Or.inl rfl
  held t c midi := by
    rw [held_eq_zero (fun v h => ?_)]
    · exact le_rfl
    · have : (-1 : Int) = (t : Nat) := h.2
      omega
  balanced _ h := nomatch h

theorem tracks_setTrack (s : Trio) (t : Fin 4) (track : Track) (x : Fin 4) :
    (s.setTrack t track).tracks x = if x = t then track else s.tracks x := by
  unfold setTrack
  dsimp only
  by_cases hx : x = t
  · subst hx
    rw [Function.update_self, if_pos rfl]
  · rw [Function.update_of_ne hx, if_neg hx]

theorem Sound.setTrack {s : Trio} {t : Fin 4} {track : Track} (howners : ∀ c v, s.macros c v = released (s.macros c v) ∨
      ∃ t : Fin 4, (s.macros c v).owner = (t : Nat))
    (hothers : ∀ x, x ≠ t → (∀ c midi, (s.held x c midi : Int) ≤ owed (s.tracks x) c midi) ∧
      ((s.tracks x).playing → Balanced (s.tracks x).steps))
    (hheld : ∀ c midi, (s.held t c midi : Int) ≤ owed track c midi) (hbal : track.playing → Balanced track.steps) :
    Sound (s.setTrack t track) where
  owners := howners
  held x c midi := by
    rw [tracks_setTrack]
    split
    · rename_i h
      subst h
      exact hheld c midi
    · rename_i h
      exact (hothers x h).1 c midi
  balanced x := by
    rw [tracks_setTrack]
    split
    · exact hbal
    · rename_i h
      exact (hothers x h).2

/-! ## What a step of a schedule keeps -/

theorem owners_setMacros {s : Trio} (h : Sound s) (chip v : Fin 3) {m : Macros}
    (hm : m = released m ∨ ∃ t : Fin 4, m.owner = (t : Nat)) (c x : Fin 3) :
    (s.setMacros chip v m).macros c x = released ((s.setMacros chip v m).macros c x) ∨
      ∃ t : Fin 4, ((s.setMacros chip v m).macros c x).owner = (t : Nat) := by
  rw [macros_setMacros]
  split
  · exact hm
  · exact h.owners c x

/-- What the voices of `s` become by a step of track `t`: none more than is released less than before. -/
structure Stepped (s s' : Trio) (t : Fin 4) (step : Step) : Prop where
  tracks : s'.tracks = s.tracks
  owners : ∀ c v, s'.macros c v = released (s'.macros c v) ∨ ∃ t : Fin 4, (s'.macros c v).owner = (t : Nat)
  others : ∀ x, x ≠ t → ∀ c midi, s'.held x c midi ≤ s.held x c midi
  own : ∀ c midi, s'.held t c midi ≤ s.held t c midi - (if releases c midi step then 1 else 0) +
    (if strikes c midi step then 1 else 0)

theorem stepped_noteOn {s : Trio} (h : Sound s) (idle : Fin 3 → Fin 3 → Bool) {step : Step} (hk : step.kind = .noteOn)
    (t : Fin 4) : Stepped s (s.applyNoteOn idle step.voice step.midi t) t step where
  tracks := rfl
  owners := owners_setMacros h _ _ (Or.inr ⟨t, rfl⟩)
  others x hx c midi := by
    refine (held_setMacros_le s _ _ _ x c midi).trans ?_
    rw [if_neg (fun he => hx (Fin.ext (Int.ofNat_inj.1 he.2.2)).symm), Nat.add_zero]
  own c midi := by
    refine (held_setMacros_le s _ _ _ t c midi).trans ?_
    have hr : releases c midi step = false := by simp [releases, hk]
    rw [hr, if_neg Bool.false_ne_true, Nat.sub_zero]
    by_cases hs : chipOf step.voice = c ∧ step.midi = midi
    · rw [if_pos ⟨hs.1.symm, hs.2, rfl⟩, if_pos (show strikes c midi step = true from decide_eq_true ⟨hk, hs⟩)]
    · rw [if_neg (fun he => hs ⟨he.1.symm, he.2.1⟩)]
      exact Nat.le_add_right _ _

theorem stepped_noteOff {s : Trio} (h : Sound s) {step : Step} (hk : step.kind = .noteOff) (t : Fin 4) :
    Stepped s (s.applyNoteOff step.voice step.midi t) t step := by
  have hs (c : Fin 3) (midi : Int) : strikes c midi step = false := by simp [strikes, hk]
  have hgone (c : Fin 3) (x : Fin 4) (m : Macros) (midi : Int) :
      ¬ (c = chipOf step.voice ∧ (released m).note = midi ∧ (released m).owner = (x : Nat)) := by
    rintro ⟨-, -, ho⟩
    change (-1 : Int) = _ at ho
    omega
  unfold applyNoteOff
  dsimp only
  split
  · rename_i v hv
    have hfound := of_decide_eq_true (show decide ((s.macros (chipOf step.voice) v).note = step.midi ∧
      (s.macros (chipOf step.voice) v).owner = (t : Nat)) = true by
        rw [← find?_some hv, Bool.decide_and])
    have hle (x : Fin 4) (c : Fin 3) (midi : Int) := held_setMacros_le s (chipOf step.voice) v
      (released (s.macros (chipOf step.voice) v)) x c midi
    refine ⟨rfl, owners_setMacros h _ _ (Or.inl rfl), fun x _ c midi => ?_, fun c midi => ?_⟩
    · have := hle x c midi
      rwa [if_neg (hgone c x _ midi)] at this
    · have hc := hle t c midi
      rw [if_neg (hgone c t _ midi)] at hc
      rw [hs c midi]
      by_cases hr : releases c midi step = true
      · obtain ⟨-, rfl, rfl⟩ := of_decide_eq_true hr
        have := held_setMacros_lt s (m := released (s.macros (chipOf step.voice) v)) hfound
          (fun he => hgone _ t _ _ ⟨rfl, he⟩)
        rw [if_pos hr, if_neg (by decide)]
        omega
      · rw [if_neg hr, if_neg (by decide)]
        omega
  · rename_i hnone
    refine ⟨rfl, h.owners, fun _ _ _ _ => le_rfl, fun c midi => ?_⟩
    rw [hs c midi]
    by_cases hr : releases c midi step = true
    · obtain ⟨-, rfl, rfl⟩ := of_decide_eq_true hr
      have hno : s.held t (chipOf step.voice) step.midi = 0 := held_eq_zero (fun v hv => by
        have := find?_eq_none.1 hnone v (mem_voices v)
        rw [decide_eq_true hv.1, decide_eq_true hv.2] at this
        exact this rfl)
      omega
    · rw [if_neg hr, if_neg (by decide)]
      omega

/-- **A step that is applied keeps the voices owed.** -/
theorem Stepped.sound {s s' : Trio} {t : Fin 4} {step : Step} (hs : Stepped s s' t step) (h : Sound s)
    (hp : (s.tracks t).playing) (hstep : (s.tracks t).steps[(s.tracks t).cursor]? = some step) :
    Sound (s'.setTrack t { s'.tracks t with cursor := (s.tracks t).cursor + 1 }) := by
  obtain ⟨hlt, he⟩ := List.getElem?_eq_some_iff.1 hstep
  rw [hs.tracks]
  refine Sound.setTrack hs.owners (fun x hx => ⟨fun c midi => ?_, ?_⟩) (fun c midi => ?_) (fun _ => h.balanced t hp)
  · have := h.held x c midi
    have := hs.others x hx c midi
    rw [hs.tracks]
    omega
  · rw [hs.tracks]
    exact h.balanced x
  · have hrest := (h.balanced t hp).rest ((s.tracks t).cursor + 1) c midi
    have hheld := h.held t c midi
    have hown := hs.own c midi
    unfold owed at *
    rw [if_pos hp, drop_eq_getElem_cons hlt, he, ahead_cons] at hheld
    rw [if_pos hp]
    change (s'.held t c midi : Int) ≤ ahead c midi ((s.tracks t).steps.drop ((s.tracks t).cursor + 1))
    have hle := releases_add_strikes_le c midi step
    generalize (if releases c midi step then 1 else 0 : Nat) = r at hheld hown hle
    generalize (if strikes c midi step then 1 else 0 : Nat) = k at hheld hown hle
    omega

theorem Sound.applyStep {s : Trio} (h : Sound s) (idle : Idle) {t : Fin 4} (hp : (s.tracks t).playing) {step : Step}
    (hstep : (s.tracks t).steps[(s.tracks t).cursor]? = some step) : Sound (applyStep idle t step s) := by
  have hlog : Sound { s with log := s.log ++ [Applied.mk s.frame t (s.tracks t).cursor] } :=
    ⟨h.owners, h.held, h.balanced⟩
  unfold Trio.applyStep
  dsimp only
  split
  · rename_i hk
    exact (stepped_noteOn hlog _ hk t).sound hlog hp hstep
  · rename_i hk
    exact (stepped_noteOff hlog hk t).sound hlog hp hstep
  · rename_i hk
    have hnone : Stepped { s with log := s.log ++ [Applied.mk s.frame t (s.tracks t).cursor] }
        { s with log := s.log ++ [Applied.mk s.frame t (s.tracks t).cursor] } t step :=
      ⟨rfl, h.owners, fun _ _ _ _ => le_rfl, fun c midi => by simp [releases, strikes, hk]⟩
    exact hnone.sound hlog hp hstep

/-! ## What each call keeps -/

theorem macros_silence (s : Trio) (track : Int) (c v : Fin 3) : (s.silence track).macros c v =
    if (s.macros c v).owner = track then released (s.macros c v) else s.macros c v := rfl

theorem owner_silence (s : Trio) (t : Fin 4) (c v : Fin 3) : ((s.silence (t : Nat)).macros c v).owner ≠ (t : Nat) := by
  rw [macros_silence]
  split
  · change (-1 : Int) ≠ _
    omega
  · assumption

theorem held_silence_le (s : Trio) (track : Int) (t : Fin 4) (c : Fin 3) (midi : Int) :
    (s.silence track).held t c midi ≤ s.held t c midi := by
  refine Finset.card_le_card fun v hv => ?_
  rw [Finset.mem_filter, macros_silence] at hv
  rw [Finset.mem_filter]
  split at hv
  · have : (-1 : Int) = (t : Nat) := hv.2.2
    omega
  · exact hv

theorem Sound.silenced {s : Trio} (h : Sound s) {t : Fin 4} {track : Track}
    (hbal : track.playing → Balanced track.steps) : Sound ((s.silence (t : Nat)).setTrack t track) := by
  refine Sound.setTrack (fun c v => ?_) (fun x _ => ⟨fun c midi => ?_, h.balanced x⟩) (fun c midi => ?_) hbal
  · rw [macros_silence]
    split
    · exact Or.inl rfl
    · exact h.owners c v
  · have := held_silence_le s (t : Nat) x c midi
    have := h.held x c midi
    change _ ≤ owed (s.tracks x) c midi
    omega
  · rw [held_eq_zero (fun v hv => owner_silence s t c v hv.2)]
    unfold owed
    split
    · rename_i hp
      exact (hbal hp).rest track.cursor c midi
    · exact le_rfl

end Trio

/-! ## Every call -/

namespace Trio

/-- Changes that touch neither the voices nor what is to be played keep the voices owed. -/
theorem Sound.of_same {s s' : Trio} (h : Sound s) (hm : s'.macros = s.macros)
    (ht : ∀ t, (s'.tracks t).steps = (s.tracks t).steps ∧ (s'.tracks t).cursor = (s.tracks t).cursor ∧
      (s'.tracks t).playing = (s.tracks t).playing) : Sound s' where
  owners := by rw [hm]; exact h.owners
  held t c midi := by
    obtain ⟨h1, h2, h3⟩ := ht t
    have := h.held t c midi
    unfold Trio.held owed at *
    rwa [hm, h1, h2, h3]
  balanced t := by
    obtain ⟨h1, -, h3⟩ := ht t
    rw [h1, h3]
    exact h.balanced t

theorem playing_applyStep (idle : Idle) (t : Fin 4) (step : Step) (s : Trio) (x : Fin 4) :
    ((applyStep idle t step s).tracks x).playing = (s.tracks x).playing := by
  unfold applyStep
  dsimp only
  rw [tracks_setTrack]
  have htracks : ∀ s : Trio, (s.applyNoteOff step.voice step.midi t).tracks = s.tracks := fun s => by
    unfold applyNoteOff
    dsimp only
    split <;> rfl
  split
  · rename_i h
    subst h
    split
    · rfl
    · rw [htracks]
    · rfl
  · split
    · rfl
    · rw [htracks]
    · rfl

theorem Sound.applyDue (idle : Idle) (t : Fin 4) : ∀ (fuel : Nat) {s : Trio}, Sound s → (s.tracks t).playing →
    Sound (applyDue idle t fuel s) ∧ ((Trio.applyDue idle t fuel s).tracks t).playing
  | 0, _, h, hp        => ⟨h, hp⟩
  | fuel + 1, s, h, hp => by
    unfold Trio.applyDue
    split
    · rename_i step hstep
      split
      · exact Sound.applyDue idle t fuel (h.applyStep idle hp hstep) (by rw [playing_applyStep]; exact hp)
      · exact ⟨h, hp⟩
    · exact ⟨h, hp⟩

/-- A track at its end has nothing to release, neither when it stops nor when it begins again. -/
theorem owed_endOf {track : Track} (hp : track.playing) (hb : Balanced track.steps) (c : Fin 3) (midi : Int) :
    owed (endOf track) c midi = owed track c midi := by
  unfold endOf
  split
  · rename_i hend
    have hnone : owed track c midi = 0 := by
      unfold owed
      rw [if_pos hp, drop_eq_nil_of_le hend]
      rfl
    rw [hnone]
    unfold owed
    split
    · exact hb.whole c midi
    · rfl
  · rfl

theorem Sound.due {s : Trio} (h : Sound s) (idle : Idle) (t : Fin 4) : Sound (due idle s t) := by
  unfold Trio.due
  split
  · rename_i hp
    obtain ⟨h', hp'⟩ := h.applyDue idle t ((s.tracks t).steps.length + 1) hp
    generalize Trio.applyDue idle t ((s.tracks t).steps.length + 1) s = s' at h' hp'
    refine Sound.setTrack h'.owners (fun x _ => ⟨h'.held x, h'.balanced x⟩) (fun c midi => ?_) (fun _ => ?_)
    · rw [owed_endOf hp' (h'.balanced t hp')]
      exact h'.held t c midi
    · have : (endOf (s'.tracks t)).steps = (s'.tracks t).steps := by
        unfold endOf
        split
        · split <;> rfl
        · rfl
      rw [this]
      exact h'.balanced t hp'
  · exact h

theorem Sound.allDue {s : Trio} (h : Sound s) (idle : Idle) : Sound (s.allDue idle) :=
  ((((h.due idle 0).due idle 1).due idle 2).due idle 3)

theorem Sound.advance {s : Trio} (h : Sound s) (n : Nat) : Sound (s.advance n) := by
  refine h.of_same rfl (fun t => ?_)
  unfold Trio.advance
  dsimp only
  split <;> exact ⟨rfl, rfl, rfl⟩

theorem Sound.renderLoop (idle : Idle) : ∀ (fuel left : Nat) {s : Trio}, Sound s → Sound (renderLoop idle fuel left s)
  | 0, _, _, h           => h
  | fuel + 1, left, s, h => by
    unfold Trio.renderLoop
    split
    · exact h
    · exact Sound.renderLoop idle fuel _ ((h.allDue idle).advance _)

theorem Sound.load {s : Trio} (h : Sound s) {steps : List Step} (hb : Balanced steps) (t : Fin 4) (loop : Bool) :
    Sound (s.load steps t loop) :=
  h.silenced (fun _ => hb)

theorem Sound.stop {s : Trio} (h : Sound s) (track : Int) : Sound (s.stop track) := by
  unfold Trio.stop
  split
  · rename_i ht
    let t : Fin 4 := ⟨track.toNat, by omega⟩
    have hs := @Sound.silenced s h t { s.tracks t with playing := false, steps := [] } (fun hp => absurd hp Bool.false_ne_true)
    rw [show ((t : Nat) : Int) = track from Int.toNat_of_nonneg ht.1] at hs
    exact hs
  · exact h

/-- What the game and the Mac's audio ask of the trio, in any order. -/
inductive Call
  | play (source : Text) (track : Int) (loop : Bool)
  | stop (track : Int)
  | stopAll
  | render (idle : Idle) (frames : Nat)

def call (u : Unicode) (s : Trio) : Call → Option Trio
  | .play source track loop => (s.play u source track loop).map Prod.fst
  | .stop track             => some (s.stop track)
  | .stopAll                => some s.stopAll
  | .render idle frames     => some (s.render idle frames)

theorem Sound.play {s s' : Trio} (h : Sound s) (u : Unicode) {source : Text} {track : Int} {loop : Bool} {notes : Nat}
    {warnings : List String} (hs : s.play u source track loop = some (s', notes, warnings)) : Sound s' := by
  obtain ⟨tune, htune, hs⟩ := Option.bind_eq_some_iff.1 hs
  obtain ⟨steps, hsteps, hs⟩ := Option.bind_eq_some_iff.1 hs
  obtain ⟨stranded, -, hs⟩ := Option.bind_eq_some_iff.1 hs
  split at hs
  · rw [← (Prod.mk.inj (Option.some.inj hs)).1]
    exact h.load (balanced_schedule u htune (by decide) hsteps) _ _
  · rw [← (Prod.mk.inj (Option.some.inj hs)).1]
    exact h

theorem Sound.call {s s' : Trio} (h : Sound s) (u : Unicode) {a : Call} (hs : s.call u a = some s') : Sound s' := by
  cases a with
  | play source track loop =>
    obtain ⟨⟨s', notes, warnings⟩, hp, rfl⟩ := Option.map_eq_some_iff.1 hs
    exact h.play u hp
  | stop track =>
    rw [← Option.some.inj hs]
    exact h.stop track
  | stopAll =>
    rw [← Option.some.inj hs]
    exact ((((h.stop 0).stop 1).stop 2).stop 3)
  | render idle frames =>
    rw [← Option.some.inj hs]
    exact Sound.renderLoop idle frames frames h

end Trio

/-! ## No hanging notes -/

namespace Trio

/-- A voice that sounds a note is some playing track's, and that track has the note's release still ahead; a track that is
not playing has no voice. -/
structure Clean (s : Trio) : Prop where
  sounding : ∀ c v, 0 ≤ (s.macros c v).note ∨ (s.macros c v).owner ≠ -1 → ∃ t : Fin 4,
    (s.macros c v).owner = (t : Nat) ∧ (s.tracks t).playing ∧
      ∃ off ∈ (s.tracks t).steps.drop (s.tracks t).cursor, off.kind = .noteOff ∧ chipOf off.voice = c ∧
        off.midi = (s.macros c v).note
  silent : ∀ t, ¬ (s.tracks t).playing → ∀ c v, (s.macros c v).owner ≠ (t : Nat)

theorem Sound.clean {s : Trio} (h : Sound s) : Clean s where
  sounding c v hsounds := by
    rcases h.owners c v with hfree | ⟨t, ht⟩
    · rw [hfree] at hsounds
      rcases hsounds with hnote | howner
      · exact absurd hnote (show ¬ (0 : Int) ≤ -1 by decide)
      · exact absurd rfl howner
    have hheld := h.held t c (s.macros c v).note
    have hpos := held_pos ht
    unfold owed at hheld
    split at hheld
    · rename_i hp
      exact ⟨t, ht, hp, exists_release (by omega)⟩
    · omega
  silent t hp c v ht := by
    have hheld := h.held t c (s.macros c v).note
    have hpos := held_pos ht
    unfold owed at hheld
    rw [if_neg hp] at hheld
    omega

theorem macros_stop (s : Trio) (track : Int) {c v : Fin 3} (h : (s.macros c v).owner ≠ track) :
    (s.stop track).macros c v = s.macros c v := by
  unfold stop
  split
  · exact (macros_silence s track c v).trans (if_neg h)
  · rfl

/-- **No hanging notes and no stolen silence**, after any calls. -/
theorem no_hanging_notes (u : Unicode) (reference : Bool) (calls : List Call) (s : Trio)
    (h : Runs.run (call u) { referenceAllocation := reference } calls = some s) :
    Clean s ∧ ∀ track c v, (s.macros c v).owner ≠ track → (s.stop track).macros c v = s.macros c v := by
  have hs : Sound s := Runs.run_inv (I := Sound) (Q := fun _ _ => True) (fun _ _ _ hs _ => hs.call u)
    (sound_start reference) (Runs.along_iff.2 fun _ _ _ _ _ _ => trivial) h
  exact ⟨hs.clean, fun track _ _ => macros_stop s track⟩

/-- A tune put on two tracks, one of them stopped in the middle of the note. -/
def twoTracks : List Call :=
  [.play oneNote 0 true, .play oneNote 1 false, .render (fun _ _ _ _ _ => false) 1, .stop 1,
    .render (fun _ _ _ _ _ => true) 1]

theorem no_hanging_notes_twoTracks : ∃ s, Runs.run (call .plain) {} twoTracks = some s ∧ Clean s ∧
    ∀ track c v, (s.macros c v).owner ≠ track → (s.stop track).macros c v = s.macros c v :=
  have h : (Runs.run (call .plain) {} twoTracks).isSome := by decide
  ⟨_, (Option.some_get h).symm, no_hanging_notes .plain false twoTracks _ (Option.some_get h).symm⟩

end Trio

end Chip
end Prose
