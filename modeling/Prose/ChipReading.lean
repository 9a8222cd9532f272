import Prose.ChipLengths
/-!
# ChipReading — reading one note, and what holds of the reader

What a note that is read leaves, and the invariant of the reader: ticks are not negative, every note has a length and an end that fits, and the note a broken rhythm would reach back to ends where its voice is at most.
-/
namespace Prose
namespace Chip

open Trapping

/-! ## The pitch -/

def ABCVoice.natural (v : ABCVoice) : ABCVoice := { v with accidentals := noAccidentals }

theorem natural_record (v : ABCVoice) (alter : Int) (index : Fin 7) : (v.record alter index).natural = v.natural := by
  unfold ABCVoice.record
  split <;> rfl

theorem pitch_cases {r : Reader} {alter : Int} {index : Fin 7} {octave : Int} {p : Int × Reader}
    (h : pitch r alter index octave = some p) : ∃ v, r.voices.get? r.current = some v ∧
      p.2 = r.setVoice r.current (v.record alter index) := by
  unfold pitch at h
  obtain ⟨v, hv, h⟩ := Option.bind_eq_some_iff.1 h
  obtain ⟨_, -, h⟩ := Option.bind_eq_some_iff.1 h
  obtain ⟨_, -, h⟩ := Option.bind_eq_some_iff.1 h
  obtain ⟨_, -, h⟩ := Option.bind_eq_some_iff.1 h
  exact ⟨v, hv, by rw [← Option.some.inj h]⟩

/-! ## A note -/

section

variable (u : Unicode)

theorem readNote_cases {r r' : Reader} {cs rest : Text} {midi : Int}
    (h : readNote u r cs = some (some (midi, r', rest))) :
    ∃ alter index v, r.voices.get? r.current = some v ∧ r' = r.setVoice r.current (v.record alter index) := by
  unfold readNote at h
  obtain ⟨alter, -, h⟩ := Option.bind_eq_some_iff.1 h
  split at h
  · exact nomatch (Option.some.inj h)
  obtain ⟨o, -, h⟩ := Option.bind_eq_some_iff.1 h
  split at h
  · exact nomatch (Option.some.inj h)
  rename_i index
  obtain ⟨octave, -, h⟩ := Option.bind_eq_some_iff.1 h
  obtain ⟨p, hp, h⟩ := Option.bind_eq_some_iff.1 h
  obtain ⟨v, hv, hr⟩ := pitch_cases hp
  obtain ⟨-, hrest⟩ := Prod.mk.inj (Option.some.inj (Option.some.inj h))
  obtain ⟨rfl, -⟩ := Prod.mk.inj hrest
  exact ⟨alter, index, v, hv, hr⟩

end

/-! ## The invariant -/

structure ABCVoice.Ok (v : ABCVoice) : Prop where
  tick : 0 ≤ v.tick
  fits : Fits v.tick
  unitDen : 0 < v.unitDen

structure Note.Ok (n : Note) : Prop where
  tick : 0 ≤ n.tick
  duration : 1 ≤ n.duration
  fits : Fits (n.tick + n.duration)

structure Reader.Ok (r : Reader) : Prop where
  voices : ∀ n v, r.voices.get? n = some v → v.Ok
  notes : ∀ n ∈ r.tune.notes, n.Ok
  owned : ∀ n ∈ r.tune.notes, (r.voices.get? n.voice).isSome
  chips : ∀ c ∈ r.tune.chips, 0 ≤ c.tick ∧ Fits c.tick
  tempo : 0 < r.tune.tempoDen

/-- The note of a broken rhythm, if there is one, ends where its voice is at most. -/
def Reach (r : Reader) (lastNote : Int) : Prop :=
  0 ≤ lastNote → ∃ n v, r.tune.notes[lastNote.toNat]? = some n ∧ r.voices.get? n.voice = some v ∧
    n.tick + n.duration ≤ v.tick

structure Music.Ok (m : Music) : Prop where
  reader : m.reader.Ok
  tupletDen : 0 ≤ m.ctx.tupletDen
  reach : Reach m.reader m.ctx.lastNote

namespace Reader

variable {r : Reader}

theorem get?_setVoice (r : Reader) (n k : Int) (v : ABCVoice) :
    (r.setVoice n v).voices.get? k = if k = n then some v else r.voices.get? k := SortedMap.get?_set _ _ _ _

theorem Ok.newVoice (h : r.Ok) : r.newVoice.Ok := by
  unfold Reader.newVoice
  split
  · rename_i one hone
    exact ⟨le_rfl, show Fits 0 by decide, (h.voices 1 one hone).unitDen⟩
  · exact ⟨le_rfl, show Fits 0 by decide, show (0 : Int) < 8 by decide⟩

theorem Ok.voiceOf (h : r.Ok) (n : Int) : (r.voiceOf n).Ok := by
  unfold Reader.voiceOf
  cases hv : r.voices.get? n with
  | none => exact h.newVoice
  | some v => exact h.voices n v hv

theorem Ok.setVoice (h : r.Ok) (n : Int) {v : ABCVoice} (hv : v.Ok) : (r.setVoice n v).Ok where
  voices k w hw := by
    rw [get?_setVoice] at hw
    split at hw
    · rw [← Option.some.inj hw]
      exact hv
    · exact h.voices k w hw
  notes := h.notes
  owned k hk := by
    rw [get?_setVoice]
    split
    · rfl
    · exact h.owned k hk
  chips := h.chips
  tempo := h.tempo

theorem get?_withVoice (r : Reader) (n k : Int) :
    (r.withVoice n).voices.get? k = if k = n then some (r.voiceOf n) else r.voices.get? k := by
  unfold Reader.withVoice Reader.voiceOf
  split
  · rename_i v hv
    rw [hv]
    split
    · rename_i hk
      rw [hk, hv]
      rfl
    · rfl
  · rename_i hv
    rw [hv]
    exact get?_setVoice _ _ _ _

theorem current_withVoice (r : Reader) (n : Int) : (r.withVoice n).current = r.current := by
  unfold Reader.withVoice
  split <;> rfl

theorem voiceOf_withVoice (r : Reader) (n : Int) : (r.withVoice n).voiceOf n = r.voiceOf n := by
  have := get?_withVoice r n n
  rw [if_pos rfl] at this
  rw [Reader.voiceOf, this]
  rfl

theorem Ok.withVoice (h : r.Ok) (n : Int) : (r.withVoice n).Ok := by
  unfold Reader.withVoice
  split
  · exact h
  · exact h.setVoice n h.newVoice

end Reader

theorem Reach.setVoice {r : Reader} {k : Int} (h : Reach r k) {n : Int} {v : ABCVoice}
    (hv : ∀ w, r.voices.get? n = some w → w.tick ≤ v.tick) : Reach (r.setVoice n v) k := by
  intro hk
  obtain ⟨x, w, hx, hw, hle⟩ := h hk
  by_cases hn : x.voice = n
  · rw [hn] at hw
    refine ⟨x, v, hx, ?_, hle.trans (hv w hw)⟩
    rw [Reader.get?_setVoice, if_pos hn]
  · exact ⟨x, w, hx, by rw [Reader.get?_setVoice, if_neg hn]; exact hw, hle⟩

theorem Reach.withVoice {r : Reader} {k : Int} (h : Reach r k) (n : Int) : Reach (r.withVoice n) k := by
  unfold Reader.withVoice
  split
  · exact h
  · rename_i hn
    exact h.setVoice (fun w hw => by rw [hn] at hw; exact nomatch hw)

theorem Reach.congr {r r' : Reader} {k : Int} (h : Reach r k) (hn : r'.tune.notes = r.tune.notes)
    (hv : r'.voices = r.voices) : Reach r' k := by
  unfold Reach
  rw [hn, hv]
  exact h

end Chip
end Prose
