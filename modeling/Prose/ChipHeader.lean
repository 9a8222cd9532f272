import Prose.ChipDurations
/-!
# ChipHeader — the header's fields in every voice

Which meter, unit and key a voice has.  `Turns` is what the reader goes through, with the fields it applies on the way;
everything else, whatever it makes of the voices, leaves the fields of each one as they are.
-/
namespace Prose
namespace Chip

open Trapping

/-- What `M:`, `L:` and `K:` set. -/
structure Governed where
  meter : Int × Int
  unit : Int × Int
  keySharps : Int
  deriving DecidableEq

def ABCVoice.governed (v : ABCVoice) : Governed := ⟨(v.meterNum, v.meterDen), (v.unitNum, v.unitDen), v.keySharps⟩

def Reader.governed (r : Reader) (n : Int) : Governed := (r.voiceOf n).governed

/-- A field that is applied: the reader in front of it, its letter and its value. -/
structure Field where
  reader : Reader
  letter : Character
  value : Text

section

variable (u : Unicode)

/-- What the reader goes through, and the fields it applies there, in a header line or in a line of music. -/
inductive Turns (r : Reader) : List Field → Reader → Prop
  | nil : Turns r [] r
  | field {r' : Reader} {fs : List Field} (letter : Character) (value : Text) : Turns r fs r' →
      Turns r (fs ++ [⟨r', letter, value⟩]) (applyField u r' letter value)
  | settings {r' r'' : Reader} {fs : List Field} {value : Text} : Turns r fs r' → fieldI u r' value = some r'' → Turns r fs r''
  | directive {r' : Reader} {fs : List Field} (line : Text) : Turns r fs r' → Turns r fs (directive r' line)
  | music {m m' : Music} {fs : List Field} : Turns r fs m.reader → musicStep u m = some (.inl m') →
      (∀ c cs letter rest, m.rest = c :: cs → element u c cs ≠ .field letter rest) → Turns r fs m'.reader

variable {u}

/-! ## Every tune -/

theorem turns_musicStep {r : Reader} {m m' : Music} {fs : List Field} (h : Turns u r fs m.reader)
    (hs : musicStep u m = some (.inl m')) : ∃ gs, Turns u r gs m'.reader := by
  by_cases hf : ∃ c cs letter rest, m.rest = c :: cs ∧ element u c cs = .field letter rest
  · obtain ⟨c, cs, letter, rest, hrest, he⟩ := hf
    unfold musicStep at hs
    rw [hrest] at hs
    dsimp only at hs
    rw [he] at hs
    obtain ⟨r', hr', hs⟩ := Option.bind_eq_some_iff.1 (of_map_inl hs)
    cases hs
    split at hr'
    · exact ⟨_, .settings h hr'⟩
    · rw [← Option.some.inj hr']
      exact ⟨_, .field letter _ h⟩
  · exact ⟨fs, .music h hs (fun c cs letter rest hrest he => hf ⟨c, cs, letter, rest, hrest, he⟩)⟩

theorem turns_musicLine {r r₀ r' : Reader} {fs : List Field} {line : Text} (h : Turns u r fs r₀)
    (hl : musicLine u r₀ line = some r') : ∃ gs, Turns u r gs r' := by
  have hstep (m m' : Music) : (∃ gs, Turns u r gs m.reader) → musicStep u m = some (.inl m') → ∃ gs, Turns u r gs m'.reader :=
    fun ⟨_, hg⟩ hs => turns_musicStep hg hs
  obtain ⟨m, hm, hs⟩ := Loops.loop_inv hstep ⟨fs, h⟩ hl
  rw [musicStep_inr u hs]
  exact hm

theorem turns_readLine {r r₀ r' : Reader} {fs : List Field} {line : Text} (h : Turns u r fs r₀)
    (hl : readLine u r₀ line = some r') : ∃ gs, Turns u r gs r' := by
  unfold readLine at hl
  split at hl
  · rw [← Option.some.inj hl]
    exact ⟨fs, h⟩
  · rw [← Option.some.inj hl]
    exact ⟨fs, .directive _ h⟩
  · split at hl
    · unfold header at hl
      split at hl
      · rw [← Option.some.inj hl]
        exact ⟨fs, h⟩
      split at hl
      · exact ⟨fs, .settings h hl⟩
      · rw [← Option.some.inj hl]
        exact ⟨_, .field _ _ h⟩
    · exact turns_musicLine h hl
  · exact turns_musicLine h hl

theorem turns_readLines : ∀ {ls : List Text} {r r₀ r' : Reader} {fs : List Field}, Turns u r fs r₀ →
    Runs.run (readLine u) r₀ ls = some r' → ∃ gs, Turns u r gs r'
  | [], _, _, _, fs, h, hr => by
    rw [← Option.some.inj hr]
    exact ⟨fs, h⟩
  | _ :: _, _, _, _, _, h, hr => by
    rw [Runs.run_cons] at hr
    obtain ⟨r₁, h₁, hr⟩ := Option.bind_eq_some_iff.1 hr
    obtain ⟨gs, hg⟩ := turns_readLine h h₁
    exact turns_readLines hg hr

/-- **Every place that reading a tune comes to** is behind such turns. -/
theorem Reached.turns {m : Music} (h : Reached u m) : ∃ fs, Turns u {} fs m.reader := by
  induction h with
  | line line hr => exact turns_readLines .nil hr
  | step _ hs ih =>
    obtain ⟨fs, hf⟩ := ih
    exact turns_musicStep hf hs

/-! ## What leaves every voice governed as it is -/

/-- No voice has another meter, unit or key, nor would get another one; the current one is the same. -/
structure Kept (r r' : Reader) : Prop where
  governed : ∀ n, r'.governed n = r.governed n
  current : r'.current = r.current

namespace Kept

variable {r r' r'' : Reader}

theorem refl (r : Reader) : Kept r r := ⟨fun _ => rfl, rfl⟩

theorem trans (h : Kept r r') (h' : Kept r' r'') : Kept r r'' :=
  ⟨fun n => (h'.governed n).trans (h.governed n), h'.current.trans h.current⟩

end Kept

theorem governed_eq (r : Reader) (n : Int) : r.governed n =
    ((r.voices.get? n).map ABCVoice.governed).getD ⟨(4, 4), (((r.voices.get? 1).map ABCVoice.governed).map Governed.unit).getD (1, 8),
      (((r.voices.get? 1).map ABCVoice.governed).map Governed.keySharps).getD 0⟩ := by
  unfold Reader.governed Reader.voiceOf Reader.newVoice
  cases r.voices.get? n with
  | some v => rfl
  | none => cases r.voices.get? 1 <;> rfl

theorem kept_of_voices {r r' : Reader} (h : ∀ n, (r'.voices.get? n).map ABCVoice.governed = (r.voices.get? n).map ABCVoice.governed)
    (hc : r'.current = r.current) : Kept r r' :=
  ⟨fun n => by rw [governed_eq, governed_eq, h n, h 1], hc⟩

theorem kept_tune {r r' : Reader} (h : r'.voices = r.voices) (hc : r'.current = r.current) : Kept r r' :=
  kept_of_voices (fun _ => by rw [h]) hc

theorem kept_setNotes (r : Reader) (notes : List Note) : Kept r (r.setNotes notes) := kept_tune rfl rfl

theorem kept_natural {r r' : Reader} (h : Natural r r') : Kept r r' := kept_of_voices (fun n => by
  have hmap (o : Option ABCVoice) : o.map ABCVoice.governed = (o.map ABCVoice.natural).map ABCVoice.governed := by
    rw [Option.map_map]
    rfl
  rw [hmap, hmap (r.voices.get? n), h.voices n]) h.current

theorem kept_setVoice {r : Reader} {n : Int} {v : ABCVoice} (h : v.governed = r.governed n) : Kept r (r.setVoice n v) := by
  refine ⟨fun k => ?_, rfl⟩
  have hget (k : Int) : ((r.setVoice n v).voices.get? k).map ABCVoice.governed =
      if k = n then some (r.governed n) else (r.voices.get? k).map ABCVoice.governed := by
    rw [Reader.get?_setVoice]
    split
    · exact congrArg some h
    · rfl
  rw [governed_eq, hget, hget]
  by_cases hk : k = n
  · rw [if_pos hk, hk]
    rfl
  rw [if_neg hk, governed_eq r k]
  by_cases h1 : 1 = n
  · -- voice 1 as it is, or made anew: what the others copy is the same
    rw [if_pos h1, ← h1, governed_eq r 1]
    cases r.voices.get? 1 <;> rfl
  · rw [if_neg h1]

theorem kept_withVoice (r : Reader) (n : Int) : Kept r (r.withVoice n) := by
  unfold Reader.withVoice
  split
  · exact .refl r
  rename_i hn
  refine kept_setVoice ?_
  unfold Reader.governed Reader.voiceOf
  rw [hn]
  rfl

theorem kept_voice {r : Reader} {n : Int} {v : ABCVoice} (hv : r.voices.get? n = some v) {w : ABCVoice}
    (h : w.governed = v.governed) : Kept r (r.setVoice n w) :=
  kept_setVoice (by rw [h, Reader.governed, voiceOf_eq hv])

theorem kept_setTick {r r' : Reader} {n tick : Int} (h : r.setTick n tick = some r') : Kept r r' := by
  obtain ⟨v, hv, h⟩ := Option.bind_eq_some_iff.1 h
  cases h
  exact kept_voice hv rfl

theorem kept_advance {r r' : Reader} {n d : Int} (h : r.advance n d = some r') : Kept r r' := by
  obtain ⟨v, hv, h⟩ := Option.bind_eq_some_iff.1 h
  obtain ⟨tick, -, h⟩ := Option.bind_eq_some_iff.1 h
  cases h
  exact kept_voice hv rfl

theorem kept_directive (r : Reader) (line : Text) : Kept r (directive r line) := by
  unfold directive
  split
  · split
    · exact .refl r
    split
    · exact .refl r
    split
    · exact kept_tune rfl rfl
    · split
      · exact kept_tune rfl rfl
      · exact .refl r
  · exact .refl r

theorem kept_addChip (r : Reader) (c : Int × Int × Int) : Kept r (addChip r c) :=
  (kept_withVoice r c.1).trans (kept_tune rfl rfl)

theorem kept_settings {r r' : Reader} {value : Text} (h : fieldI u r value = some r') : Kept r r' := by
  unfold fieldI at h
  obtain ⟨settings, -, h⟩ := Option.bind_eq_some_iff.1 h
  cases h
  have hfold (settings : List (Int × Int × Int)) : ∀ r : Reader, Kept r (settings.foldl addChip r) := by
    induction settings with
    | nil => exact .refl
    | cons c settings ih => exact fun r => (kept_addChip r c).trans (ih _)
  refine Kept.trans ?_ (hfold settings _)
  split
  · exact kept_tune rfl rfl
  · exact .refl r

theorem kept_barLine {m m' : Music} {cs : Text} (h : barLine m cs = some m') : Kept m.reader m'.reader := by
  obtain ⟨bar, -, h⟩ := Option.bind_eq_some_iff.1 h
  obtain ⟨warnings, -, h⟩ := Option.bind_eq_some_iff.1 h
  obtain ⟨v, hv, h⟩ := Option.bind_eq_some_iff.1 h
  cases h
  refine (kept_withVoice m.reader m.reader.current).trans (Kept.trans (kept_voice hv ?_) (kept_tune rfl rfl))
  rfl

theorem kept_brokenRhythm {m m' : Music} {longer : Bool} {count : Nat} {cs : Text}
    (h : brokenRhythm m longer count cs = some m') : Kept m.reader m'.reader := by
  unfold brokenRhythm at h
  split at h
  · cases h
    exact .refl _
  obtain ⟨half, -, h⟩ := Option.bind_eq_some_iff.1 h
  obtain ⟨note, -, h⟩ := Option.bind_eq_some_iff.1 h
  obtain ⟨now, -, h⟩ := Option.bind_eq_some_iff.1 h
  obtain ⟨d, -, h⟩ := Option.bind_eq_some_iff.1 h
  obtain ⟨r, hr, h⟩ := Option.bind_eq_some_iff.1 h
  cases h
  exact (kept_setNotes _ _).trans (kept_advance hr)

theorem kept_restFor {m m' : Music} {bars : Bool} {cs : Text} (h : restFor u m bars cs = some m') : Kept m.reader m'.reader := by
  obtain ⟨base, -, h⟩ := Option.bind_eq_some_iff.1 h
  obtain ⟨_, -, h⟩ := Option.bind_eq_some_iff.1 h
  obtain ⟨_, -, h⟩ := Option.bind_eq_some_iff.1 h
  obtain ⟨r, hr, h⟩ := Option.bind_eq_some_iff.1 h
  cases h
  exact (kept_withVoice m.reader m.reader.current).trans (kept_advance hr)

theorem kept_chord {m m' : Music} {cs : Text} (h : chord u m cs = some m') : Kept m.reader m'.reader := by
  obtain ⟨c, hc, h⟩ := Option.bind_eq_some_iff.1 h
  obtain ⟨unit, -, h⟩ := Option.bind_eq_some_iff.1 h
  obtain ⟨_, -, h⟩ := Option.bind_eq_some_iff.1 h
  obtain ⟨_, -, h⟩ := Option.bind_eq_some_iff.1 h
  obtain ⟨tick, -, h⟩ := Option.bind_eq_some_iff.1 h
  obtain ⟨r, hr, h⟩ := Option.bind_eq_some_iff.1 h
  cases h
  exact ((kept_withVoice m.reader m.reader.current).trans (kept_natural (chordDone_loop u hc).natural)).trans
    ((kept_setNotes _ _).trans (kept_setTick hr))

theorem kept_note {m m' : Music} {midi : Int} {r : Reader} {cs : Text} (h : note u m midi r cs = some m') : Kept r m'.reader := by
  obtain ⟨unit, -, h⟩ := Option.bind_eq_some_iff.1 h
  obtain ⟨_, -, h⟩ := Option.bind_eq_some_iff.1 h
  obtain ⟨_, -, h⟩ := Option.bind_eq_some_iff.1 h
  obtain ⟨tied, -, h⟩ := Option.bind_eq_some_iff.1 h
  obtain ⟨_, -, h⟩ := Option.bind_eq_some_iff.1 h
  obtain ⟨tick, -, h⟩ := Option.bind_eq_some_iff.1 h
  obtain ⟨r', hr', h⟩ := Option.bind_eq_some_iff.1 h
  cases h
  exact (kept_setNotes _ _).trans (kept_setTick hr')

theorem kept_music {m m' : Music} (h : musicStep u m = some (.inl m'))
    (hf : ∀ c cs letter rest, m.rest = c :: cs → element u c cs ≠ .field letter rest) : Kept m.reader m'.reader := by
  unfold musicStep at h
  split at h
  · exact nomatch (Option.some.inj h)
  rename_i c cs hcs
  replace hf := hf c cs
  generalize element u c cs = e at h hf
  cases e with
  | passed rest =>
    cases h
    exact .refl _
  | comment => exact nomatch (Option.some.inj h)
  | bar rest => exact kept_barLine (of_map_inl h)
  | tie rest =>
    cases h
    exact .refl _
  | tuplet rest =>
    rw [(tuplet_cases u (of_map_inl h)).1]
    exact kept_withVoice _ _
  | broken longer count rest => exact kept_brokenRhythm (of_map_inl h)
  | field letter rest => exact absurd rfl (hf letter rest hcs)
  | chord rest => exact kept_chord (of_map_inl h)
  | silence bars rest => exact kept_restFor (of_map_inl h)
  | note rest =>
    obtain ⟨o, ho, h⟩ := Option.bind_eq_some_iff.1 h
    split at h
    · cases h
      exact .refl _
    · exact (kept_natural (natural_readNote u ho)).trans (kept_note (of_map_inl h))

/-! ## Fields -/

theorem kept_fieldQ (r : Reader) (value : Text) : Kept r (fieldQ u r value) := by
  unfold fieldQ
  split
  · exact kept_tune rfl rfl
  · split
    · exact kept_tune rfl rfl
    · exact .refl r

theorem governed_fieldV (r : Reader) (value : Text) (n : Int) : (fieldV u r value).governed n = r.governed n := by
  unfold fieldV
  rw [(kept_setVoice _).governed]
  · rfl
  · rfl

/-- A voice that is set is not the one that `n` is, nor the one that `n` would be a copy of. -/
theorem governed_setVoice {r : Reader} {k n : Int} {v : ABCVoice} (hk : k ≠ n) (h1 : k ≠ 1) :
    (r.setVoice k v).governed n = r.governed n := by
  rw [governed_eq, governed_eq r, Reader.get?_setVoice, Reader.get?_setVoice, if_neg hk.symm, if_neg h1.symm]

def governing : List Character := [.ascii 'M', .ascii 'L', .ascii 'K']

theorem governed_applyField {r : Reader} {letter : Character} {value : Text} {n : Int}
    (h : letter ∈ governing → r.current ≠ n ∧ r.current ≠ 1) : (applyField u r letter value).governed n = r.governed n := by
  have hset (v : ABCVoice) (hl : letter ∈ governing) : (r.setVoice r.current v).governed n = r.governed n :=
    governed_setVoice (h hl).1 (h hl).2
  unfold applyField
  split_ifs with hV hK hL hM hQ
  · exact governed_fieldV r value n
  · exact hset _ (by rw [hK]; decide)
  · unfold fieldL
    split
    · rfl
    · exact hset _ (by rw [hL]; decide)
  · unfold fieldM
    split
    · rfl
    · exact hset _ (by rw [hM]; decide)
  · exact (kept_fieldQ r value).governed n
  · rfl

theorem current_applyField {r : Reader} {letter : Character} {value : Text} (h : letter ≠ .ascii 'V') :
    (applyField u r letter value).current = r.current := by
  unfold applyField
  rw [if_neg h]
  split_ifs
  · rfl
  · unfold fieldL
    split <;> rfl
  · unfold fieldM
    split <;> rfl
  · exact (kept_fieldQ r value).current
  · rfl

theorem Turns.current {r r' : Reader} {fs : List Field} (h : Turns u r fs r') (hf : ∀ f ∈ fs, f.letter ≠ .ascii 'V') :
    r'.current = r.current := by
  induction h with
  | nil => rfl
  | @field r' fs letter value h ih =>
    rw [current_applyField (hf _ (List.mem_append_right _ List.mem_cons_self)),
      ih (fun f hm => hf f (List.mem_append_left _ hm))]
  | settings _ hs ih => rw [(kept_settings hs).current, ih hf]
  | directive line _ ih => rw [(kept_directive _ line).current, ih hf]
  | music _ hs hm ih => rw [(kept_music hs hm).current, ih hf]

/-- **A voice is governed as it is until a field that governs is read in it, or in voice 1.** -/
theorem Turns.governed {r r' : Reader} {fs : List Field} (h : Turns u r fs r') {n : Int}
    (hf : ∀ f ∈ fs, f.letter ∈ governing → f.reader.current ≠ n ∧ f.reader.current ≠ 1) : r'.governed n = r.governed n := by
  induction h with
  | nil => rfl
  | @field r' fs letter value h ih =>
    rw [governed_applyField (hf _ (List.mem_append_right _ List.mem_cons_self)),
      ih (fun f hm => hf f (List.mem_append_left _ hm))]
  | settings _ hs ih => rw [(kept_settings hs).governed, ih hf]
  | directive line _ ih => rw [(kept_directive _ line).governed, ih hf]
  | music _ hs hm ih => rw [(kept_music hs hm).governed, ih hf]

end

/-- A voice has what the header says: it has it already, or it is to be made and the header's meter is 4/4. -/
def FromHeader (r : Reader) (n : Int) : Prop :=
  match r.voices.get? n with
  | some v => v.governed = r.governed 1
  | none   => (r.governed 1).meter = (4, 4)

instance (r : Reader) (n : Int) : Decidable (FromHeader r n) := by
  unfold FromHeader
  split <;> infer_instance

theorem governed_one_iff (r : Reader) (n : Int) : r.governed n = r.governed 1 ↔ FromHeader r n := by
  unfold FromHeader
  cases hn : r.voices.get? n with
  | some v => rw [Reader.governed, voiceOf_eq hn]
  | none =>
    rw [governed_eq, governed_eq r 1, hn]
    cases r.voices.get? 1 with
    | some one =>
      refine ⟨fun h => (congrArg Governed.meter h).symm, fun h => ?_⟩
      replace h : one.governed.meter = (4, 4) := h
      show Governed.mk (4, 4) one.governed.unit one.governed.keySharps = one.governed
      rw [← h]
    | none => exact ⟨fun _ => rfl, fun _ => rfl⟩

theorem governed_new {r : Reader} {n : Int} (hn : r.voices.get? n = none) :
    r.governed n = ⟨(4, 4), (r.governed 1).unit, (r.governed 1).keySharps⟩ := by
  rw [governed_eq, governed_eq r 1, hn]
  cases r.voices.get? 1 <;> rfl

/-- **The header in every voice.**  `r₀` is behind the header, which has no `V:` and so is voice 1's; `r` is anywhere behind
it.  A voice that no field governs behind the header, nor governs voice 1, is governed as the header says exactly if it was so
when the header ended, or is made later and the header's meter is 4/4.  Whatever is read behind the header, a voice that is still
to be made is governed as the header says exactly if the header's meter is 4/4 and voice 1 has its unit and key by then. -/
theorem header_governs_iff (u : Unicode) (hs fs : List Field) (r₀ r : Reader) (n : Int) (h₀ : Turns u {} hs r₀)
    (hV : ∀ f ∈ hs, f.letter ≠ .ascii 'V') (h : Turns u r₀ fs r) : r₀.current = 1 ∧
    ((∀ f ∈ fs, f.letter ∈ governing → f.reader.current ≠ n ∧ f.reader.current ≠ 1) →
      (r.governed n = r₀.governed 1 ↔ FromHeader r₀ n)) ∧
    (r.voices.get? n = none → (r.governed n = r₀.governed 1 ↔ (r₀.governed 1).meter = (4, 4) ∧
      (r.governed 1).unit = (r₀.governed 1).unit ∧ (r.governed 1).keySharps = (r₀.governed 1).keySharps)) := by
  refine ⟨h₀.current hV, fun hf => by rw [h.governed hf, governed_one_iff], fun hn => ?_⟩
  rw [governed_new hn]
  generalize r₀.governed 1 = g
  obtain ⟨meter, unit, key⟩ := g
  rw [Governed.mk.injEq]
  exact and_congr_left' eq_comm

theorem turns_field (u : Unicode) (letter : Character) (value : Text) :
    Turns u {} [⟨{}, letter, value⟩] (applyField u {} letter value) := .field letter value .nil

/-- A key of two sharps, and another voice. -/
theorem header_governs_keyD : (fieldV .plain (applyField .plain {} (.ascii 'K') (text "D")) (text "2")).governed 2 =
    (applyField .plain {} (.ascii 'K') (text "D")).governed 1 :=
  ((header_governs_iff .plain _ _ _ _ 2 (turns_field .plain (.ascii 'K') (text "D")) (by simp)
    (.field (.ascii 'V') (text "2") .nil)).2.1 (by simp [governing])).2 (by decide)

/-- A header in waltz time does not reach the second voice. -/
theorem waltz_not_governed : ¬ ∀ (hs fs : List Field) (r₀ r : Reader) (n : Int), Turns .plain {} hs r₀ →
    (∀ f ∈ hs, f.letter ≠ .ascii 'V') → Turns .plain r₀ fs r →
    (∀ f ∈ fs, f.letter ∈ governing → f.reader.current ≠ n ∧ f.reader.current ≠ 1) → r.governed n = r₀.governed 1 := fun hall =>
  absurd (hall _ _ _ _ 2 (turns_field .plain (.ascii 'M') (text "3/4")) (by simp)
    (.field (.ascii 'V') (text "2") .nil) (by simp [governing])) (by decide)

/-- The whole rest of its second voice lasts four quarters. -/
example : ((parseABC .plain (text "M:3/4\nV:2\nZ C")).map (fun t => t.notes.map Note.tick)) = some [1920] := by decide +kernel

end Chip
end Prose
