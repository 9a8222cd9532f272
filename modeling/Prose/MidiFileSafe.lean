import Prose.MidiFile
/-!
# MidiFileSafe — any bytes are read to their end, and no others

Each read of the source has its guard; `Fine` is what the guards come to: what is read is there, and has a property.  Every turn of a
loop eats bytes, so `SetTo` has an outcome for every byte string, and the events' bodies and times are in order (`setTo_sound`).
-/
namespace Prose
namespace MidiPlayer

open Bytes List

def Fine {α : Type} (x : Except Stop α) (P : α → Prop) : Prop :=
  match x with
  | .error .outside => False
  | .error .over    => True
  | .ok a           => P a

theorem Fine.bind {α β : Type} {x : Except Stop α} {f : α → Except Stop β} {P : α → Prop} {Q : β → Prop} (hx : Fine x P)
    (hf : ∀ a, P a → Fine (f a) Q) : Fine (x >>= f) Q :=
  match x with
  | .error .outside => hx
  | .error .over    => trivial
  | .ok a           => hf a hx

theorem Fine.imp {α : Type} {x : Except Stop α} {P Q : α → Prop} (hx : Fine x P) (h : ∀ a, P a → Q a) : Fine x Q :=
  match x with
  | .error .outside => hx
  | .error .over    => trivial
  | .ok a           => h a hx

/-! ## The reader -/

theorem byte_cons (b : UInt8) (rest : List UInt8) : byte (b :: rest) = .ok (b, rest) := rfl

theorem byte_fine (here : List UInt8) : Fine (byte here) fun x => x.2.length < here.length := by
  cases here with
  | nil => trivial
  | cons b rest => exact Nat.lt_succ_self _

theorem variableLengthLoop_fine : ∀ (n value : ℕ) (here : List UInt8),
    Fine (variableLengthLoop n value here) fun x => x.2.length < here.length
  | 0, _, _            => trivial
  | n + 1, value, here => by
    refine (byte_fine here).bind fun x hx => ?_
    dsimp only
    split
    · exact hx
    · exact (variableLengthLoop_fine n _ x.2).imp fun y hy => hy.trans hx

theorem variableLength_fine (here : List UInt8) : Fine (variableLength here) fun x => x.2.length < here.length :=
  variableLengthLoop_fine 4 0 here

theorem take_fine (length : ℕ) (here : List UInt8) : Fine (take length here) fun x => x.1.length = length ∧ x.2.length ≤ here.length := by
  rw [take]
  split
  · trivial
  rename_i hle
  rw [slice_some (by omega)]
  refine ⟨?_, ?_⟩
  · rw [drop_zero, length_take]
    omega
  · rw [length_drop]
    omega

/-! ## A track -/

namespace Reading

def Inside (events : List RawEvent) (data : List UInt8) : Prop := ∀ raw ∈ events, raw.event.offset + raw.event.length ≤ data.length

def Onward (r r' : Reading) : Prop := r'.here.length ≤ r.here.length ∧ (Inside r.events r.data → Inside r'.events r'.data)

theorem Inside.push {events : List RawEvent} {data : List UInt8} (h : Inside events data) {raw : RawEvent} (body : List UInt8)
    (hraw : raw.event.offset + raw.event.length ≤ (data ++ body).length) : Inside (events ++ [raw]) (data ++ body) := by
  intro x hx
  obtain hx | hx := mem_append.1 hx
  · rw [length_append]
    have := h x hx
    omega
  · obtain rfl := mem_singleton.1 hx
    exact hraw

theorem Inside.push_empty {events : List RawEvent} {data : List UInt8} (h : Inside events data) {raw : RawEvent}
    (hraw : raw.event.offset + raw.event.length = 0) : Inside (events ++ [raw]) data := by
  have := @push _ _ h raw [] (by omega)
  rwa [append_nil] at this

theorem firstByte_fine (first : Option UInt8) (here : List UInt8) : Fine (firstByte first here) fun x => x.2.length ≤ here.length := by
  cases first with
  | none => exact (byte_fine here).imp fun _ => Nat.le_of_lt
  | some b => exact Nat.le_refl _

theorem secondByte_fine (status : UInt8) (here : List UInt8) : Fine (secondByte status here) fun x => x.2.length ≤ here.length := by
  unfold secondByte
  dsimp only
  split
  · exact (byte_fine here).imp fun _ => Nat.le_of_lt
  · exact Nat.le_refl _

theorem channel_fine (status : UInt8) (first : Option UInt8) (r : Reading) : Fine (r.channel status first) (Onward r) :=
  (firstByte_fine first r.here).bind fun x hx => (secondByte_fine status x.2).bind fun _ hy =>
    ⟨hy.trans hx, fun h => h.push_empty rfl⟩

theorem packet_fine (status : UInt8) (r : Reading) : Fine (r.packet status) (Onward r) := by
  refine (variableLength_fine r.here).bind fun x hx => (take_fine x.1 x.2).bind fun y hy => ?_
  obtain ⟨hlen, hle⟩ := hy
  refine ⟨by dsimp only [push]; omega, fun h => h.push _ ?_⟩
  dsimp only
  rw [length_append, length_take, hlen]
  have := Nat.mod_le r.data.length (2 ^ 32)
  split <;> omega

theorem metaEvent_fine (track : ℕ) (r : Reading) : Fine (r.metaEvent track) (Onward r) := by
  refine (byte_fine r.here).bind fun x hx => (variableLength_fine x.2).bind fun y hy => (take_fine y.1 y.2).bind fun z hz => ?_
  dsimp only
  have hle : z.2.length ≤ r.here.length := by omega
  split
  · trivial
  split
  · by_cases hzero : big z.1 = 0
    · rw [if_pos hzero]
      exact ⟨hle, id⟩
    · rw [if_neg hzero]
      exact ⟨hle, fun h => h.push_empty rfl⟩
  · exact ⟨hle, id⟩

theorem event_fine (track : ℕ) (status : UInt8) (first : Option UInt8) (r : Reading) : Fine (r.event track status first) (Onward r) := by
  rw [event]
  split
  · exact r.channel_fine status first
  split
  · exact r.packet_fine status
  · split
    · exact r.metaEvent_fine track
    · trivial

theorem next_fine (track : ℕ) (status : UInt8) (r : Reading) : Fine (r.next track status) (Onward r) := by
  rw [next]
  split
  · split
    · trivial
    · exact r.event_fine track _ _
  · exact r.event_fine track _ _

theorem deltaAndStatus_fine (here : List UInt8) : Fine (deltaAndStatus here) fun x => x.2.2.length < here.length :=
  (variableLength_fine here).bind fun x hx => (byte_fine x.2).bind fun _ hy => Nat.lt_trans hy hx

theorem step_total (track : ℕ) (r : Reading) (h : Inside r.events r.data) :
    (∃ r', step track r = some (.inl r') ∧ Inside r'.events r'.data ∧ r'.here.length < r.here.length) ∨
      ∃ r', step track r = some (.inr r') ∧ Inside r'.events r'.data := by
  rw [step]
  split
  · exact .inr ⟨r, rfl, h⟩
  have hdelta := deltaAndStatus_fine r.here
  split
  · next heq => rw [heq] at hdelta; exact hdelta.elim
  · exact .inr ⟨r, rfl, h⟩
  · next delta status here heq =>
    rw [heq] at hdelta
    dsimp only
    have hnext := next_fine track status { r with here := here, tick := (r.tick + delta) % 2 ^ 32 }
    split
    · next heq => rw [heq] at hnext; exact hnext.elim
    · exact .inr ⟨_, rfl, h⟩
    · next r' heq =>
      rw [heq] at hnext
      exact .inl ⟨r', rfl, hnext.2 h, Nat.lt_of_le_of_lt hnext.1 hdelta⟩

theorem readTrack_total (track : ℕ) (here : List UInt8) {r : Reading} (h : Inside r.events r.data) :
    ∃ r', r.readTrack track here = some r' ∧ Inside r'.events r'.data :=
  @Loops.loop_total _ _ _ (fun r => Inside r.events r.data) (fun r => r.here.length) _ (step_total track) _ _
    (Nat.lt_succ_self here.length) h

end Reading

/-! ## The chunks -/

def chunkSize (smf : List UInt8) (position : ℕ) : ℕ :=
  min (big ((smf.drop (position + 4)).take 4)) (smf.length - position - 8)

theorem step_chunk {smf : List UInt8} {trackCount : ℕ} {t : Tracks} (hmore : t.track < trackCount)
    (hfits : t.position + 8 ≤ smf.length) : t.step smf trackCount =
      if (smf.drop t.position).take 4 = trackId then
        (t.reading.readTrack t.track ((smf.drop (t.position + 8)).take (chunkSize smf t.position))).map fun r =>
          .inl ⟨t.position + 8 + chunkSize smf t.position, t.track + 1, r, max t.endTick r.tick⟩
      else some (.inl { t with position := t.position + 8 + chunkSize smf t.position }) := by
  have hfit : t.position + 8 + chunkSize smf t.position ≤ smf.length := by
    unfold chunkSize
    omega
  rw [Tracks.step, if_pos ⟨hmore, hfits⟩, slice_some (by omega), slice_some (by omega)]
  simp only [Option.bind_eq_bind, Option.bind_some]
  by_cases hid : (smf.drop t.position).take 4 = trackId
  · rw [if_pos hid, if_neg (not_not.2 hid)]
    change (slice smf (t.position + 8) (chunkSize smf t.position)).bind _ = _
    rw [slice_some hfit, Option.bind_some, Option.map_eq_bind]
    rfl
  · rw [if_neg hid, if_pos hid]
    rfl

theorem step_total (smf : List UInt8) (trackCount : ℕ) (t : Tracks) (h : Reading.Inside t.reading.events t.reading.data) :
    (∃ t', t.step smf trackCount = some (.inl t') ∧ Reading.Inside t'.reading.events t'.reading.data ∧
        smf.length - t'.position < smf.length - t.position) ∨
      ∃ t', t.step smf trackCount = some (.inr t') ∧ Reading.Inside t'.reading.events t'.reading.data := by
  by_cases hgo : t.track < trackCount ∧ t.position + 8 ≤ smf.length
  · obtain ⟨hmore, hfits⟩ := hgo
    left
    rw [step_chunk hmore hfits]
    split
    · obtain ⟨r, hr, hinside⟩ := Reading.readTrack_total t.track ((smf.drop (t.position + 8)).take (chunkSize smf t.position)) h
      refine ⟨⟨t.position + 8 + chunkSize smf t.position, t.track + 1, r, max t.endTick r.tick⟩, by rw [hr]; rfl, hinside, ?_⟩
      dsimp only
      omega
    · refine ⟨_, rfl, h, ?_⟩
      dsimp only
      omega
  · exact .inr ⟨t, if_neg hgo, h⟩

theorem chunks_total (smf : List UInt8) (trackCount position : ℕ) :
    ∃ t, Loops.loop (Tracks.step smf trackCount) (smf.length + 1) { position := position } = some t ∧
      Reading.Inside t.reading.events t.reading.data :=
  @Loops.loop_total _ _ _ (fun t => Reading.Inside t.reading.events t.reading.data) (fun t : Tracks => smf.length - t.position) _
    (step_total smf trackCount) _ _ (by omega) fun _ hx => absurd hx not_mem_nil

theorem riffStep_total (file : List UInt8) (position : ℕ) (_ : True) :
    (∃ next, riffStep file position = some (.inl next) ∧ True ∧ file.length - next < file.length - position) ∨
      ∃ r, riffStep file position = some (.inr r) ∧ True := by
  rw [riffStep]
  split
  · next hfits =>
    rw [slice_some (by omega), natAt, slice_some (by omega)]
    simp only [Option.bind_eq_bind, Option.bind_some, Option.map_some]
    split
    · rw [slice_some (by omega)]
      exact .inr ⟨_, rfl, trivial⟩
    · refine .inl ⟨_, rfl, trivial, ?_⟩
      omega
  · exact .inr ⟨_, rfl, trivial⟩

theorem unwrap_total (file : List UInt8) : ∃ smf, unwrap file = some smf := by
  rw [unwrap]
  split
  · next hlong =>
    rw [slice_some (by omega), slice_some (by omega)]
    simp only [Option.bind_eq_bind, Option.bind_some]
    split
    · split
      · obtain ⟨r, hr, -⟩ := @Loops.loop_total _ _ _ (fun _ => True) (fun position => file.length - position) _ (riffStep_total file)
          (file.length + 1) 12 (by omega) trivial
        exact ⟨r, hr⟩
      · exact ⟨_, rfl⟩
    · exact ⟨_, rfl⟩
  · exact ⟨_, rfl⟩

theorem header_total (smf : List UInt8) : ∃ h, header smf = some h := by
  rw [header]
  split
  · exact ⟨_, rfl⟩
  rename_i hlong
  rw [slice_some (by omega), slice_some (by omega), slice_some (by omega), slice_some (by omega), slice_some (by omega)]
  simp only [Option.bind_eq_bind, Option.bind_some]
  split
  · exact ⟨_, rfl⟩
  · split
    · exact ⟨_, rfl⟩
    · exact ⟨_, rfl⟩

/-! ## Times -/

/-- A song in order: the bodies are in the data, the times do not go back, and none is behind the end. -/
structure Sound (song : Song) : Prop where
  inside : ∀ e ∈ song.events, e.offset + e.length ≤ song.data.length
  inOrder : song.events.Pairwise fun e e' => e.time ≤ e'.time
  atMost : ∀ e ∈ song.events, e.time ≤ song.duration

theorem sound_failed (data title : List UInt8) : Sound (failed data title).1 :=
  ⟨fun _ h => absurd h not_mem_nil, .nil, fun _ h => absurd h not_mem_nil⟩

namespace Placing

/-- What has been placed is in order, and not behind the time that has come. -/
structure InOrder (data : List UInt8) (p : Placing) : Prop where
  inside : ∀ e ∈ p.events, e.offset + e.length ≤ data.length
  inOrder : p.events.Pairwise fun e e' => e.time ≤ e'.time
  atMost : ∀ e ∈ p.events, e.time ≤ ⌊p.time⌋.toNat

theorem elapse_le {length : ℕ → ℚ} (hlength : ∀ tempo, 0 ≤ length tempo) (tick : ℕ) (p : Placing) :
    ⌊p.time⌋.toNat ≤ ⌊p.elapse length tick⌋.toNat :=
  Int.toNat_le_toNat (Int.floor_le_floor (le_add_of_nonneg_right (mul_nonneg (Nat.cast_nonneg _) (hlength _))))

theorem events_place (length : ℕ → ℚ) (p : Placing) (raw : RawEvent) : (p.place length raw).events =
    p.events ++ if raw.tempo = 0 then [{ raw.event with time := ⌊p.elapse length raw.tick⌋.toNat }] else [] := by
  rw [place]
  dsimp only
  by_cases htempo : raw.tempo = 0
  · rw [if_neg (not_not.2 htempo), if_pos htempo]
    split
    · split
      · rfl
      · split <;> rfl
    · rfl
  · rw [if_pos htempo, if_neg htempo, append_nil]

@[simp] theorem time_place (length : ℕ → ℚ) (p : Placing) (raw : RawEvent) : (p.place length raw).time = p.elapse length raw.tick := by
  rw [place]
  dsimp only
  split_ifs <;> rfl

@[simp] theorem lastTick_place (length : ℕ → ℚ) (p : Placing) (raw : RawEvent) : (p.place length raw).lastTick = raw.tick := by
  rw [place]
  dsimp only
  split_ifs <;> rfl

theorem tempo_place (length : ℕ → ℚ) (p : Placing) (raw : RawEvent) :
    (p.place length raw).tempo = if raw.tempo = 0 then p.tempo else raw.tempo := by
  rw [place]
  dsimp only
  by_cases htempo : raw.tempo = 0
  · rw [if_neg (not_not.2 htempo), if_pos htempo]
    split_ifs <;> rfl
  · rw [if_pos htempo, if_neg htempo]

theorem InOrder.place {length : ℕ → ℚ} (hlength : ∀ tempo, 0 ≤ length tempo) {data : List UInt8} {p : Placing} (h : p.InOrder data)
    {raw : RawEvent} (hraw : raw.event.offset + raw.event.length ≤ data.length) : (p.place length raw).InOrder data := by
  have hle := elapse_le hlength raw.tick p
  have hevents := events_place length p raw
  have hold : ∀ e ∈ p.events, e.time ≤ ⌊p.elapse length raw.tick⌋.toNat := fun e he => (h.atMost e he).trans hle
  split at hevents
  · constructor
    · rw [hevents]
      intro e he
      obtain he | he := mem_append.1 he
      · exact h.inside e he
      · obtain rfl := mem_singleton.1 he
        exact hraw
    · rw [hevents, pairwise_append]
      refine ⟨h.inOrder, pairwise_singleton _ _, fun e he e' he' => ?_⟩
      obtain rfl := mem_singleton.1 he'
      exact hold e he
    · rw [hevents, time_place]
      intro e he
      obtain he | he := mem_append.1 he
      · exact hold e he
      · obtain rfl := mem_singleton.1 he
        exact le_rfl
  · rw [append_nil] at hevents
    constructor
    · rw [hevents]
      exact h.inside
    · rw [hevents]
      exact h.inOrder
    · rw [hevents, time_place]
      exact hold

theorem InOrder.foldl {length : ℕ → ℚ} (hlength : ∀ tempo, 0 ≤ length tempo) {data : List UInt8} : ∀ {raws : List RawEvent} {p : Placing},
    p.InOrder data → Reading.Inside raws data → (raws.foldl (Placing.place length) p).InOrder data
  | [], _, h, _           => h
  | raw :: raws, _, h, hin => @foldl _ hlength _ raws _ (h.place hlength (hin raw (.head _))) fun x hx => hin x (.tail _ hx)

end Placing

theorem tickLength_nonneg {smpte : Option ℚ} (hsmpte : ∀ length ∈ smpte, 0 ≤ length) (division tempo : ℕ) :
    0 ≤ tickLength smpte division tempo := by
  cases smpte with
  | none => exact div_nonneg (Nat.cast_nonneg _) (Nat.cast_nonneg _)
  | some length => exact hsmpte length rfl

theorem smpteTickLength_nonneg {division : ℕ} {length : ℚ} (h : smpteTickLength division = some length) : 0 ≤ length := by
  unfold smpteTickLength at h
  dsimp only at h
  generalize (-((division / 256 : ℕ) - 256 : ℤ)) = frames at h
  split at h
  · exact absurd h (by simp)
  rename_i hok
  cases h
  have hframes : (0 : ℚ) ≤ frames := by
    rw [not_or, not_le] at hok
    exact_mod_cast hok.1.le
  refine div_nonneg (by norm_num) (mul_nonneg ?_ (Nat.cast_nonneg _))
  split
  · norm_num
  · exact hframes

theorem sound_place {division : ℕ} {smpte : Option ℚ} (hsmpte : ∀ length ∈ smpte, 0 ≤ length) {t : Tracks}
    (h : Reading.Inside t.reading.events t.reading.data) : Sound (place division smpte t).1 := by
  have hlength := tickLength_nonneg hsmpte division
  have hsorted : Reading.Inside (sorted t.reading.events) t.reading.data := fun raw hraw => h raw (mem_mergeSort.1 hraw)
  have hnone : Placing.InOrder t.reading.data {} :=
    ⟨fun _ h => absurd h not_mem_nil, .nil, fun _ h => absurd h not_mem_nil⟩
  obtain ⟨hinside, horder, hmost⟩ := hnone.foldl hlength hsorted
  refine ⟨hinside, horder, fun e he => (hmost e he).trans ?_⟩
  change _ ≤ Placing.duration _ _ _
  rw [Placing.duration]
  split
  · exact Placing.elapse_le hlength _ _
  · exact le_rfl

/-- **Any bytes are read**, none outside of them, and to the end; and the song is in order. -/
theorem setTo_sound (file : List UInt8) : ∃ song ok, setTo file = some (song, ok) ∧ Sound song := by
  obtain ⟨smf, hsmf⟩ := unwrap_total file
  rw [setTo, hsmf]
  cases smf with
  | none => exact ⟨_, _, rfl, sound_failed [] []⟩
  | some smf =>
    obtain ⟨h, hh⟩ := header_total smf
    cases h with
    | none => exact ⟨_, _, by simp only [Option.bind_eq_bind, Option.bind_some, hh]; rfl, sound_failed [] []⟩
    | some h =>
      simp only [Option.bind_eq_bind, Option.bind_some, hh, readTracks]
      obtain ⟨t, ht, hinside⟩ := chunks_total smf h.trackCount ((8 + h.size) % 2 ^ 32)
      rw [ht, Option.bind_some]
      split
      · cases hl : smpteTickLength h.division with
        | none => exact ⟨_, _, rfl, sound_failed _ _⟩
        | some length =>
          exact ⟨_, _, rfl, sound_place (fun l hl' => by cases hl'; exact smpteTickLength_nonneg hl) hinside⟩
      · exact ⟨_, _, rfl, sound_place (fun _ hl => absurd hl (by simp)) hinside⟩

end MidiPlayer
end Prose
