import Prose.MidiSynth
/-!
# MidiSeek — a seek sets the output's channels up as playing would

What `_ResetChannelsLocked` and `_ChaseLocked` send leaves out messages that a later one of their kind overrides.  In between they may have
had an effect of their own: a bank select at a program change, a mode message on the other controllers.  What depends on such an effect,
and what the reset does not reach, is stale (`set_up_as_played`).
-/
namespace Prose
namespace MidiPlayer

open Slices SongPlayer List

/-! ## The reset -/

theorem status_of (high : UInt8) (hhigh : high = 0xB0 ∨ high = 0xC0) (channel : Fin 16) :
    channelOf (high ||| UInt8.ofNat channel) = channel ∧ (high ||| UInt8.ofNat channel) &&& 0xF0 = high := by
  obtain rfl | rfl := hhigh <;> revert channel <;> decide

namespace Synthesizer

theorem hear_controlChange (y : Synthesizer) (before : List Sent) (channel : Fin 16) (n v : UInt8) :
    y.hear before (SongPlayer.controlChange channel n v) = (y.controlChange n v).onPart channel := by
  obtain ⟨hchannel, hhigh⟩ := status_of 0xB0 (.inl rfl) channel
  simp [hear, SongPlayer.controlChange, Sent.channelMessage, channelMessage, hchannel, hhigh]

theorem hear_programChange (y : Synthesizer) (before : List Sent) (channel : Fin 16) (v : UInt8) :
    y.hear before (SongPlayer.programChange channel v) = (programChange v).onPart channel := by
  obtain ⟨hchannel, hhigh⟩ := status_of 0xC0 (.inr rfl) channel
  simp [hear, SongPlayer.programChange, Sent.channelMessage, channelMessage, hchannel, hhigh]

theorem remember_controlChange (before : List Sent) (channel : Fin 16) (n v : UInt8) :
    remember before (SongPlayer.controlChange channel n v) = before := rfl

theorem remember_programChange (before : List Sent) (channel : Fin 16) (v : UInt8) :
    remember before (SongPlayer.programChange channel v) = before := rfl

def reached (y : Synthesizer) : Field → Bool
  | .controller n => n = 0 || n = 7 || n = 10 || n = 32 || y.resets n
  | .coarse _     => false
  | .fine _       => false
  | _             => true

theorem run_resetControllers (y : Synthesizer) (s : Field → ℕ) (f : Field) :
    (y.controlChange 121 0).run s f = if y.putBack f then y.initial f else s f := by
  change (y.resetControllers).run s f = _
  simp only [resetControllers, Action.assign]
  split <;> rfl

theorem run_controlChange (y : Synthesizer) {n : UInt8} (v : UInt8) (hn : n.toNat < 120)
    (hplain : ∀ a, y.parameter ⟨n.toNat, hn⟩ a = Action.id) (s : Field → ℕ) :
    (y.controlChange n v).run s = Function.update s (.controller ⟨n.toNat, hn⟩) v.toNat := by
  rw [controlChange, dif_pos hn, hplain]
  exact Action.run_set _ _ _

theorem run_programChange (program : UInt8) (s : Field → ℕ) : (programChange program).run s =
    Function.update (Function.update (Function.update s .bankMsb (s (.controller 0))) .bankLsb (s (.controller 32))) .program
      program.toNat := by
  funext f
  cases f <;> simp [programChange, Action.comp, Action.copy, Action.run_set, Function.update]

theorem heard_reset (y : Synthesizer) (before : List Sent) (volume : ℚ) (channel : Fin 16) (ms : List Sent) (s : Channels) :
    y.heard before (reset volume channel ++ ms) s =
      y.heard before ms fun x => if x.1 = channel ∧ y.reached x.2 then y.start volume x else s x := by
  simp only [reset, cons_append, nil_append, heard, hear_controlChange, hear_programChange, remember_controlChange,
    remember_programChange]
  congr 1
  funext ⟨j, f⟩
  by_cases hj : j = channel
  · subst hj
    have hplain : ∀ n : Fin 120, n = 0 ∨ n = 32 ∨ n = 7 ∨ n = 10 → ∀ a, y.parameter n a = Action.id := by
      rintro n (rfl | rfl | rfl | rfl) a <;> rfl
    simp only [Action.run_onPart]
    rw [@run_controlChange y 10 64 (by decide) (hplain 10 (by decide)), @run_controlChange y 7 _ (by decide) (hplain 7 (by decide)),
      run_programChange, @run_controlChange y 32 0 (by decide) (hplain 32 (by decide)),
      @run_controlChange y 0 0 (by decide) (hplain 0 (by decide))]
    simp only [run_resetControllers, Function.update_apply]
    obtain ⟨hzero, hlow, hmsb, hlsb⟩ := y.initial_bank
    have hpan := y.initial_pan
    cases f with
    | controller n =>
      change (if Field.controller n = .controller 10 then 64 else if Field.controller n = .controller 7 then _ else
        if Field.controller n = .controller 32 then 0 else if Field.controller n = .controller 0 then 0 else _) = _
      simp only [Field.controller.injEq, reached, start, putBack]
      grind
    | program => simp [reached, start, y.initial_program]
    | bankMsb => simp [reached, start, hmsb]
    | bankLsb => simp [reached, start, hlsb]
    | _ => simp [reached, start, putBack]
  · simp [Action.onPart, hj]

theorem heard_resets (y : Synthesizer) (before : List Sent) (volume : ℚ) (ms : List Sent) : ∀ (channels : List (Fin 16)) (s : Channels),
    y.heard before (channels.flatMap (reset volume) ++ ms) s =
      y.heard before ms fun x => if x.1 ∈ channels ∧ y.reached x.2 then y.start volume x else s x
  | [], s            => by simp
  | c :: channels, s => by
    rw [flatMap_cons, append_assoc, heard_reset, heard_resets y before volume ms channels]
    congr 1
    funext x
    simp only [mem_cons]
    grind

end Synthesizer

/-! ## What is left out -/

def Synthesizer.chased (y : Synthesizer) (song : Song) (volume : ℚ) :
    List Sent → List (SongEvent × Bool) → List (Action (Fin 16 × Field) ℕ × Bool)
  | _, []                   => []
  | before, (e, kept) :: es =>
    (y.hear before (song.message volume e), kept) :: y.chased song volume (remember before (song.message volume e)) es

def Synthesizer.left (y : Synthesizer) (s : Channels) : Set (Fin 16 × Field) := {x | y.reached x.2 = false ∧ s x ≠ y.initial x.2}

theorem runAll_chased (y : Synthesizer) (song : Song) (volume : ℚ) : ∀ (es : List (SongEvent × Bool)) (before : List Sent) (s : Channels),
    runAll (y.chased song volume before es) s = y.heard before ((es.map Prod.fst).map (song.message volume)) s
  | [], _, _           => rfl
  | (_, _) :: es, _, _ => runAll_chased y song volume es _ _

theorem remember_message (song : Song) (volume : ℚ) {e : SongEvent} (he : e.status < 0xF0) (before : List Sent) :
    remember before (song.message volume e) = before := by
  have hexclusive : e.status ≠ 0xF0 := by rintro h; rw [h] at he; exact absurd he (by decide)
  have hraw : e.status ≠ 0xF7 := by rintro h; rw [h] at he; exact absurd he (by decide)
  rw [Song.message, if_neg hexclusive, if_neg hraw]
  split
  · rfl
  · split <;> rfl

theorem runKept_chased (y : Synthesizer) (song : Song) (volume : ℚ) : ∀ (es : List (SongEvent × Bool)) (before : List Sent) (s : Channels),
    (∀ x ∈ es, x.2 = false → x.1.status < 0xF0) → runKept (y.chased song volume before es) s =
      y.heard before (((es.filter (·.2)).map Prod.fst).map (song.message volume)) s
  | [], _, _, _                   => rfl
  | (e, true) :: es, before, s, h => runKept_chased y song volume es _ _ fun x hx => h x (.tail _ hx)
  | (e, false) :: es, before, s, h => by
    have he : e.status < 0xF0 := h (e, false) (.head _) rfl
    rw [Synthesizer.chased, remember_message song volume he]
    exact runKept_chased y song volume es _ _ fun x hx => h x (.tail _ hx)

theorem mem_marks : ∀ {es : List SongEvent} {e : SongEvent} {kept : Bool}, (e, kept) ∈ marks es →
    (kept = true → choice e ≠ .never) ∧ (kept = false → choice e ≠ .always)
  | e :: es, e', kept, h => by
    have ih := @mem_marks es e' kept
    rw [marks, keep] at h
    split at h
    · next hc =>
      obtain h | h := mem_cons.1 h
      · cases h
        simp [hc]
      · exact ih h
    · next hc =>
      obtain h | h := mem_cons.1 h
      · cases h
        simp [hc]
      · exact ih h
    · next hc =>
      split at h <;> obtain h | h := mem_cons.1 h
      · cases h
        simp [hc]
      · exact ih h
      · cases h
        simp [hc]
      · exact ih h

theorem setsUp_of_choice {e : SongEvent} (h : choice e ≠ .never) : setsUp e = true := by
  unfold choice at h
  dsimp only at h
  unfold setsUp
  generalize e.status &&& 0xF0 = high at h ⊢
  by_cases hs : 0xF0 ≤ e.status
  · simp [hs]
  · simp only [if_neg hs] at h
    simp only [hs, decide_false, Bool.false_or, Bool.not_eq_true', Bool.or_eq_false_iff, beq_eq_false_iff_ne]
    refine ⟨⟨?_, ?_⟩, ?_⟩ <;> rintro rfl <;> exact h rfl

theorem status_of_choice {e : SongEvent} (h : choice e ≠ .always) : e.status < 0xF0 := by
  by_contra hs
  exact h (if_pos (UInt8.not_lt.1 hs))

theorem map_fst_marks (es : List SongEvent) : (marks es).map Prod.fst = es :=
  map_fst_zip (length_keep es).ge

/-- What the seek depends on: the messages that set something up, each with whether it is sent again. -/
def Synthesizer.seek (y : Synthesizer) (song : Song) (volume : ℚ) (upTo : ℕ) : List (Action (Fin 16 × Field) ℕ × Bool) :=
  y.chased song volume [] ((marks (song.events.take upTo)).filter (setsUp ·.1))

/-! ## A General MIDI synthesizer -/

def gmInitial : Field → ℕ
  | .controller n =>
    if n = 7 then 100 else if n = 10 then 64 else if n = 11 then 127 else if 98 ≤ n ∧ n ≤ 101 then 127 else 0
  | .bend         => 8192
  | _             => 0

/-- Controllers 1, 11, 64 to 67 and the parameter numbers are put back; data increments act on the coarse value; "General MIDI
System On" puts everything back. -/
def gm : Synthesizer where
  initial := gmInitial
  resets n := n = 1 || n = 11 || (64 ≤ n && n ≤ 67) || (98 ≤ n && n ≤ 101)
  steps up p := .update (.coarse p) fun v => if up then min (v + 1) 127 else v - 1
  exclusive _ m := .assign fun x => if m = .exclusive [0x7E, 0x7F, 0x09, 0x01] then some (gmInitial x.2) else none
  initial_bank := ⟨rfl, rfl, rfl, rfl⟩
  initial_program := rfl
  initial_pan := rfl

def event (status data1 data2 : UInt8) : SongEvent := ⟨0, status, data1, data2, 0, 0⟩

def songOf (es : List SongEvent) : Song := ⟨es, [], [], 0, fun _ => false, fun _ => none⟩

def quiet : SongPlayer := ⟨true, 1, fun _ => 100, fun _ => none, fun _ => 0, fun _ => 0, fun _ => 0⟩

/-- **A seek sets the channels up as playing would.**  What is not stale is as the song has set it up: what the reset does not reach is
stale when it is left different from its default, and so is what a message that is left out has changed, until a message sets it
without regard to anything stale. -/
theorem set_up_as_played (y : Synthesizer) (song : Song) (p : SongPlayer) (hout : p.output = true) (upTo : ℕ) (s : Channels) :
    Set.EqOn (y.played song p.volume upTo) (y.heard [] (p.setUp song upTo).2 s)
      (stale (y.seek song p.volume upTo) (y.start p.volume) (y.left s))ᶜ := by
  have hplayed : y.played song p.volume upTo = runAll (y.seek song p.volume upTo) (y.start p.volume) := by
    rw [Synthesizer.seek, runAll_chased, Synthesizer.played]
    congr 2
    conv_lhs => rw [← map_fst_marks (song.events.take upTo), filter_map]
    rfl
  have hkept : ∀ x ∈ (marks (song.events.take upTo)).filter (setsUp ·.1), x.2 = false → x.1.status < 0xF0 := fun x hx hfalse =>
    status_of_choice ((mem_marks (mem_filter.1 hx).1).2 hfalse)
  have hsent : ((marks (song.events.take upTo)).filter (setsUp ·.1)).filter (·.2) = (marks (song.events.take upTo)).filter (·.2) := by
    rw [filter_filter]
    refine filter_congr fun x hx => ?_
    cases hx2 : x.2 with
    | false => rfl
    | true => simpa using setsUp_of_choice ((mem_marks hx).1 hx2)
  rw [hplayed, setUp_sent song upTo hout, y.heard_resets, ← hsent, ← runKept_chased y song p.volume _ _ _ hkept]
  refine eqOn_of_stale fun x hx => ?_
  simp only [mem_finRange, true_and]
  split
  · rfl
  rename_i hreached
  have hinitial : s x = y.initial x.2 := by
    by_contra hne
    exact hx ⟨Bool.eq_false_of_not_eq_true hreached, hne⟩
  rw [hinitial, Synthesizer.start, if_neg]
  intro hvolume
  rw [hvolume] at hreached
  exact hreached rfl

def bent : Song := songOf [event 0xE0 0 65, event 0xE0 0 66, event 0xB0 0 1, event 0xC0 5 0]

theorem bent_as_played : gm.played bent 1 4 = gm.heard [] (quiet.setUp bent 4).2 (gm.start 1) := by
  have hleft : gm.left (gm.start 1) = ∅ := by
    ext x
    simp only [Synthesizer.left, Set.mem_ofPred_eq, Set.mem_empty_iff_false, iff_false, not_and, not_not]
    intro hreached
    refine if_neg fun hvolume => ?_
    rw [hvolume] at hreached
    exact absurd hreached (by decide)
  have hseek : gm.seek bent 1 4 =
      [(.onPart (.set .bend 8320) 0, false), (.onPart (.set .bend 8448) 0, true),
        (.onPart (gm.controlChange 0 1) 0, true), (.onPart (Synthesizer.programChange 5) 0, true)] := rfl
  have hstale : stale (gm.seek bent 1 4) (gm.start 1) (gm.left (gm.start 1)) = ∅ := by
    rw [hleft, hseek, stale, stale]
    have hnone : {f | ∃ g ∈ (Action.onPart (.set .bend 8448) 0 : Action (Fin 16 × Field) ℕ).deps
        ((Action.onPart (.set .bend 8320) 0 : Action (Fin 16 × Field) ℕ).run (gm.start 1)) f,
        g ∈ {f | f ∈ (∅ : Set (Fin 16 × Field)) ∨
          (Action.onPart (.set .bend 8320) 0 : Action (Fin 16 × Field) ℕ).run (gm.start 1) f ≠ gm.start 1 f}} = ∅ := by
      ext ⟨c, f⟩
      simp only [Action.onPart, Action.set, Action.assign, Set.mem_ofPred_eq, Set.mem_empty_iff_false, iff_false,
        false_or, not_exists, not_and, not_not]
      rintro ⟨d, g⟩ hg
      by_cases hc : c = 0
      · rw [if_pos hc] at hg
        obtain ⟨-, hbend, rfl⟩ := hg
        have hother : g ≠ .bend := by
          rintro rfl
          simp at hbend
        by_cases hd : d = 0
        · simp [hd, hother]
        · simp [hd]
      · rw [if_neg hc] at hg
        cases hg
        exact if_neg hc
    rw [hnone]
    exact stale_of_kept _ (by simp)
  have h := set_up_as_played gm bent quiet rfl 4 (gm.start 1)
  rw [show stale (gm.seek bent quiet.volume 4) (gm.start quiet.volume) (gm.left (gm.start 1)) = ∅ from hstale] at h
  exact funext fun x => h (fun hx => hx)

def banked : Song := songOf [event 0xB0 0 1, event 0xC0 5 0, event 0xB0 0 2]

/-- Program 5 of bank 1 plays; behind the seek it is program 5 of bank 0. -/
theorem bank_lost : gm.played banked 1 3 (0, .bankMsb) = 1 ∧
    gm.heard [] (quiet.setUp banked 3).2 (gm.start 1) (0, .bankMsb) = 0 := by
  decide

end MidiPlayer
end Prose
