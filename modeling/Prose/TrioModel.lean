import Prose.ChipSchedule
/-!
# TrioModel — three chips, nine voices, four tracks

`Trio` of `trio.swift`: the tracks, which voice holds which note for whom, and the loop that applies what is due and
renders to the next event.  The oscillators are not here, nor the registers that are set in them: all the allocation asks of
them is which envelopes are idle, and that is what `Idle` says.  What the schedules have asked for is kept in `log`, with the
output frame it was asked before.
-/
namespace Prose
namespace Chip

open Trapping

structure Macros where
  note : Int := -1
  owner : Int := -1
  age : Int := 0

structure Track where
  steps : List Step := []
  cursor : Nat := 0
  position : Int := 0
  loop : Bool := false
  playing : Bool := false

structure Applied where
  frame : Nat
  track : Fin 4
  index : Nat

structure Trio where
  tracks : Fin 4 → Track := fun _ => {}
  /-- Of each chip, its voices. -/
  macros : Fin 3 → Fin 3 → Macros := fun _ _ => {}
  referenceAllocation : Bool := false
  /-- The frames rendered so far. -/
  frame : Nat := 0
  log : List Applied := []

/-- Which envelopes are idle, for the strike of a track's step at a frame. -/
abbrev Idle := Nat → Fin 4 → Nat → Fin 3 → Fin 3 → Bool

namespace Trio

scoped instance neZero_3 : NeZero 3 := ⟨by decide⟩
scoped instance neZero_4 : NeZero 4 := ⟨by decide⟩

def setTrack (s : Trio) (t : Fin 4) (track : Track) : Trio := { s with tracks := Function.update s.tracks t track }

def setMacros (s : Trio) (chip v : Fin 3) (m : Macros) : Trio :=
  { s with macros := Function.update s.macros chip (Function.update (s.macros chip) v m) }

/-! ## Voices -/

def released (m : Macros) : Macros := { m with note := -1, owner := -1 }

def silence (s : Trio) (track : Int) : Trio :=
  { s with macros := fun chip v => if (s.macros chip v).owner = track then released (s.macros chip v)
      else s.macros chip v }

/-- `V:n` lands on chip (n-1)/3. -/
def chipOf (abcVoice : Int) : Fin 3 := ⟨(max 0 (min 2 ((abcVoice - 1).tdiv 3))).toNat, by omega⟩

def preferredOf (abcVoice : Int) : Fin 3 := ⟨(max 0 ((abcVoice - 1).tmod 3)).toNat, by
  have := Int.tmod_lt_of_pos (abcVoice - 1) (show (0 : Int) < 3 by decide)
  omega⟩

def oldest (ms : Fin 3 → Macros) : Fin 3 :=
  let first : Fin 3 := if (ms 1).age < (ms 0).age then 1 else 0
  if (ms 2).age < (ms first).age then 2 else first

/-- The voice for a strike: its own, a free one, an idle one of this track, an idle one, the oldest. -/
def choose (reference : Bool) (ms : Fin 3 → Macros) (idle : Fin 3 → Bool) (preferred : Fin 3) (track : Int) : Fin 3 :=
  if !reference && (ms preferred).note < 0 then preferred
  else
    match [0, 1, 2].find? (fun v => (ms v).note < 0) with
    | some v => v
    | none =>
      match [0, 1, 2].find? (fun v => idle v && (ms v).owner = track) with
      | some v => v
      | none => ([0, 1, 2].find? idle).getD (oldest ms)

def applyNoteOn (s : Trio) (idle : Fin 3 → Fin 3 → Bool) (abcVoice midi : Int) (t : Fin 4) : Trio :=
  let chip := chipOf abcVoice
  let v := choose s.referenceAllocation (s.macros chip) (idle chip) (preferredOf abcVoice) (t : Nat)
  s.setMacros chip v { note := midi, owner := (t : Nat), age := (s.tracks t).position }

def applyNoteOff (s : Trio) (abcVoice midi : Int) (t : Fin 4) : Trio :=
  let chip := chipOf abcVoice
  match [0, 1, 2].find? (fun v => (s.macros chip v).note = midi && (s.macros chip v).owner = (t : Nat)) with
  | some v => s.setMacros chip v (released (s.macros chip v))
  | none   => s

/-! ## What the outside asks for -/

def strandedSettings (tune : Tune) : Option (List String) :=
  if tune.notes = [] ∨ tune.chips = [] then some []
  else do
    let playedOn ← tune.notes.mapM (fun n => do some (max 0 ((← sub n.voice 1).tdiv 3)))
    let stranded ← (tune.chips.filter (fun c => c.param < CP.pan)).mapM (fun c => do
      let chip := (← sub c.voice 1).tdiv 3
      some (if c.voice < 1 ∨ 9 < c.voice then [-1] else if chip ∉ playedOn then [c.voice] else []))
    some ((stranded.flatten.dedup.mergeSort (fun a b => a ≤ b)).map (fun v =>
      if v < 0 then "a chip setting names a voice outside 1..9, so it was dropped"
      else "[I:chip v=" ++ toString v ++ "] is chip " ++ toString ((v - 1).tdiv 3) ++ ", which no note of this "
        ++ "tune plays on: those registers were set where nothing sounds"))

def load (s : Trio) (steps : List Step) (t : Fin 4) (loop : Bool) : Trio :=
  (s.silence (t : Nat)).setTrack t { steps, cursor := 0, position := 0, loop, playing := steps ≠ [] }

def play (u : Unicode) (s : Trio) (source : Text) (track : Int) (loop : Bool) :
    Option (Trio × Nat × List String) := do
  let tune ← parseABC u source
  let steps ← schedule tune kChipSampleRate
  let stranded ← strandedSettings tune
  if h : 0 ≤ track ∧ track < 4 then
    let t : Fin 4 := ⟨track.toNat, by omega⟩
    some (s.load steps t loop, tune.notes.length, tune.barWarnings ++ stranded)
  else some (s, 0, ["no such track"])

def stop (s : Trio) (track : Int) : Trio :=
  if h : 0 ≤ track ∧ track < 4 then
    let t : Fin 4 := ⟨track.toNat, by omega⟩
    let s := s.silence track
    s.setTrack t { s.tracks t with playing := false, steps := [] }
  else s

def stopAll (s : Trio) : Trio := (((s.stop 0).stop 1).stop 2).stop 3

def isPlaying (s : Trio) (t : Fin 4) : Bool := (s.tracks t).playing

/-! ## Rendering -/

def applyStep (idle : Idle) (t : Fin 4) (step : Step) (s : Trio) : Trio :=
  let cursor := (s.tracks t).cursor
  let s := { s with log := s.log ++ [Applied.mk s.frame t cursor] }
  let s := match step.kind with
    | .noteOn  => s.applyNoteOn (idle s.frame t cursor) step.voice step.midi t
    | .noteOff => s.applyNoteOff step.voice step.midi t
    | .chip    => s
  s.setTrack t { s.tracks t with cursor := cursor + 1 }

def applyDue (idle : Idle) (t : Fin 4) : Nat → Trio → Trio
  | 0, s        => s
  | fuel + 1, s =>
    match (s.tracks t).steps[(s.tracks t).cursor]? with
    | some step => if step.sample ≤ (s.tracks t).position then applyDue idle t fuel (applyStep idle t step s) else s
    | none      => s

def endOf (track : Track) : Track :=
  if track.steps.length ≤ track.cursor then
    if track.loop then { track with cursor := 0, position := 0 } else { track with playing := false }
  else track

def due (idle : Idle) (s : Trio) (t : Fin 4) : Trio :=
  if (s.tracks t).playing then
    let s := applyDue idle t ((s.tracks t).steps.length + 1) s
    s.setTrack t (endOf (s.tracks t))
  else s

def allDue (idle : Idle) (s : Trio) : Trio := [0, 1, 2, 3].foldl (due idle) s

def toNext (track : Track) (span : Int) : Int :=
  if track.playing then
    match track.steps[track.cursor]? with
    | some step => min span (max 1 (step.sample - track.position))
    | none      => span
  else span

def span (s : Trio) (left : Nat) : Nat :=
  (max 1 ([0, 1, 2, 3].foldl (fun n t => toNext (s.tracks t) n) (min (left : Int) 4096))).toNat

def advance (s : Trio) (n : Nat) : Trio :=
  { s with
    tracks := fun t => if (s.tracks t).playing then { s.tracks t with position := (s.tracks t).position + n } else s.tracks t
    frame := s.frame + n }

/-- The loop of `render`, `left` frames before its end. -/
def renderLoop (idle : Idle) : Nat → Nat → Trio → Trio
  | 0, _, s           => s
  | fuel + 1, left, s =>
    if left = 0 then s
    else
      let s := s.allDue idle
      let n := s.span left
      renderLoop idle fuel (left - n) (s.advance n)

def render (idle : Idle) (s : Trio) (frames : Nat) : Trio := renderLoop idle frames frames s

end Trio

end Chip
end Prose
