import Prose.MidiPlay
import Prose.Slices
/-!
# MidiSynth — what a General MIDI synthesizer's channels are after what is sent

What the output is for: a channel's bank and program are those of its last program change, data entry goes to the parameter that was
selected last, and controller 121 puts some controllers back.  Synthesizers differ in which, in their other defaults, in what data
increments do, and in what exclusive messages do.
-/
namespace Prose
namespace MidiPlayer

open Slices

scoped instance neZero_120 : NeZero 120 := ⟨by decide⟩

structure Parameter where
  registered : Bool
  msb : ℕ
  lsb : ℕ
  deriving DecidableEq

/-- What a channel has.  `parameters` says which kind of parameter is selected: 1 a registered one, 2 another, 0 none. -/
inductive Field
  | controller (n : Fin 120)
  | bend
  | pressure
  | bankMsb
  | bankLsb
  | program
  | parameters
  | coarse (p : Parameter)
  | fine (p : Parameter)
  deriving DecidableEq

abbrev Channels := Fin 16 × Field → ℕ

structure Synthesizer where
  initial : Field → ℕ
  resets : Fin 120 → Bool
  steps : Bool → Parameter → Action Field ℕ
  exclusive : List Sent → Sent → Action (Fin 16 × Field) ℕ
  initial_bank : initial (.controller 0) = 0 ∧ initial (.controller 32) = 0 ∧ initial .bankMsb = 0 ∧ initial .bankLsb = 0
  initial_program : initial .program = 0
  initial_pan : initial (.controller 10) = 64

/-! ## Messages -/

def parameterAt (registered : Bool) (msb lsb : ℕ) : Option Parameter :=
  if msb = 127 ∧ lsb = 127 then none else some ⟨registered, msb, lsb⟩

def selected (s : Field → ℕ) : Option Parameter :=
  if s .parameters = 1 then parameterAt true (s (.controller 101)) (s (.controller 100))
  else if s .parameters = 2 then parameterAt false (s (.controller 99)) (s (.controller 98))
  else none

def selecting : Set Field :=
  {f | f = .parameters ∨ f = .controller 101 ∨ f = .controller 100 ∨ f = .controller 99 ∨ f = .controller 98}

theorem selected_eq (s t : Field → ℕ) (h : Set.EqOn s t selecting) : selected s = selected t := by
  have h₀ : s .parameters = t .parameters := h (.inl rfl)
  have h₁ : s (.controller 101) = t (.controller 101) := h (.inr (.inl rfl))
  have h₂ : s (.controller 100) = t (.controller 100) := h (.inr (.inr (.inl rfl)))
  have h₃ : s (.controller 99) = t (.controller 99) := h (.inr (.inr (.inr (.inl rfl))))
  have h₄ : s (.controller 98) = t (.controller 98) := h (.inr (.inr (.inr (.inr rfl))))
  simp only [selected, h₀, h₁, h₂, h₃, h₄]

def onSelected (a : Parameter → Action Field ℕ) : Action Field ℕ :=
  Action.choose selected selecting selected_eq fun
    | none   => Action.id
    | some p => a p

namespace Synthesizer

def parameter (y : Synthesizer) (n : Fin 120) (value : ℕ) : Action Field ℕ :=
  if n = 6 then onSelected fun p => .set (.coarse p) value
  else if n = 38 then onSelected fun p => .set (.fine p) value
  else if n = 96 then onSelected (y.steps true)
  else if n = 97 then onSelected (y.steps false)
  else if n = 98 ∨ n = 99 then .set .parameters 2
  else if n = 100 ∨ n = 101 then .set .parameters 1
  else Action.id

def putBack (y : Synthesizer) : Field → Bool
  | .controller n => y.resets n
  | .bend         => true
  | .pressure     => true
  | .parameters   => true
  | _             => false

def resetControllers (y : Synthesizer) : Action Field ℕ :=
  .assign fun f => if y.putBack f then some (y.initial f) else none

def controlChange (y : Synthesizer) (controller value : UInt8) : Action Field ℕ :=
  if h : controller.toNat < 120 then
    (Action.set (.controller ⟨_, h⟩) value.toNat).comp (y.parameter ⟨_, h⟩ value.toNat)
  else if controller = 121 then y.resetControllers
  else Action.id

def programChange (program : UInt8) : Action Field ℕ :=
  ((Action.copy .bankMsb (.controller 0)).comp (.copy .bankLsb (.controller 32))).comp (.set .program program.toNat)

def channelMessage (y : Synthesizer) (status data1 data2 : UInt8) : Action Field ℕ :=
  let high := status &&& 0xF0
  if high = 0xB0 then y.controlChange data1 data2
  else if high = 0xC0 then programChange data1
  else if high = 0xD0 then .set .pressure data1.toNat
  else if high = 0xE0 then .set .bend (data1.toNat + 128 * data2.toNat)
  else Action.id

end Synthesizer

def Sent.channelMessage : Sent → Option (UInt8 × UInt8 × UInt8)
  | .spray [status, data1] true        => some (status, data1, 0)
  | .spray [status, data1, data2] true => some (status, data1, data2)
  | _                                  => none

def remember (before : List Sent) (m : Sent) : List Sent := if m.channelMessage = none then before ++ [m] else before

namespace Synthesizer

def hear (y : Synthesizer) (before : List Sent) (m : Sent) : Action (Fin 16 × Field) ℕ :=
  match m.channelMessage with
  | some (status, data1, data2) => (y.channelMessage status data1 data2).onPart (channelOf status)
  | none                        => y.exclusive before m

def heard (y : Synthesizer) : List Sent → List Sent → Channels → Channels
  | _, [], s           => s
  | before, m :: ms, s => heard y (remember before m) ms ((y.hear before m).run s)

def start (y : Synthesizer) (volume : ℚ) : Channels := fun x =>
  if x.2 = .controller 7 then (scaledVolume volume 100).toNat else y.initial x.2

end Synthesizer

def setsUp (e : SongEvent) : Bool :=
  0xF0 ≤ e.status || !(e.status &&& 0xF0 == 0x80 || e.status &&& 0xF0 == 0x90 || e.status &&& 0xF0 == 0xA0)

/-- What the song has set up by an event: the defaults, and the events before it without the notes and key pressures. -/
def Synthesizer.played (y : Synthesizer) (song : Song) (volume : ℚ) (upTo : ℕ) : Channels :=
  y.heard [] (((song.events.take upTo).filter setsUp).map (song.message volume)) (y.start volume)

end MidiPlayer
end Prose
