import Prose.ChipText
import Prose.Loops
import Prose.Runs
import Prose.SortedMap
/-!
# ChipAbc — ABC notation in

`parseABC` of `abc.swift`.  A place in a line is what is left of the line behind it.  Every operation on `Int` is the one
that traps; counters of what has been read of a line are plain numbers.
-/
namespace Prose
namespace Chip

open Trapping

def kTicksPerWhole : Int := 1920

/-! ## Registers -/

namespace CP

def wave : Int := 1
def pw : Int := 2
def a : Int := 3
def d : Int := 4
def s : Int := 5
def r : Int := 6
def filt : Int := 7
def cutoff : Int := 20
def res : Int := 21
def fmode : Int := 22
def vol : Int := 23
def pan : Int := 30
def echo : Int := 31
def etime : Int := 32
def efb : Int := 33
def arp : Int := 40
def vib : Int := 41
def slide : Int := 42
def pwm : Int := 43
def sweep : Int := 44
def trem : Int := 45

end CP

/-! ## Voices -/

def kNoAccidental : Int := 99

def noAccidentals : Vector Int 7 := Vector.replicate 7 kNoAccidental

structure ABCVoice where
  tick : Int := 0
  unitNum : Int := 1
  unitDen : Int := 8
  meterNum : Int := 4
  meterDen : Int := 4
  keySharps : Int := 0
  velocity : Int := 100
  accidentals : Vector Int 7 := noAccidentals

/-- What a music line carries from one note to the next; `lastNote` is -1 where there is none. -/
structure MusicCtx where
  tupletLeft : Int := 0
  tupletNum : Int := 1
  tupletDen : Int := 1
  broken : Int := 0
  lastNote : Int := -1
  pendingTie : Bool := false

def tupletDefaultDen (p : Int) (compound : Bool) : Int :=
  if p = 2 then 3
  else if p = 3 then 2
  else if p = 4 then 3
  else if p = 6 then 2
  else if p = 8 then 3
  else if p = 5 ∨ p = 7 ∨ p = 9 then (if compound then 3 else 2)
  else 2

def kSemitone : Vector Int 7 := #v[0, 2, 4, 5, 7, 9, 11]

def kSharpOrder : List (Fin 7) := [3, 0, 4, 1, 5, 2, 6]

def keyAlter (sharps : Int) (letter : Fin 7) : Int :=
  if 0 < sharps then (if letter ∈ kSharpOrder.take (min sharps 7).toNat then 1 else 0)
  else if sharps < 0 then (if letter ∈ kSharpOrder.reverse.take (min (-sharps) 7).toNat then -1 else 0)
  else 0

section

variable (u : Unicode)

/-- The sharps of a `K:` field. -/
def keySharpsFor (name : Text) : Int :=
  match name with
  | [] => 0
  | first :: tail =>
    let tonic : Option Int :=
      if first.uppercased u = text "F" then some (-1)
      else if first.uppercased u = text "C" then some 0
      else if first.uppercased u = text "G" then some 1
      else if first.uppercased u = text "D" then some 2
      else if first.uppercased u = text "A" then some 3
      else if first.uppercased u = text "E" then some 4
      else if first.uppercased u = text "B" then some 5
      else none
    match tonic with
    | none => 0
    | some fifths =>
      let (fifths, tail) : Int × Text :=
        match tail with
        | .ascii '#' :: tail => (fifths + 7, tail)
        | .ascii 'b' :: tail => (fifths - 7, tail)
        | tail               => (fifths, tail)
      let rest := u.lowercased (tail.filter (fun c => !c.isWhitespace u))
      if (text "maj").isPrefixOf rest ∨ (text "ion").isPrefixOf rest then fifths
      else if (text "mix").isPrefixOf rest then fifths - 1
      else if (text "m").isPrefixOf rest then fifths - 3
      else if (text "dor").isPrefixOf rest then fifths - 2
      else if (text "phr").isPrefixOf rest then fifths - 4
      else if (text "lyd").isPrefixOf rest then fifths + 1
      else if (text "loc").isPrefixOf rest then fifths - 5
      else if (text "aeo").isPrefixOf rest then fifths - 3
      else fifths

/-! ## Chip settings -/

/-- `wave=`: the waveforms joined by `+`. -/
def waveOf (value : Text) : Nat :=
  (split (· = .ascii '+') value).foldl (fun w name =>
    if name = text "tri" then w ||| 1
    else if name = text "saw" then w ||| 2
    else if name = text "pulse" then w ||| 4
    else if name = text "noise" then w ||| 8
    else w) 0

/-- `arp=`: hex digits, the first one lowest, and how many there are above them. -/
def arpOf (value : Text) : Nat :=
  let (packed, count) := value.foldl (fun (packed, count) c =>
    match c.hexDigitValue u with
    | some digit => if count < 8 then (packed ||| digit <<< (4 * count), count + 1) else (packed, count)
    | none       => (packed, count)) (0, 0)
  if 0 < count then count <<< 32 ||| packed else 0

/-- `vib=`, `pwm=`, `trem=`: depth and rate, shifted as 64 bits. -/
def pairOf (value : Text) : Int :=
  let parts := splitOnce value
  let depth := min 255 (((parts.head?.getD (text "0")) |> int).getD 0)
  let rate := if 1 < parts.length then min 255 ((int ((parts.drop 1).headD [])).getD 0) else 0
  (BitVec.ofInt 64 depth <<< 8 ||| BitVec.ofInt 64 rate).toInt

def simple (key : Text) : Option Int :=
  if key = text "pw" then some CP.pw
  else if key = text "a" then some CP.a
  else if key = text "d" then some CP.d
  else if key = text "s" then some CP.s
  else if key = text "r" then some CP.r
  else if key = text "cutoff" then some CP.cutoff
  else if key = text "res" then some CP.res
  else if key = text "vol" then some CP.vol
  else if key = text "slide" then some CP.slide
  else if key = text "echo" then some CP.echo
  else if key = text "etime" then some CP.etime
  else if key = text "efb" then some CP.efb
  else none

/-- The register a setting names and its number, -1 where it has none. -/
def setting (key value : Text) : Option (Int × Int) :=
  if key = text "wave" then some (CP.wave, waveOf value)
  else if key = text "mode" then
    some (CP.fmode, if value = text "bp" then 2 else if value = text "hp" then 4 else 1)
  else if key = text "filt" then some (CP.filt, if value = text "on" ∨ value = text "1" then 1 else 0)
  else if key = text "arp" then some (CP.arp, arpOf u value)
  else if key = text "vib" then some (CP.vib, pairOf value)
  else if key = text "pwm" then some (CP.pwm, pairOf value)
  else if key = text "trem" then some (CP.trem, pairOf value)
  else if key = text "pan" then
    match int value with
    | none   => some (-1, -1)
    | some n => do some (CP.pan, ← add (max (-128) (min 127 n)) 128)
  else if key = text "sweep" then
    match int value with
    | none   => some (-1, -1)
    | some n => do some (CP.sweep, ← add n 1024)
  else
    match simple key, int value with
    | some p, some n => some (p, n)
    | _, _           => some (-1, -1)

/-- One word of the settings; `voice` is what `v=` said last. -/
def chipField (state : Int × List (Int × Int × Int)) (field : Text) : Option (Int × List (Int × Int × Int)) :=
  let (voice, out) := state
  let key := field.takeWhile (· ≠ .ascii '=')
  let value := field.drop (key.length + 1)
  if .ascii '=' ∉ field ∨ key = [] ∨ value = [] then some (voice, out)
  else if key = text "v" then some ((int value).getD voice, out)
  else do
    let (param, number) ← setting u key value
    some (voice, if 0 ≤ param ∧ 0 ≤ number then out ++ [(voice, param, number)] else out)

def chipSettings (s : Text) (currentVoice : Int) : Option (List (Int × Int × Int)) :=
  (Runs.run (chipField u) (currentVoice, []) (split (fun c => c = .ascii ' ' || c = .ascii ',') s)).map Prod.snd

end

/-! ## The tune, and what reads it -/

structure Note where
  tick : Int
  duration : Int
  voice : Int
  midi : Int
  velocity : Int

structure ChipSet where
  tick : Int
  voice : Int
  param : Int
  value : Int

structure Tune where
  notes : List Note := []
  chips : List ChipSet := []
  bpm : Int := 120
  tempoNum : Int := 1
  tempoDen : Int := 4
  midiPrograms : SortedMap Int Int := .empty
  midiChannels : SortedMap Int Int := .empty
  isChipTune : Bool := false
  barWarnings : List String := []

/-- What `parseABC` keeps from line to line. -/
structure Reader where
  tune : Tune := {}
  voices : SortedMap Int ABCVoice := .empty
  current : Int := 1
  unitSetInHeader : Bool := false

namespace Reader

/-- `voice(n)`: made from voice 1 when there is none. -/
def newVoice (r : Reader) : ABCVoice :=
  match r.voices.get? 1 with
  | some one => { unitNum := one.unitNum, unitDen := one.unitDen, keySharps := one.keySharps }
  | none     => {}

def voiceOf (r : Reader) (n : Int) : ABCVoice := (r.voices.get? n).getD r.newVoice

def setVoice (r : Reader) (n : Int) (v : ABCVoice) : Reader := { r with voices := r.voices.set n v }

/-- The reader behind `voice(n)`. -/
def withVoice (r : Reader) (n : Int) : Reader :=
  match r.voices.get? n with
  | some _ => r
  | none   => r.setVoice n r.newVoice

/-- `voices[n]!.tick += d`. -/
def advance (r : Reader) (n d : Int) : Option Reader := do
  let v ← r.voices.get? n
  let tick ← add v.tick d
  some (r.setVoice n { v with tick })

/-- `voices[n]!.tick = tick`. -/
def setTick (r : Reader) (n tick : Int) : Option Reader := do
  let v ← r.voices.get? n
  some (r.setVoice n { v with tick })

def setNotes (r : Reader) (notes : List Note) : Reader := { r with tune := { r.tune with notes } }

end Reader

/-! ## Fields -/

section

variable (u : Unicode)

def fieldV (r : Reader) (value : Text) : Reader :=
  let r := { r with current := (int (value.takeWhile (·.isNumber u))).getD 1 }
  r.setVoice r.current { r.voiceOf r.current with accidentals := noAccidentals }

def fieldK (r : Reader) (value : Text) : Reader :=
  r.setVoice r.current { r.voiceOf r.current with keySharps := keySharpsFor u value, accidentals := noAccidentals }

/-- `n/d` of an `L:`, an `M:` or a beat: two numbers, the second one above 0. -/
def fraction (value : Text) : Option (Int × Int) :=
  match split (· = .ascii '/') value with
  | [num, den] =>
    match int num, int den with
    | some n, some d => if 0 < d then some (n, d) else none
    | _, _           => none
  | _ => none

def fieldL (r : Reader) (value : Text) : Reader :=
  match fraction value with
  | none        => r
  | some (n, d) =>
    { r.setVoice r.current { r.voiceOf r.current with unitNum := n, unitDen := d } with unitSetInHeader := true }

def fieldM (r : Reader) (value : Text) : Reader :=
  match fraction value with
  | none        => r
  | some (n, d) =>
    let v := { r.voiceOf r.current with meterNum := n, meterDen := d }
    r.setVoice r.current
      (if r.unitSetInHeader then v else { v with unitNum := 1, unitDen := if ratioBelow n d then 16 else 8 })

def fieldQ (r : Reader) (value : Text) : Reader :=
  if .ascii '=' ∈ value then
    let beat := value.takeWhile (· ≠ .ascii '=')
    let tune := match fraction beat with
      | none        => r.tune
      | some (n, d) => { r.tune with tempoNum := n, tempoDen := d }
    let bpm := (int (u.trimmingCharacters (value.drop (beat.length + 1)))).getD tune.bpm
    { r with tune := { tune with bpm } }
  else
    match int (u.trimmingCharacters value) with
    | some n => { r with tune := { r.tune with bpm := n } }
    | none   => r

def applyField (r : Reader) (letter : Character) (value : Text) : Reader :=
  if letter = .ascii 'V' then fieldV u r value
  else if letter = .ascii 'K' then fieldK u r value
  else if letter = .ascii 'L' then fieldL r value
  else if letter = .ascii 'M' then fieldM r value
  else if letter = .ascii 'Q' then fieldQ u r value
  else r

def addChip (r : Reader) (c : Int × Int × Int) : Reader :=
  let r' := r.withVoice c.1
  { r' with tune := { r'.tune with
      chips := r'.tune.chips ++ [⟨(r.voiceOf c.1).tick, c.1, c.2.1, c.2.2⟩] } }

/-- An `I:` field. -/
def fieldI (r : Reader) (value : Text) : Option Reader := do
  let r := if (text "chip").isPrefixOf value then { r with tune := { r.tune with isChipTune := true } } else r
  let settings ← chipSettings u value r.current
  some (settings.foldl addChip r)

/-! ## Numbers and lengths -/

def digitRun : Text → List Nat
  | []     => []
  | c :: s => if c.isNumber u then (match c.wholeNumberValue u with | some d => d :: digitRun s | none => []) else []

def afterDigits : Text → Text
  | []     => []
  | c :: s => if c.isNumber u then (match c.wholeNumberValue u with | some _ => afterDigits s | none => c :: s) else c :: s

def readInt (cs : Text) : Option (Option Int × Text) := do
  let n ← (digitRun u cs).foldlM (fun (n : Int) (d : Nat) => do add (← mul n 10) d) 0
  some (if digitRun u cs = [] then none else some n, afterDigits u cs)

def slashes : Nat → Int → Text → Option (Int × Text)
  | 0, _, _          => none
  | fuel + 1, div, cs =>
    match cs with
    | .ascii '/' :: cs => do
      let (n, cs) ← readInt u cs
      let div ← mul div ((n.map (max 1)).getD 2)
      slashes fuel div cs
    | cs => some (div, cs)

def readDuration (cs : Text) (unit : Int) : Option (Option Int × Text) := do
  let (multiplier, cs) ← readInt u cs
  let (div, rest) ← slashes u (cs.length + 1) 1 cs
  if multiplier = none ∧ cs.head? ≠ some (.ascii '/') then some (none, rest)
  else do
    let x ← mul unit (multiplier.getD 1)
    let x ← quot x div
    some (some (max 1 x), rest)

def unitTicks (v : ABCVoice) : Option Int := do
  let x ← mul kTicksPerWhole v.unitNum
  let x ← quot x v.unitDen
  some (max 1 x)

def barTicks (v : ABCVoice) : Option Int := do
  let x ← mul kTicksPerWhole v.meterNum
  quot x (max 1 v.meterDen)

def halves : Nat → Option Int
  | 0     => some 2
  | n + 1 => do mul (← halves n) 2

/-- A length lengthened by a broken rhythm of `half`. -/
def lengthened (ticks half : Int) : Option Int := do
  let twice ← mul 2 half
  let x ← mul ticks (← sub twice 1)
  quot x half

def adjustTuplet (ticks : Int) (ctx : MusicCtx) : Option (Int × MusicCtx) :=
  if 0 < ctx.tupletLeft then do
    let x ← mul ticks ctx.tupletNum
    let x ← quot x ctx.tupletDen
    some (x, { ctx with tupletLeft := ctx.tupletLeft - 1 })
  else some (ticks, ctx)

def adjustBroken (ticks : Int) (ctx : MusicCtx) : Option (Int × MusicCtx) :=
  if ctx.broken = 0 then some (ticks, ctx)
  else do
    let half ← halves ((max |ctx.broken| 1).toNat - 1)
    let x ← (if 0 < ctx.broken then quot ticks half else lengthened ticks half)
    some (x, { ctx with broken := 0 })

def adjust (ticks : Int) (ctx : MusicCtx) : Option (Int × MusicCtx) := do
  let (ticks, ctx) ← adjustTuplet ticks ctx
  let (ticks, ctx) ← adjustBroken ticks ctx
  some (max 1 ticks, ctx)

/-! ## Notes -/

/-- `"CDEFGAB".firstIndex(of: Character(String(c).uppercased()))`.  A `Character` is made of one; that it is not of more
is a debug precondition, and one that is made of more is none of the letters. -/
def noteLetter (c : Character) : Option (Option (Fin 7)) :=
  match c.uppercased u with
  | []  => none
  | [d] =>
    some (if d = .ascii 'C' then some 0
    else if d = .ascii 'D' then some 1
    else if d = .ascii 'E' then some 2
    else if d = .ascii 'F' then some 3
    else if d = .ascii 'G' then some 4
    else if d = .ascii 'A' then some 5
    else if d = .ascii 'B' then some 6
    else none)
  | _   => if u.debugPreconditions then none else some none

def accidentalMark (c : Character) : Bool := c = .ascii '^' || c = .ascii '_' || c = .ascii '='

def accidental (alter : Int) (c : Character) : Option Int :=
  if c = .ascii '^' then (if alter = kNoAccidental then some 1 else add alter 1)
  else if c = .ascii '_' then (if alter = kNoAccidental then some (-1) else sub alter 1)
  else some 0

def octaveMark (c : Character) : Bool := c = .ascii '\'' || c = .ascii ','

def octaveUp (octave : Int) (c : Character) : Option Int :=
  if c = .ascii '\'' then add octave 1 else sub octave 1

def ABCVoice.record (v : ABCVoice) (alter : Int) (index : Fin 7) : ABCVoice :=
  if alter = kNoAccidental then v else { v with accidentals := v.accidentals.set index alter }

/-- What applies to a letter: the accidental that holds, or the key. -/
def ABCVoice.applied (v : ABCVoice) (index : Fin 7) : Int :=
  if v.accidentals[index] = kNoAccidental then keyAlter v.keySharps index else v.accidentals[index]

/-- The pitch of a letter in the current voice, which has to be there; an accidental is recorded first. -/
def pitch (r : Reader) (alter : Int) (index : Fin 7) (octave : Int) : Option (Int × Reader) := do
  let v ← r.voices.get? r.current
  let v := v.record alter index
  let x ← mul octave 12
  let x ← add x kSemitone[index]
  let midi ← add x (v.applied index)
  some (midi, r.setVoice r.current v)

/-- A note: the accidentals, the letter and the octave marks behind it. -/
def readNote (r : Reader) (cs : Text) : Option (Option (Int × Reader × Text)) := do
  let alter ← (cs.takeWhile accidentalMark).foldlM accidental kNoAccidental
  match cs.dropWhile accidentalMark with
  | []      => some none
  | c :: cs =>
    match ← noteLetter u c with
    | none       => some none
    | some index => do
      let octave ← (cs.takeWhile octaveMark).foldlM octaveUp (if c.isLowercase u then 6 else 5)
      let (midi, r) ← pitch r alter index octave
      some (some (midi, r, cs.dropWhile octaveMark))

/-! ## A music line -/

structure Music where
  reader : Reader
  ctx : MusicCtx := {}
  rest : Text

def barWarnings (current : Int) (v : ABCVoice) (bar : Int) : Option (List String) :=
  if 0 < bar then do
    let past ← rem v.tick bar
    some (if past ≠ 0 then ["voice " ++ toString current ++ ": bar line at tick " ++ toString v.tick ++ ", which is "
      ++ toString past ++ " past a " ++ toString bar ++ "-tick bar"] else [])
  else some []

def barLine (m : Music) (rest : Text) : Option Music := do
  let r := m.reader.withVoice m.reader.current
  let v := m.reader.voiceOf m.reader.current
  let bar ← barTicks v
  let warnings ← barWarnings r.current v bar
  let v ← r.voices.get? r.current
  let r := r.setVoice r.current { v with accidentals := noAccidentals }
  some { m with
    reader := { r with tune := { r.tune with barWarnings := r.tune.barWarnings ++ warnings } }, rest }

/-- `(p`, `(p:q` or `(p:q:r`, from the `p` on. -/
def tuplet (m : Music) (cs : Text) : Option Music := do
  let (p, cs) ← readInt u cs
  let p := p.getD 3
  let r := m.reader.withVoice m.reader.current
  let v := m.reader.voiceOf m.reader.current
  let compound := v.meterDen = 8 ∧ v.meterNum.tmod 3 = 0
  let q := tupletDefaultDen p compound
  match cs with
  | .ascii ':' :: cs => do
    let (qq, cs) ← readInt u cs
    match cs with
    | .ascii ':' :: cs => do
      let (rr, cs) ← readInt u cs
      some ⟨r, { m.ctx with tupletLeft := rr.getD p, tupletNum := qq.getD q, tupletDen := p }, cs⟩
    | cs => some ⟨r, { m.ctx with tupletLeft := p, tupletNum := qq.getD q, tupletDen := p }, cs⟩
  | cs => some ⟨r, { m.ctx with tupletLeft := p, tupletNum := q, tupletDen := p }, cs⟩

/-- What `count` marks of broken rhythm leave for the next length. -/
def MusicCtx.mark (ctx : MusicCtx) (longer : Bool) (count : Nat) : MusicCtx :=
  { ctx with broken := if longer then (count : Int) else -count }

/-- A run of `count` marks of broken rhythm. -/
def brokenRhythm (m : Music) (longer : Bool) (count : Nat) (rest : Text) : Option Music :=
  if m.ctx.lastNote < 0 then some { m with ctx := m.ctx.mark longer count, rest }
  else do
    let half ← halves (max count 1 - 1)
    let note ← m.reader.tune.notes[m.ctx.lastNote.toNat]?
    let now ← (if longer then lengthened note.duration half else quot note.duration half)
    let duration := max 1 now
    let r := m.reader.setNotes (m.reader.tune.notes.set m.ctx.lastNote.toNat { note with duration })
    let reader ← r.advance note.voice (← sub duration note.duration)
    some ⟨reader, m.ctx.mark longer count, rest⟩

def inlineField (m : Music) (letter : Character) (cs : Text) : Option Music := do
  let value := u.trimmingCharacters (cs.takeWhile (· ≠ .ascii ']'))
  let reader ← (if letter = .ascii 'I' then fieldI u m.reader value else some (applyField u m.reader letter value))
  some { m with reader, rest := (cs.dropWhile (· ≠ .ascii ']')).drop 1 }

structure Chord where
  reader : Reader
  members : List Int := []
  memberTicks : Int := 0
  rest : Text

def chordStep (c : Chord) : Option (Chord ⊕ Chord) :=
  match c.rest with
  | []               => some (.inr c)
  | .ascii ']' :: cs => some (.inr { c with rest := cs })
  | .ascii ' ' :: cs => some (.inl { c with rest := cs })
  | x :: cs          => do
    match ← readNote u c.reader (x :: cs) with
    | none => some (.inl { c with rest := cs })
    | some (note, reader, cs) => do
      let unit ← unitTicks (reader.voiceOf reader.current)
      let (written, rest) ← readDuration u cs unit
      some (.inl { reader, members := c.members ++ [note],
                   memberTicks := (if c.members = [] then written.getD unit else c.memberTicks), rest })

def chord (m : Music) (cs : Text) : Option Music := do
  let r := m.reader.withVoice m.reader.current
  let startTick := (m.reader.voiceOf m.reader.current).tick
  let c ← Loops.loop (chordStep u) (cs.length + 1) { reader := r, rest := cs }
  let unit ← unitTicks (c.reader.voiceOf c.reader.current)
  let (outer, rest) ← readDuration u c.rest unit
  let (length, ctx) ← adjust (outer.getD c.memberTicks) m.ctx
  let v := c.reader.voiceOf c.reader.current
  let notes := c.reader.tune.notes ++
    c.members.map (fun midi => ⟨startTick, length, c.reader.current, midi, v.velocity⟩)
  let tick ← add startTick length
  let reader ← (c.reader.setNotes notes).setTick c.reader.current tick
  some ⟨reader, if c.members = [] then ctx else { ctx with lastNote := notes.length - 1 }, rest⟩

/-- A rest; `Z` counts bars. -/
def restFor (m : Music) (bars : Bool) (cs : Text) : Option Music := do
  let r := m.reader.withVoice m.reader.current
  let v := m.reader.voiceOf m.reader.current
  let base ← (if bars then barTicks v else unitTicks v)
  let (written, rest) ← readDuration u cs base
  let (d, ctx) ← adjust (written.getD base) m.ctx
  let reader ← r.advance r.current d
  some ⟨reader, ctx, rest⟩

/-- The last note that `p` is true of, asked from the last one on. -/
def lastWhere (p : Note → Option Bool) (notes : List Note) : Nat → Option (Option Nat)
  | 0     => some none
  | k + 1 =>
    match notes[k]? with
    | none   => none
    | some n => do if ← p n then some (some k) else lastWhere p notes k

/-- A note a tie goes on with: its voice and pitch, and its end here. -/
def tiedTo (current midi tick : Int) (n : Note) : Option Bool :=
  if n.voice = current ∧ n.midi = midi then do
    let e ← add n.tick n.duration
    some (e = tick)
  else some false

/-- The note a new one of length `d` goes on with, if a tie is pending. -/
def tie (r : Reader) (ctx : MusicCtx) (midi tick : Int) : Option (Option Nat) :=
  if ctx.pendingTie then lastWhere (tiedTo r.current midi tick) r.tune.notes r.tune.notes.length else some none

def strike (notes : List Note) (tied : Option Nat) (new : Note) : Option (List Note × Nat) :=
  match tied with
  | some k => do
    let n ← notes[k]?
    let duration ← add n.duration new.duration
    some (notes.set k { n with duration }, k)
  | none => some (notes ++ [new], notes.length)

def note (m : Music) (midi : Int) (r : Reader) (cs : Text) : Option Music := do
  let v := r.voiceOf r.current
  let unit ← unitTicks v
  let (written, rest) ← readDuration u cs unit
  let (d, ctx) ← adjust (written.getD unit) m.ctx
  let tied ← tie r ctx midi v.tick
  let (notes, lastNote) ← strike r.tune.notes tied ⟨v.tick, d, r.current, midi, v.velocity⟩
  let tick ← add v.tick d
  let reader ← (r.setNotes notes).setTick r.current tick
  some ⟨reader, { ctx with lastNote, pendingTie := false }, rest⟩

/-- What a line can go on with, and what is behind its first characters. -/
inductive Element
  | passed (rest : Text)
  | comment
  | bar (rest : Text)
  | tie (rest : Text)
  | tuplet (rest : Text)
  | broken (longer : Bool) (count : Nat) (rest : Text)
  | field (letter : Character) (rest : Text)
  | chord (rest : Text)
  | silence (bars : Bool) (rest : Text)
  | note (rest : Text)

/-- Behind a `[`: a field, an ending or a chord. -/
def bracket : Text → Element
  | letter :: .ascii ':' :: cs => .field letter cs
  | cs                         => if cs.head?.any (·.isNumber u) then .passed (cs.drop 1) else .chord cs

/-- What the line goes on with at `c`; anything else is tried as a note. -/
def element (c : Character) (cs : Text) : Element :=
  if c = .ascii ' ' ∨ c = .ascii '\t' then .passed cs
  else if c = .ascii '%' then .comment
  else if c = .ascii '|' then .bar cs
  else if c = .ascii ':' then .passed cs
  else if c = .ascii '-' then .tie cs
  else if c = .ascii '(' then (if cs.head?.any (·.isNumber u) then .tuplet cs else .passed cs)
  else if c = .ascii ')' then .passed cs
  else if c = .ascii '>' ∨ c = .ascii '<' then
    .broken (c = .ascii '>') ((cs.takeWhile (· = c)).length + 1) (cs.dropWhile (· = c))
  else if c = .ascii '[' then bracket u cs
  else if c = .ascii 'z' ∨ c = .ascii 'x' ∨ c = .ascii 'Z' then .silence (c = .ascii 'Z') cs
  else .note cs

def musicStep (m : Music) : Option (Music ⊕ Reader) :=
  match m.rest with
  | []      => some (.inr m.reader)
  | c :: cs =>
    match element u c cs with
    | .passed rest              => some (.inl { m with rest })
    | .comment                  => some (.inr m.reader)
    | .bar rest                 => (barLine m rest).map .inl
    | .tie rest                 => some (.inl { m with ctx := { m.ctx with pendingTie := true }, rest })
    | .tuplet rest              => (tuplet u m rest).map .inl
    | .broken longer count rest => (brokenRhythm m longer count rest).map .inl
    | .field letter rest        => (inlineField u m letter rest).map .inl
    | .chord rest               => (chord u m rest).map .inl
    | .silence bars rest        => (restFor u m bars rest).map .inl
    | .note rest                => do
      match ← readNote u m.reader (c :: cs) with
      | none                => some (.inl { m with rest })
      | some (midi, r, cs') => (note u m midi r cs').map .inl

/-! ## A tune -/

/-- A line that begins with `%`. -/
def directive (r : Reader) (line : Text) : Reader :=
  match split (· = .ascii ' ') (line.drop 2) with
  | w :: kind :: value :: _ =>
    if w ≠ text "MIDI" then r
    else
      match int value with
      | none   => r
      | some n =>
        if kind = text "program" then
          { r with tune := { r.tune with midiPrograms := r.tune.midiPrograms.set r.current n } }
        else if kind = text "channel" then
          { r with tune := { r.tune with midiChannels := r.tune.midiChannels.set r.current n } }
        else r
  | _ => r

def header (r : Reader) (letter : Character) (rest : Text) : Option Reader :=
  let value := u.trimmingCharacters rest
  if letter = .ascii 'X' ∨ letter = .ascii 'T' ∨ letter = .ascii 'w' ∨ letter = .ascii '%' then some r
  else if letter = .ascii 'I' then fieldI u r value
  else some (applyField u r letter value)

def musicLine (r : Reader) (line : Text) : Option Reader :=
  Loops.loop (musicStep u) (line.length + 1) { reader := r, rest := line }

def readLine (r : Reader) (rawLine : Text) : Option Reader :=
  match u.trimmingCharacters rawLine with
  | []                => some r
  | .ascii '%' :: cs  => some (directive r (.ascii '%' :: cs))
  | letter :: .ascii ':' :: rest =>
    if letter.isLetter u then header u r letter rest else musicLine u r (letter :: .ascii ':' :: rest)
  | line              => musicLine u r line

def lines (source : Text) : List Text := source.splitOnP (· = .ascii '\n')

def parseABC (source : Text) : Option Tune := (Runs.run (readLine u) {} (lines source)).map Reader.tune

end

end Chip
end Prose
