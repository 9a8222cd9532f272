import Mathlib.Data.List.Basic
/-!
# MidiParser — the guest's MIDI port, byte by byte

`MIDIParser` of `midi.swift`: running status, system common messages, exclusive blocks and the realtime bytes between them.
The bytes of MIDI 1.0 messages give those messages, each with the byte that completes it, as long as the status byte that
cuts an exclusive block short is one the parser holds already (`feed_iff`).
-/
namespace Prose
namespace Midi

open List

abbrev Bytes := List UInt8

structure MIDIParser where
  status : UInt8 := 0
  data : Bytes := []
  needed : Nat := 0
  sysex : Option Bytes := none

namespace MIDIParser

def dataLength (status : UInt8) : Nat :=
  let high := status &&& 0xF0
  if high = 0x80 ∨ high = 0x90 ∨ high = 0xA0 ∨ high = 0xB0 ∨ high = 0xE0 then 2
  else if high = 0xC0 ∨ high = 0xD0 then 1
  else if status = 0xF1 ∨ status = 0xF3 then 1
  else if status = 0xF2 then 2
  else 0

def feedSysex (p : MIDIParser) (s : Bytes) (b : UInt8) : MIDIParser × List Bytes :=
  if b = 0xF7 then ({ p with sysex := none }, [s ++ [b]])
  else if 0x80 ≤ b then ({ p with sysex := none }, [])
  else ({ p with sysex := some (s ++ [b]) }, [])

def feedStatus (p : MIDIParser) (b : UInt8) : MIDIParser × List Bytes :=
  if dataLength b = 0 then
    ({ p with status := if b < 0xF0 then b else 0, data := [], needed := dataLength b }, [[b]])
  else ({ p with status := b, data := [], needed := dataLength b }, [])

def feedData (p : MIDIParser) (b : UInt8) : MIDIParser × List Bytes :=
  if p.status = 0 then (p, [])
  else if p.data.length + 1 = p.needed then
    ({ p with status := if 0xF0 ≤ p.status then 0 else p.status, data := [] }, [p.status :: (p.data ++ [b])])
  else ({ p with data := p.data ++ [b] }, [])

def feedByte (p : MIDIParser) (b : UInt8) : MIDIParser × List Bytes :=
  if 0xF8 ≤ b then (p, [[b]])
  else
    match p.sysex with
    | some s => p.feedSysex s b
    | none   =>
      if b = 0xF0 then ({ p with sysex := some [b] }, [])
      else if 0x80 ≤ b then p.feedStatus b
      else p.feedData b

def outputs : MIDIParser → Bytes → List (List Bytes)
  | _, []      => []
  | p, b :: bs => (p.feedByte b).2 :: outputs (p.feedByte b).1 bs

def after (p : MIDIParser) (bs : Bytes) : MIDIParser := bs.foldl (fun p b => (p.feedByte b).1) p

def feed (p : MIDIParser) (bs : Bytes) : MIDIParser × List Bytes := (p.after bs, (p.outputs bs).flatten)

def feedAll : MIDIParser → List Bytes → List (List Bytes)
  | _, []      => []
  | p, c :: cs => (p.feed c).2 :: feedAll (p.feed c).1 cs

theorem outputs_append (p : MIDIParser) : ∀ bs cs : Bytes,
    p.outputs (bs ++ cs) = p.outputs bs ++ (p.after bs).outputs cs
  | [], _       => rfl
  | _ :: bs, cs => congrArg _ (outputs_append _ bs cs)

theorem length_outputs (p : MIDIParser) : ∀ bs : Bytes, (p.outputs bs).length = bs.length
  | []      => rfl
  | _ :: bs => congrArg (· + 1) (length_outputs _ bs)

theorem after_append (p : MIDIParser) (bs cs : Bytes) : p.after (bs ++ cs) = (p.after bs).after cs := foldl_append

end MIDIParser

/-! ## MIDI 1.0 -/

/-- How many data bytes follow a status byte; none where no message has it. -/
def dataBytes (status : UInt8) : Option Nat :=
  if status < 0x80 then none
  else if status < 0xC0 then some 2
  else if status < 0xE0 then some 1
  else if status < 0xF0 then some 2
  else if status = 0xF1 ∨ status = 0xF3 then some 1
  else if status = 0xF2 then some 2
  else if status = 0xF6 then some 0
  else none

structure Message where
  status : UInt8
  data : Bytes
  length : dataBytes status = some data.length
  isData : ∀ b ∈ data, b < 0x80

def Message.bytes (m : Message) : Bytes := m.status :: m.data

/-- What is sent: a message, with its status byte or under the running one, an exclusive block, or the start of one that
the next status byte cuts short. -/
inductive Item
  | message (m : Message) (running : Bool)
  | exclusive (data : Bytes)
  | broken (data : Bytes)

def inForce : Item → UInt8
  | .message m _ => if m.status < 0xF0 then m.status else 0
  | .exclusive _ => 0
  | .broken _    => 0

/-- An item is well formed where `status` is in force. -/
def Item.Ok (status : UInt8) : Item → Prop
  | .message m running => running → m.status < 0xF0 ∧ m.status = status
  | .exclusive data    => ∀ b ∈ data, b < 0x80
  | .broken data       => ∀ b ∈ data, b < 0x80

def WellFormed : UInt8 → List Item → Prop
  | _, []           => True
  | status, i :: is => i.Ok status ∧ WellFormed (inForce i) is

instance (status : UInt8) : (i : Item) → Decidable (i.Ok status)
  | .message _ _ => inferInstanceAs (Decidable (_ → _))
  | .exclusive _ => inferInstanceAs (Decidable (∀ b ∈ _, b < 0x80))
  | .broken _    => inferInstanceAs (Decidable (∀ b ∈ _, b < 0x80))

instance instDecidableWellFormed : (status : UInt8) → (items : List Item) → Decidable (WellFormed status items)
  | _, []           => inferInstanceAs (Decidable True)
  | status, i :: is =>
    have := instDecidableWellFormed (inForce i) is
    inferInstanceAs (Decidable (i.Ok status ∧ WellFormed (inForce i) is))

def completing (message : Bytes) : Bytes → List (UInt8 × List Bytes)
  | []           => []
  | [b]          => [(b, [message])]
  | b :: c :: bs => (b, []) :: completing message (c :: bs)

def Item.sent : Item → List (UInt8 × List Bytes)
  | .message m running => completing m.bytes (if running then m.data else m.bytes)
  | .exclusive data    => completing (0xF0 :: data ++ [0xF7]) (0xF0 :: data ++ [0xF7])
  | .broken data       => (0xF0 :: data).map (fun b => (b, []))

structure Stream (items : List Item) (sent : List (UInt8 × List Bytes)) : Prop where
  items : sent.filter (fun x => x.1 < 0xF8) = items.flatMap Item.sent
  realtime : ∀ x ∈ sent, 0xF8 ≤ x.1 → x.2 = [[x.1]]

/-- **What was sent is what is given out**, however it is cut into chunks, each message with the chunk that completes it. -/
def Delivered (sent : List (UInt8 × List Bytes)) : Prop := ∀ chunks : List (List (UInt8 × List Bytes)),
  chunks.flatten = sent →
    MIDIParser.feedAll {} (chunks.map (fun c => c.map Prod.fst)) = chunks.map (fun c => (c.map Prod.snd).flatten)

/-! ## Bytes -/

theorem data_ranges {b : UInt8} (h : b < 0x80) : ¬ 0xF8 ≤ b ∧ ¬ 0x80 ≤ b ∧ b ≠ 0xF7 ∧ b ≠ 0xF0 := by
  refine ⟨?_, UInt8.not_le.2 h, ?_, ?_⟩ <;> grind

/-- The parser's lengths are those of MIDI 1.0, and none of its statuses is another thing. -/
theorem dataBytes_spec {s : UInt8} {n : Nat} (h : dataBytes s = some n) :
    MIDIParser.dataLength s = n ∧ 0x80 ≤ s ∧ ¬ 0xF8 ≤ s ∧ s ≠ 0xF0 ∧ s ≠ 0xF7 ∧ s ≠ 0 ∧ (s < 0xF0 → 0 < n) := by
  have all : ∀ v : Fin 256, ∀ n ∈ dataBytes (UInt8.ofFin v), MIDIParser.dataLength (UInt8.ofFin v) = n ∧
      0x80 ≤ UInt8.ofFin v ∧ ¬ 0xF8 ≤ UInt8.ofFin v ∧ UInt8.ofFin v ≠ 0xF0 ∧ UInt8.ofFin v ≠ 0xF7 ∧ UInt8.ofFin v ≠ 0 ∧
      (UInt8.ofFin v < 0xF0 → 0 < n) := by decide +kernel
  exact all s.toFin n h

namespace MIDIParser

theorem feedByte_realtime (p : MIDIParser) {b : UInt8} (h : 0xF8 ≤ b) : p.feedByte b = (p, [[b]]) := if_pos h

theorem feedByte_sysex {p : MIDIParser} {s : Bytes} (hs : p.sysex = some s) {b : UInt8} (h : ¬ 0xF8 ≤ b) :
    p.feedByte b = p.feedSysex s b := by
  unfold feedByte
  rw [if_neg h, hs]

theorem feedByte_data {p : MIDIParser} (hs : p.sysex = none) {b : UInt8} (h : b < 0x80) : p.feedByte b = p.feedData b := by
  obtain ⟨h1, h2, -, h4⟩ := data_ranges h
  unfold feedByte
  rw [if_neg h1, hs]
  dsimp only
  rw [if_neg h4, if_neg h2]

theorem feedByte_status {p : MIDIParser} (hs : p.sysex = none) {b : UInt8} (h1 : ¬ 0xF8 ≤ b) (h2 : 0x80 ≤ b) (h3 : b ≠ 0xF0) :
    p.feedByte b = p.feedStatus b := by
  unfold feedByte
  rw [if_neg h1, hs]
  dsimp only
  rw [if_neg h3, if_pos h2]

theorem feedSysex_data (p : MIDIParser) (s : Bytes) {b : UInt8} (h : b < 0x80) :
    p.feedSysex s b = ({ p with sysex := some (s ++ [b]) }, []) := by
  obtain ⟨-, h2, h3, -⟩ := data_ranges h
  unfold feedSysex
  rw [if_neg h3, if_neg h2]

/-! ## Data bytes -/

theorem outputs_block : ∀ {bs : Bytes} {p : MIDIParser} {s : Bytes}, (∀ b ∈ bs, b < 0x80) → p.sysex = some s →
    p.outputs bs = bs.map (fun _ => []) ∧ p.after bs = { p with sysex := some (s ++ bs) }
  | [], p, s, _, hs      => ⟨rfl, by rw [append_nil, ← hs]; rfl⟩
  | b :: bs, p, s, h, hs => by
    obtain ⟨hb, hbs⟩ := forall_mem_cons.1 h
    have hstep : p.feedByte b = ({ p with sysex := some (s ++ [b]) }, []) := by
      rw [feedByte_sysex hs (data_ranges hb).1, feedSysex_data p s hb]
    obtain ⟨hout, hafter⟩ := @outputs_block bs { p with sysex := some (s ++ [b]) } (s ++ [b]) hbs rfl
    change (p.feedByte b).2 :: (p.feedByte b).1.outputs bs = [] :: _ ∧ (p.feedByte b).1.after bs = _
    rw [hstep]
    refine ⟨congrArg _ hout, ?_⟩
    rw [hafter, append_assoc]
    rfl

theorem sysex_feedData (p : MIDIParser) (b : UInt8) : (p.feedData b).1.sysex = p.sysex := by
  unfold feedData
  split
  · rfl
  · split <;> rfl

theorem sysex_after_data : ∀ {bs : Bytes} {p : MIDIParser}, (∀ b ∈ bs, b < 0x80) → p.sysex = none →
    (p.after bs).sysex = none
  | [], _, _, hs      => hs
  | b :: bs, p, h, hs => by
    obtain ⟨hb, hbs⟩ := forall_mem_cons.1 h
    change ((p.feedByte b).1.after bs).sysex = none
    rw [feedByte_data hs hb]
    exact sysex_after_data hbs (by rw [sysex_feedData, hs])

theorem outputs_dropped : ∀ {bs : Bytes} {p : MIDIParser}, (∀ b ∈ bs, b < 0x80) → p.sysex = none → p.status = 0 →
    p.outputs bs = bs.map (fun _ => []) ∧ p.after bs = p
  | [], _, _, _, _        => ⟨rfl, rfl⟩
  | b :: bs, p, h, hs, h0 => by
    obtain ⟨hb, hbs⟩ := forall_mem_cons.1 h
    have hstep : p.feedByte b = (p, []) := by rw [feedByte_data hs hb]; exact if_pos h0
    obtain ⟨hout, hafter⟩ := outputs_dropped hbs hs h0
    change (p.feedByte b).2 :: (p.feedByte b).1.outputs bs = [] :: _ ∧ (p.feedByte b).1.after bs = _
    rw [hstep]
    exact ⟨congrArg _ hout, hafter⟩

theorem outputs_waiting : ∀ {bs : Bytes} {p : MIDIParser}, (∀ b ∈ bs, b < 0x80) → p.sysex = none → p.status ≠ 0 →
    p.data.length + bs.length < p.needed →
    p.outputs bs = bs.map (fun _ => []) ∧ p.after bs = { p with data := p.data ++ bs }
  | [], p, _, _, _, _          => ⟨rfl, by rw [append_nil]; rfl⟩
  | b :: bs, p, h, hs, h0, hle => by
    obtain ⟨hb, hbs⟩ := forall_mem_cons.1 h
    rw [length_cons] at hle
    have hstep : p.feedByte b = ({ p with data := p.data ++ [b] }, []) := by
      rw [feedByte_data hs hb]
      unfold feedData
      rw [if_neg h0, if_neg (by omega)]
    obtain ⟨hout, hafter⟩ := @outputs_waiting bs { p with data := p.data ++ [b] } hbs hs h0
      (by rw [length_append, length_singleton]; dsimp only; omega)
    change (p.feedByte b).2 :: (p.feedByte b).1.outputs bs = [] :: _ ∧ (p.feedByte b).1.after bs = _
    rw [hstep]
    refine ⟨congrArg _ hout, ?_⟩
    rw [hafter, append_assoc]
    rfl

end MIDIParser

namespace MIDIParser

theorem outputs_completing : ∀ {bs : Bytes} {p : MIDIParser}, bs ≠ [] → (∀ b ∈ bs, b < 0x80) → p.sysex = none →
    p.status ≠ 0 → p.data.length + bs.length = p.needed →
    p.outputs bs = (completing (p.status :: (p.data ++ bs)) bs).map Prod.snd ∧
      p.after bs = { p with status := if 0xF0 ≤ p.status then 0 else p.status, data := [] }
  | [], _, hne, _, _, _, _       => absurd rfl hne
  | [b], p, _, h, hs, h0, he     => by
    have hstep : p.feedByte b = ({ p with status := if 0xF0 ≤ p.status then 0 else p.status, data := [] },
        [p.status :: (p.data ++ [b])]) := by
      rw [feedByte_data hs (h b mem_cons_self)]
      unfold feedData
      rw [if_neg h0, if_pos (show p.data.length + 1 = p.needed from he)]
    change [(p.feedByte b).2] = _ ∧ (p.feedByte b).1 = _
    rw [hstep]
    exact ⟨rfl, rfl⟩
  | b :: c :: bs, p, _, h, hs, h0, he => by
    obtain ⟨hb, hbs⟩ := forall_mem_cons.1 h
    rw [length_cons, length_cons] at he
    have hstep : p.feedByte b = ({ p with data := p.data ++ [b] }, []) := by
      rw [feedByte_data hs hb]
      unfold feedData
      rw [if_neg h0, if_neg (by omega)]
    obtain ⟨hout, hafter⟩ := @outputs_completing (c :: bs) { p with data := p.data ++ [b] } (cons_ne_nil _ _) hbs hs h0
      (by rw [length_append, length_singleton, length_cons]; dsimp only; omega)
    change (p.feedByte b).2 :: (p.feedByte b).1.outputs (c :: bs) = _ ∧ (p.feedByte b).1.after (c :: bs) = _
    rw [hstep]
    refine ⟨?_, hafter⟩
    rw [hout, append_assoc]
    rfl

theorem outputs_quiet : ∀ {bs : Bytes} {p : MIDIParser}, (∀ b ∈ bs, b < 0x80) → p.sysex = none → p.status ≠ 0 →
    p.data.length < p.needed → p.outputs bs = bs.map (fun _ => []) → p.data.length + bs.length < p.needed
  | [], _, _, _, _, hlt, _         => hlt
  | b :: bs, p, h, hs, h0, hlt, he => by
    obtain ⟨hb, hbs⟩ := forall_mem_cons.1 h
    obtain ⟨hfirst, hrest⟩ := List.cons.inj he
    rw [feedByte_data hs hb] at hfirst hrest
    unfold feedData at hfirst hrest
    rw [if_neg h0] at hfirst hrest
    split at hfirst
    · exact absurd hfirst (cons_ne_nil _ _)
    rename_i hne
    rw [if_neg hne] at hrest
    have := @outputs_quiet bs { p with data := p.data ++ [b] } hbs hs h0
      (by rw [length_append, length_singleton]; dsimp only; omega) hrest
    rw [length_append, length_singleton] at this
    dsimp only at this
    rw [length_cons]
    omega

theorem outputs_under_status : ∀ {bs : Bytes} {p : MIDIParser} {message : Bytes}, bs ≠ [] → (∀ b ∈ bs, b < 0x80) →
    p.sysex = none → p.outputs bs = (completing message bs).map Prod.snd →
      p.status ≠ 0 ∧ message = p.status :: (p.data ++ bs)
  | [], _, _, hne, _, _, _             => absurd rfl hne
  | [b], p, message, _, h, hs, he      => by
    have hfirst := (List.cons.inj he).1
    rw [feedByte_data hs (h b mem_cons_self)] at hfirst
    unfold feedData at hfirst
    split at hfirst
    · exact absurd hfirst.symm (cons_ne_nil _ _)
    rename_i h0
    split at hfirst
    · exact ⟨h0, (List.cons.inj hfirst).1.symm⟩
    · exact absurd hfirst.symm (cons_ne_nil _ _)
  | b :: c :: bs, p, message, _, h, hs, he => by
    obtain ⟨hb, hbs⟩ := forall_mem_cons.1 h
    obtain ⟨hfirst, hrest⟩ := List.cons.inj he
    change (p.feedByte b).2 = [] at hfirst
    change (p.feedByte b).1.outputs (c :: bs) = (completing message (c :: bs)).map Prod.snd at hrest
    rw [feedByte_data hs hb] at hfirst hrest
    unfold feedData at hfirst hrest
    split at hfirst
    · rename_i h0
      rw [if_pos h0] at hrest
      exact absurd h0 (outputs_under_status (cons_ne_nil _ _) hbs hs hrest).1
    rename_i h0
    rw [if_neg h0] at hrest
    split at hfirst
    · exact absurd hfirst (cons_ne_nil _ _)
    rename_i hne
    rw [if_neg hne] at hrest
    have := (@outputs_under_status (c :: bs) { p with data := p.data ++ [b] } message (cons_ne_nil _ _) hbs hs
      hrest).2
    refine ⟨h0, this.trans ?_⟩
    rw [append_assoc]
    rfl

end MIDIParser

/-! ## What the parser holds -/

/-- What the parser holds in front of an item: the running status it has kept, how many data bytes are under it, and
whether a block is open that is cut short. -/
structure Held where
  status : UInt8 := 0
  pending : Nat := 0
  cut : Bool := false

/-- Where a status byte that cuts a block short is lost without harm: it is the one the parser holds, or it opens another
block that is cut short, too short to be taken for a message. -/
def Held.Takes (h : Held) : Item → Prop
  | .message m _ => h.cut → m.status = h.status ∧ h.pending = 0
  | .exclusive _ => ¬ h.cut
  | .broken data => h.cut → h.status = 0 ∨ h.pending + data.length < MIDIParser.dataLength h.status

def Held.next (h : Held) : Item → Held
  | .message m _ => { status := if m.status < 0xF0 then m.status else 0 }
  | .exclusive _ => h
  | .broken data =>
    if h.cut then { h with pending := if h.status = 0 then h.pending else h.pending + data.length, cut := false }
    else { h with cut := true }

def Kept : Held → List Item → Prop
  | _, []      => True
  | h, i :: is => h.Takes i ∧ Kept (h.next i) is

instance (h : Held) : (i : Item) → Decidable (h.Takes i)
  | .message _ _ => inferInstanceAs (Decidable (_ → _))
  | .exclusive _ => inferInstanceAs (Decidable (¬ _))
  | .broken _    => inferInstanceAs (Decidable (_ → _))

instance instDecidableKept : (h : Held) → (items : List Item) → Decidable (Kept h items)
  | _, []      => inferInstanceAs (Decidable True)
  | h, i :: is =>
    have := instDecidableKept (h.next i) is
    inferInstanceAs (Decidable (h.Takes i ∧ Kept (h.next i) is))

/-- The parser holds it, with the status `force` in force. -/
structure Holds (h : Held) (force : UInt8) (p : MIDIParser) : Prop where
  status : p.status = h.status
  pending : p.data.length = h.pending
  cut : p.sysex.isSome = h.cut
  needed : h.status ≠ 0 → h.status < 0xF0 ∧ p.needed = MIDIParser.dataLength h.status ∧ h.pending < p.needed
  running : force ≠ 0 → h.status = force ∧ h.pending = 0 ∧ h.cut = false

theorem holds_start : Holds {} 0 {} :=
  ⟨rfl, rfl, rfl, fun h => absurd rfl h, fun h => absurd rfl h⟩

theorem Holds.closed {h : Held} {force : UInt8} {p : MIDIParser} (hp : Holds h force p) (hc : h.cut = false) :
    p.sysex = none :=
  Option.not_isSome_iff_eq_none.1 (by rw [hp.cut, hc]; exact Bool.false_ne_true)

theorem Holds.opened {h : Held} {force : UInt8} {p : MIDIParser} (hp : Holds h force p) (hc : h.cut = true) :
    ∃ s, p.sysex = some s := Option.isSome_iff_exists.1 (hp.cut.trans hc)

theorem bytes_completing (message : Bytes) : ∀ bs : Bytes, (completing message bs).map Prod.fst = bs
  | []           => rfl
  | [_]          => rfl
  | b :: c :: bs => congrArg (b :: ·) (bytes_completing message (c :: bs))

theorem completing_append (message : Bytes) (b : UInt8) : ∀ bs : Bytes,
    completing message (bs ++ [b]) = bs.map (fun b => (b, [])) ++ [(b, [message])]
  | []           => rfl
  | [_]          => rfl
  | a :: c :: bs => congrArg ((a, []) :: ·) (completing_append message b (c :: bs))

theorem cut_by {p : MIDIParser} {x : Bytes} (hx : p.sysex = some x) {b : UInt8} (h1 : ¬ 0xF8 ≤ b) (h2 : 0x80 ≤ b)
    (h3 : b ≠ 0xF7) : p.feedByte b = ({ p with sysex := none }, []) := by
  rw [MIDIParser.feedByte_sysex hx h1]
  unfold MIDIParser.feedSysex
  rw [if_neg h3, if_pos h2]

theorem opens {p : MIDIParser} (hs : p.sysex = none) : p.feedByte 0xF0 = ({ p with sysex := some [0xF0] }, []) := by
  unfold MIDIParser.feedByte
  rw [if_neg (by decide), hs]
  rfl

def Given (h : Held) (p : MIDIParser) (i : Item) : Prop :=
  p.outputs (i.sent.map Prod.fst) = i.sent.map Prod.snd ∧
    Holds (h.next i) (inForce i) (p.after (i.sent.map Prod.fst))

theorem running_given {h : Held} {force : UInt8} {p : MIDIParser} (hp : Holds h force p) {m : Message}
    (hi : (Item.message m true).Ok force) : h.Takes (.message m true) ∧ Given h p (.message m true) := by
  obtain ⟨hchannel, rfl⟩ := hi rfl
  obtain ⟨hlen, -, -, -, -, hne, hpos⟩ := dataBytes_spec m.length
  obtain ⟨hstatus, hpending, hcut⟩ := hp.running hne
  obtain ⟨-, hneeded, -⟩ := hp.needed (hstatus ▸ hne)
  have hdata : m.data ≠ [] := ne_nil_of_length_pos (hpos hchannel)
  have hnil : p.data = [] := length_eq_zero_iff.1 (hp.pending.trans hpending)
  have hs : p.status = m.status := hp.status.trans hstatus
  obtain ⟨hout, hafter⟩ := MIDIParser.outputs_completing hdata m.isData (hp.closed hcut) (hs ▸ hne)
    (by rw [hnil, hneeded, hstatus, hlen]; exact Nat.zero_add _)
  refine ⟨fun hc => ?_, ?_, ?_⟩
  · rw [hcut] at hc
    exact nomatch hc
  · change p.outputs ((completing m.bytes m.data).map Prod.fst) = (completing m.bytes m.data).map Prod.snd
    rw [bytes_completing, hout, hnil, hs]
    rfl
  · change Holds { status := if m.status < 0xF0 then m.status else 0 } (if m.status < 0xF0 then m.status else 0)
      (p.after ((completing m.bytes m.data).map Prod.fst))
    rw [bytes_completing, hafter, if_pos hchannel, hs, if_neg (UInt8.not_le.2 hchannel)]
    refine ⟨rfl, rfl, by rw [hp.closed hcut]; rfl, fun _ => ⟨hchannel, ?_, ?_⟩, fun _ => ⟨rfl, rfl, rfl⟩⟩
    · rw [← hstatus]
      exact hneeded
    · change 0 < p.needed
      rw [hneeded, hstatus, hlen]
      exact hpos hchannel

theorem message_given {h : Held} {force : UInt8} {p : MIDIParser} (hp : Holds h force p) (hc : h.cut = false) (m : Message) :
    Given h p (.message m false) := by
  obtain ⟨hlen, h2, h1, h3, -, hne, hpos⟩ := dataBytes_spec m.length
  have hstep := MIDIParser.feedByte_status (hp.closed hc) h1 h2 h3
  unfold MIDIParser.feedStatus at hstep
  rw [hlen] at hstep
  change p.outputs ((completing m.bytes m.bytes).map Prod.fst) = (completing m.bytes m.bytes).map Prod.snd ∧
    Holds { status := if m.status < 0xF0 then m.status else 0 } (if m.status < 0xF0 then m.status else 0)
      (p.after ((completing m.bytes m.bytes).map Prod.fst))
  rw [bytes_completing]
  change (p.feedByte m.status).2 :: (p.feedByte m.status).1.outputs m.data = _ ∧
    Holds _ _ ((p.feedByte m.status).1.after m.data)
  by_cases hdata : m.data = []
  · have hcommon : ¬ m.status < 0xF0 := fun hlt => by
      have := hpos hlt
      rw [hdata] at this
      exact absurd this (Nat.lt_irrefl 0)
    rw [if_pos (length_eq_zero_iff.2 hdata)] at hstep
    rw [hstep, if_neg hcommon]
    unfold Message.bytes
    rw [hdata]
    exact ⟨rfl, rfl, rfl, by rw [hp.closed hc]; rfl, fun hz => absurd rfl hz, fun hz => absurd rfl hz⟩
  · rw [if_neg (fun hz => hdata (length_eq_zero_iff.1 hz))] at hstep
    obtain ⟨hout, hafter⟩ := MIDIParser.outputs_completing (p := (p.feedByte m.status).1) hdata m.isData
      (by rw [hstep]; exact hp.closed hc) (by rw [hstep]; exact hne) (by rw [hstep]; exact Nat.zero_add _)
    rw [hout, hafter, hstep]
    refine ⟨?_, ?_⟩
    · obtain ⟨b, bs, hd⟩ := exists_cons_of_ne_nil hdata
      unfold Message.bytes
      rw [hd]
      rfl
    · by_cases hchannel : m.status < 0xF0
      · rw [if_pos hchannel]
        refine ⟨if_neg (UInt8.not_le.2 hchannel), rfl, by rw [hp.closed hc]; rfl, fun _ => ⟨hchannel, hlen.symm, hpos hchannel⟩,
          fun _ => ⟨rfl, rfl, rfl⟩⟩
      · rw [if_neg hchannel]
        exact ⟨if_pos (UInt8.not_lt.1 hchannel), rfl, by rw [hp.closed hc]; rfl, fun hz => absurd rfl hz,
          fun hz => absurd rfl hz⟩

def Sent (p : MIDIParser) (i : Item) : Prop := p.outputs (i.sent.map Prod.fst) = i.sent.map Prod.snd

theorem message_cut {h : Held} {force : UInt8} {p : MIDIParser} (hp : Holds h force p) (hc : h.cut = true) (m : Message) :
    (h.Takes (.message m false) → Given h p (.message m false)) ∧
      (Sent p (.message m false) → h.Takes (.message m false)) := by
  obtain ⟨hlen, h2, h1, -, h3, hne, hpos⟩ := dataBytes_spec m.length
  obtain ⟨x, hx⟩ := hp.opened hc
  have hstep := cut_by hx h1 h2 h3
  have hsplit : p.outputs m.bytes = [] :: ({ p with sysex := none } : MIDIParser).outputs m.data := by
    change (p.feedByte m.status).2 :: (p.feedByte m.status).1.outputs m.data = _
    rw [hstep]
  have htags : m.data ≠ [] → (completing m.bytes m.bytes).map Prod.snd =
      [] :: (completing m.bytes m.data).map Prod.snd := fun hdata => by
    obtain ⟨b, bs, hd⟩ := exists_cons_of_ne_nil hdata
    unfold Message.bytes
    rw [hd]
    rfl
  refine ⟨fun htakes => ?_, fun hsent _ => ?_⟩
  · obtain ⟨hs, hpending⟩ := htakes hc
    obtain ⟨hchannel, hneeded, -⟩ := hp.needed (hs ▸ hne)
    rw [← hs] at hchannel hneeded
    have hnil : p.data = [] := length_eq_zero_iff.1 (hp.pending.trans hpending)
    have hps : p.status = m.status := hp.status.trans hs.symm
    have hdata : m.data ≠ [] := ne_nil_of_length_pos (hpos hchannel)
    obtain ⟨hout, hafter⟩ := @MIDIParser.outputs_completing m.data { p with sysex := none } hdata m.isData rfl
      (hps ▸ hne) (by change p.data.length + _ = p.needed; rw [hnil, hneeded, hlen]; exact Nat.zero_add _)
    refine ⟨?_, ?_⟩
    · change p.outputs ((completing m.bytes m.bytes).map Prod.fst) = (completing m.bytes m.bytes).map Prod.snd
      rw [bytes_completing, hsplit, hout, htags hdata]
      dsimp only
      rw [hnil, hps]
      rfl
    · change Holds { status := if m.status < 0xF0 then m.status else 0 } (if m.status < 0xF0 then m.status else 0)
        (p.after ((completing m.bytes m.bytes).map Prod.fst))
      rw [bytes_completing]
      change Holds _ _ ((p.feedByte m.status).1.after m.data)
      rw [hstep, hafter, if_pos hchannel]
      dsimp only
      rw [hps, if_neg (UInt8.not_le.2 hchannel)]
      refine ⟨rfl, rfl, rfl, fun _ => ⟨hchannel, hneeded, ?_⟩, fun _ => ⟨rfl, rfl, rfl⟩⟩
      change 0 < p.needed
      rw [hneeded, hlen]
      exact hpos hchannel
  · change p.outputs ((completing m.bytes m.bytes).map Prod.fst) = (completing m.bytes m.bytes).map Prod.snd at hsent
    rw [bytes_completing, hsplit] at hsent
    by_cases hdata : m.data = []
    · unfold Message.bytes at hsent
      rw [hdata] at hsent
      exact absurd (List.cons.inj hsent).1.symm (cons_ne_nil _ _)
    rw [htags hdata] at hsent
    obtain ⟨-, hm⟩ := @MIDIParser.outputs_under_status m.data { p with sysex := none } m.bytes hdata m.isData rfl
      (List.cons.inj hsent).2
    obtain ⟨hs, hrest⟩ := List.cons.inj hm
    refine ⟨hs.trans hp.status, ?_⟩
    have := congrArg List.length hrest
    rw [length_append] at this
    dsimp only at this
    rw [← hp.pending]
    omega

theorem exclusive_given {h : Held} {force : UInt8} {p : MIDIParser} (hp : Holds h force p) {data : Bytes}
    (hd : ∀ b ∈ data, b < 0x80) : (h.Takes (.exclusive data) → Given h p (.exclusive data)) ∧
      (Sent p (.exclusive data) → h.Takes (.exclusive data)) := by
  have hbytes : (Item.exclusive data).sent.map Prod.fst = 0xF0 :: (data ++ [0xF7]) := bytes_completing _ _
  have htags : (Item.exclusive data).sent.map Prod.snd = [] :: (data.map (fun _ => []) ++ [[0xF0 :: data ++ [0xF7]]]) := by
    change (completing _ (0xF0 :: data ++ [0xF7])).map Prod.snd = _
    rw [completing_append, map_append, map_map]
    rfl
  refine ⟨fun htakes => ?_, fun hsent hc => ?_⟩
  · have hcut : h.cut = false := Bool.eq_false_iff.2 htakes
    have hs := hp.closed hcut
    obtain ⟨hout, hafter⟩ := @MIDIParser.outputs_block data { p with sysex := some [0xF0] } [0xF0] hd rfl
    have hend : ({ p with sysex := some ([0xF0] ++ data) } : MIDIParser).feedByte 0xF7 =
        ({ p with sysex := none }, [[0xF0] ++ data ++ [0xF7]]) := rfl
    refine ⟨?_, ?_⟩
    · rw [hbytes, htags]
      change (p.feedByte 0xF0).2 :: (p.feedByte 0xF0).1.outputs (data ++ [0xF7]) = _
      rw [opens hs, MIDIParser.outputs_append, hout, hafter]
      change [] :: (_ ++ [(({ p with sysex := some ([0xF0] ++ data) } : MIDIParser).feedByte 0xF7).2]) = _
      rw [hend]
      rfl
    · rw [hbytes]
      change Holds h 0 ((p.feedByte 0xF0).1.after (data ++ [0xF7]))
      rw [opens hs, MIDIParser.after_append, hafter]
      change Holds h 0 (({ p with sysex := some ([0xF0] ++ data) } : MIDIParser).feedByte 0xF7).1
      rw [hend]
      exact ⟨hp.status, hp.pending, hcut.symm, hp.needed, fun hz => absurd rfl hz⟩
  · obtain ⟨x, hx⟩ := hp.opened hc
    have hstep := cut_by hx (b := 0xF0) (by decide) (by decide) (by decide)
    unfold Sent at hsent
    rw [hbytes, htags] at hsent
    change (p.feedByte 0xF0).2 :: (p.feedByte 0xF0).1.outputs (data ++ [0xF7]) = _ at hsent
    rw [hstep, MIDIParser.outputs_append] at hsent
    have hlast := (append_inj (List.cons.inj hsent).2 (by rw [MIDIParser.length_outputs, length_map])).2
    have hs := @MIDIParser.sysex_after_data data { p with sysex := none } hd rfl
    change [(MIDIParser.feedByte _ 0xF7).2] = _ at hlast
    rw [MIDIParser.feedByte_status hs (by decide) (by decide) (by decide)] at hlast
    change [[[0xF7]]] = [[0xF0 :: data ++ [0xF7]]] at hlast
    have hfirst := (List.cons.inj (List.cons.inj (List.cons.inj hlast).1).1).1
    exact absurd hfirst (by decide)

theorem broken_given {h : Held} {force : UInt8} {p : MIDIParser} (hp : Holds h force p) {data : Bytes}
    (hd : ∀ b ∈ data, b < 0x80) : (h.Takes (.broken data) → Given h p (.broken data)) ∧
      (Sent p (.broken data) → h.Takes (.broken data)) := by
  have hbytes : (Item.broken data).sent.map Prod.fst = 0xF0 :: data := by
    unfold Item.sent
    rw [map_map]
    exact map_id _
  have htags : (Item.broken data).sent.map Prod.snd = [] :: data.map (fun _ => []) := by
    unfold Item.sent
    rw [map_map]
    rfl
  unfold Given Sent
  rw [hbytes, htags]
  by_cases hc : h.cut = true
  · obtain ⟨x, hx⟩ := hp.opened hc
    have hstep := cut_by hx (b := 0xF0) (by decide) (by decide) (by decide)
    change (_ → (p.feedByte 0xF0).2 :: (p.feedByte 0xF0).1.outputs data = _ ∧ Holds _ _ ((p.feedByte 0xF0).1.after data)) ∧
      ((p.feedByte 0xF0).2 :: (p.feedByte 0xF0).1.outputs data = _ → _)
    rw [hstep]
    have hnext : h.next (.broken data) =
        { h with pending := if h.status = 0 then h.pending else h.pending + data.length, cut := false } := if_pos hc
    rw [hnext]
    refine ⟨fun htakes => ?_, fun hsent _ => ?_⟩
    · by_cases h0 : h.status = 0
      · obtain ⟨hout, hafter⟩ := @MIDIParser.outputs_dropped data { p with sysex := none } hd rfl (hp.status.trans h0)
        rw [hout, hafter, if_pos h0]
        exact ⟨rfl, hp.status, hp.pending, rfl, fun hz => absurd h0 hz, fun hz => absurd rfl hz⟩
      obtain ⟨hchannel, hneeded, -⟩ := hp.needed h0
      have hfew : h.pending + data.length < p.needed := hneeded ▸ (htakes hc).resolve_left h0
      obtain ⟨hout, hafter⟩ := @MIDIParser.outputs_waiting data { p with sysex := none } hd rfl (hp.status ▸ h0)
        (by change p.data.length + _ < p.needed; rw [hp.pending]; exact hfew)
      rw [hout, hafter, if_neg h0]
      refine ⟨rfl, hp.status, ?_, rfl, fun _ => ⟨hchannel, hneeded, hfew⟩, fun hz => absurd rfl hz⟩
      change (p.data ++ data).length = _
      rw [length_append, hp.pending]
    · by_cases h0 : h.status = 0
      · exact Or.inl h0
      obtain ⟨-, hneeded, hlt⟩ := hp.needed h0
      have := @MIDIParser.outputs_quiet data { p with sysex := none } hd rfl (hp.status ▸ h0)
        (by change p.data.length < p.needed; rw [hp.pending]; exact hlt) (List.cons.inj hsent).2
      change p.data.length + data.length < p.needed at this
      rw [hp.pending, hneeded] at this
      exact Or.inr this
  · have hs := hp.closed (Bool.eq_false_iff.2 hc)
    obtain ⟨hout, hafter⟩ := @MIDIParser.outputs_block data { p with sysex := some [0xF0] } [0xF0] hd rfl
    have hnext : h.next (.broken data) = { h with cut := true } := if_neg hc
    refine ⟨fun _ => ?_, fun _ hcut => absurd hcut hc⟩
    change (p.feedByte 0xF0).2 :: (p.feedByte 0xF0).1.outputs data = _ ∧ Holds _ _ ((p.feedByte 0xF0).1.after data)
    rw [opens hs, hout, hafter, hnext]
    exact ⟨rfl, hp.status, hp.pending, rfl, hp.needed, fun hz => absurd rfl hz⟩

theorem item_given {h : Held} {force : UInt8} {p : MIDIParser} (hp : Holds h force p) {i : Item} (hi : i.Ok force) :
    (h.Takes i → Given h p i) ∧ (Sent p i → h.Takes i) := by
  cases i with
  | message m running =>
    cases running with
    | true =>
      obtain ⟨htakes, hgiven⟩ := running_given hp hi
      exact ⟨fun _ => hgiven, fun _ => htakes⟩
    | false =>
      by_cases hc : h.cut = true
      · exact message_cut hp hc m
      · exact ⟨fun _ => message_given hp (Bool.eq_false_iff.2 hc) m, fun _ hcut => absurd hcut hc⟩
  | exclusive data => exact exclusive_given hp hi
  | broken data => exact broken_given hp hi

/-! ## Streams -/

theorem items_given : ∀ {items : List Item} {h : Held} {force : UInt8} {p : MIDIParser}, Holds h force p →
    WellFormed force items →
      (p.outputs ((items.flatMap Item.sent).map Prod.fst) = (items.flatMap Item.sent).map Prod.snd ↔ Kept h items)
  | [], _, _, _, _, _           => ⟨fun _ => trivial, fun _ => rfl⟩
  | i :: items, h, force, p, hp, hw => by
    obtain ⟨hgive, htake⟩ := item_given hp hw.1
    rw [flatMap_cons, map_append, map_append, MIDIParser.outputs_append]
    constructor
    · intro he
      obtain ⟨hfirst, hrest⟩ := append_inj he (by rw [MIDIParser.length_outputs, length_map, length_map])
      have htakes := htake hfirst
      exact ⟨htakes, (items_given (hgive htakes).2 hw.2).1 hrest⟩
    · rintro ⟨htakes, hkept⟩
      obtain ⟨hfirst, hholds⟩ := hgive htakes
      rw [hfirst, (items_given hholds hw.2).2 hkept]

theorem outputs_realtime : ∀ {sent : List (UInt8 × List Bytes)} {p : MIDIParser},
    (∀ x ∈ sent, 0xF8 ≤ x.1 → x.2 = [[x.1]]) → (p.outputs (sent.map Prod.fst) = sent.map Prod.snd ↔
      p.outputs ((sent.filter (fun x => x.1 < 0xF8)).map Prod.fst) = (sent.filter (fun x => x.1 < 0xF8)).map Prod.snd)
  | [], _, _         => Iff.rfl
  | x :: sent, p, h => by
    obtain ⟨hx, hsent⟩ := forall_mem_cons.1 h
    change (p.feedByte x.1).2 :: (p.feedByte x.1).1.outputs (sent.map Prod.fst) = x.2 :: sent.map Prod.snd ↔ _
    rw [filter_cons]
    split
    · change _ ↔ (p.feedByte x.1).2 :: (p.feedByte x.1).1.outputs _ = x.2 :: _
      rw [List.cons.injEq, List.cons.injEq, outputs_realtime hsent]
    rename_i hlt
    have hrealtime : 0xF8 ≤ x.1 := UInt8.not_lt.1 (fun hlt' => hlt (decide_eq_true hlt'))
    rw [MIDIParser.feedByte_realtime p hrealtime, hx hrealtime, List.cons.injEq, ← outputs_realtime hsent]
    exact and_iff_right rfl

theorem feedAll_chunks : ∀ {chunks : List (List (UInt8 × List Bytes))} {p : MIDIParser},
    p.outputs (chunks.flatten.map Prod.fst) = chunks.flatten.map Prod.snd →
      p.feedAll (chunks.map (fun c => c.map Prod.fst)) = chunks.map (fun c => (c.map Prod.snd).flatten)
  | [], _, _              => rfl
  | c :: chunks, p, he => by
    rw [flatten_cons, map_append, map_append, MIDIParser.outputs_append] at he
    obtain ⟨hfirst, hrest⟩ := append_inj he (by rw [MIDIParser.length_outputs, length_map, length_map])
    change (p.outputs _).flatten :: MIDIParser.feedAll _ _ = _ :: _
    rw [hfirst]
    exact congrArg _ (feedAll_chunks hrest)

theorem feedAll_singles : ∀ (sent : List (UInt8 × List Bytes)) (p : MIDIParser),
    p.feedAll ((sent.map (fun x => [x])).map (fun c => c.map Prod.fst)) = p.outputs (sent.map Prod.fst)
  | [], _        => rfl
  | x :: sent, p => by
    change [(p.feedByte x.1).2].flatten :: MIDIParser.feedAll _ _ = (p.feedByte x.1).2 :: _
    rw [flatten_singleton]
    exact congrArg _ (feedAll_singles sent _)

theorem delivered_iff_outputs (sent : List (UInt8 × List Bytes)) :
    Delivered sent ↔ ({} : MIDIParser).outputs (sent.map Prod.fst) = sent.map Prod.snd := by
  refine ⟨fun h => ?_, fun h chunks he => feedAll_chunks (by rw [he]; exact h)⟩
  have hsingles := h (sent.map (fun x => [x])) (by rw [← flatMap_def, flatMap_singleton'])
  rw [feedAll_singles, map_map] at hsingles
  rw [hsingles]
  refine map_congr_left fun x _ => ?_
  change [x.2].flatten = x.2
  exact flatten_singleton

/-- **MIDI messages are delivered exactly if every status byte that cuts a block short is lost without harm.** -/
theorem delivered_iff {items : List Item} {sent : List (UInt8 × List Bytes)} (hw : WellFormed 0 items)
    (hs : Stream items sent) : Delivered sent ↔ Kept {} items := by
  rw [delivered_iff_outputs, outputs_realtime hs.realtime, hs.items]
  exact items_given holds_start hw

/-- A note, an exclusive block with a clock in it and a note under the running status. -/
def playing : List Item :=
  [.exclusive [0x7D, 0x01], .message ⟨0x90, [0x3C, 0x64], rfl, by decide +kernel⟩ false,
    .message ⟨0x90, [0x3C, 0x00], rfl, by decide +kernel⟩ true, .message ⟨0xF2, [0x00, 0x01], rfl, by decide +kernel⟩ false,
    .broken [0x7D]]

theorem delivered_iff_playing : Delivered ((0xF8, [[0xF8]]) :: playing.flatMap Item.sent) :=
  (@delivered_iff playing _ (by decide +kernel) ⟨by decide, by decide⟩).2 (by decide)

/-- A note that is struck, a block that is cut short, and the note's release. -/
def cutShort : List Item :=
  [.message ⟨0x90, [0x3C, 0x64], rfl, by decide +kernel⟩ false, .broken [0x7D],
    .message ⟨0x80, [0x3C, 0x40], rfl, by decide +kernel⟩ false]

/-- The release is given out as a strike. -/
theorem cutShort_struck : ¬ ∀ items sent, WellFormed 0 items → Stream items sent →
    (MIDIParser.feed {} (sent.map Prod.fst)).2 = (sent.map Prod.snd).flatten := by
  intro h
  have hfeed : (MIDIParser.feed {} ((cutShort.flatMap Item.sent).map Prod.fst)).2 =
      [[0x90, 0x3C, 0x64], [0x90, 0x3C, 0x40]] := by decide
  have hsent := h cutShort (cutShort.flatMap Item.sent) (by decide +kernel) ⟨by decide, by decide⟩
  rw [hfeed] at hsent
  exact absurd hsent (by decide)

end Midi
end Prose
