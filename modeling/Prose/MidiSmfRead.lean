import Prose.MidiSmf
import Prose.MidiFileSafe
import Prose.Chunks
/-!
# MidiSmfRead — a written track is read back

An item is read in one turn of the loop of `_ReadTrack` (`step_item`): it goes behind the events there are, with the ticks so far and the
next number of the order, and its bytes behind the data.  A track is its items one after another (`readTrack_bytes`).
-/
namespace Prose
namespace MidiPlayer

open Bytes List

/-! ## Numbers -/

theorem variableLengthLoop_bytes (low : Fin 128) (rest : List UInt8) : ∀ (high : List (Fin 128)) (n value : ℕ), high.length < n →
    variableLengthLoop n value (high.map (fun b => UInt8.ofNat (128 + b.val)) ++ ([.ofNat low.val] ++ rest)) =
      .ok (high.foldl (fun n b => n * 128 + b.val) value * 128 + low, rest)
  | [], n + 1, value, _      => by
    have hlow : (UInt8.ofNat low.val).toNat = low := by
      rw [UInt8.toNat_ofNat']
      omega
    have hlt : UInt8.ofNat low.val < 0x80 := by
      rw [UInt8.lt_iff_toNat_lt, hlow]
      exact low.2
    change (if UInt8.ofNat low.val < 0x80 then Except.ok (value * 128 + (UInt8.ofNat low.val).toNat % 128, rest) else _) = _
    rw [if_pos hlt, hlow, Nat.mod_eq_of_lt low.2]
    rfl
  | b :: high, n + 1, value, h => by
    have hb : (UInt8.ofNat (128 + b.val)).toNat = 128 + b := by
      rw [UInt8.toNat_ofNat']
      omega
    have hlt : ¬ UInt8.ofNat (128 + b.val) < 0x80 := by
      rw [UInt8.lt_iff_toNat_lt, hb]
      change ¬ 128 + b.val < 128
      omega
    change (if UInt8.ofNat (128 + b.val) < 0x80 then _ else
      variableLengthLoop n (value * 128 + (UInt8.ofNat (128 + b.val)).toNat % 128)
        (high.map (fun b => UInt8.ofNat (128 + b.val)) ++ ([.ofNat low.val] ++ rest))) = _
    rw [if_neg hlt, hb, show (128 + b.val) % 128 = b by omega]
    exact variableLengthLoop_bytes low rest high n _ (Nat.lt_of_succ_lt_succ h)

/-- **A number is read back.** -/
theorem variableLength_bytes (v : Vlq) (rest : List UInt8) : variableLength (v.bytes ++ rest) = .ok (v.value, rest) := by
  rw [Vlq.bytes, append_assoc]
  exact variableLengthLoop_bytes v.low rest v.high 4 0 (Nat.lt_succ_of_le v.short)

theorem take_append (body rest : List UInt8) : take body.length (body ++ rest) = .ok (body, rest) := by
  have hle : ¬ (body ++ rest).length < body.length := by
    rw [length_append]
    omega
  rw [take, if_neg hle, slice_some (by omega), drop_zero, take_left, drop_left]
  rfl

theorem big_bigBytes {k n : ℕ} (h : n < 256 ^ k) : big (bigBytes k n) = n := by
  rw [big, bigBytes, reverse_reverse, nat_le h]

theorem length_bigBytes (k n : ℕ) : (bigBytes k n).length = k := by
  rw [bigBytes, length_reverse, le_length]

theorem Vlq.length_pos (v : Vlq) : 0 < v.bytes.length := by
  rw [Vlq.bytes, length_append]
  exact Nat.succ_pos _

/-! ## Items -/

def stripped (body : List UInt8) : List UInt8 := if body.getLast? = some 0xF7 then body.dropLast else body

def Plays (data : List UInt8) (e : SongEvent) : Item → Prop
  | .message m _ => e.status = m.status ∧ e.data1 = m.data1 ∧ e.data2 = m.data2
  | .exclusive p => e.status = 0xF0 ∧ e.offset + e.length ≤ data.length ∧ (data.drop e.offset).take e.length = stripped p.body
  | .escape p    => e.status = 0xF7 ∧ e.offset + e.length ≤ data.length ∧ (data.drop e.offset).take e.length = p.body
  | _            => True

def Holds (data : List UInt8) (raw : RawEvent) (x : ℕ × Item) : Prop :=
  raw.tick = x.1 ∧ raw.tempo = x.2.tempoValue ∧ Plays data raw.event x.2

theorem body_append {data more : List UInt8} {offset length : ℕ} (h : offset + length ≤ data.length) :
    ((data ++ more).drop offset).take length = (data.drop offset).take length := by
  rw [drop_append_of_le_length (by omega), take_append_of_le_length]
  rw [length_drop]
  omega

theorem Holds.append {data : List UInt8} {raw : RawEvent} {x : ℕ × Item} (h : Holds data raw x) (more : List UInt8) :
    Holds (data ++ more) raw x := by
  obtain ⟨htick, htempo, hplays⟩ := h
  refine ⟨htick, htempo, ?_⟩
  obtain ⟨tick, i⟩ := x
  cases i with
  | message m running => exact hplays
  | exclusive p =>
    obtain ⟨hstatus, hinside, hbody⟩ := hplays
    exact ⟨hstatus, by rw [length_append]; omega, by rw [body_append hinside]; exact hbody⟩
  | escape p =>
    obtain ⟨hstatus, hinside, hbody⟩ := hplays
    exact ⟨hstatus, by rw [length_append]; omega, by rw [body_append hinside]; exact hbody⟩
  | tempo length value h => trivial
  | other type p h => trivial

namespace Reading

def Adds (r r' : Reading) (xs : List (ℕ × Item)) : Prop :=
  ∃ raws more, r'.events = r.events ++ raws ∧ r'.data = r.data ++ more ∧ List.Forall₂ (Holds r'.data) raws xs ∧
    raws.map (·.order) = List.range' r.order xs.length ∧ r'.order = r.order + xs.length

theorem Adds.nil {r r' : Reading} (hevents : r'.events = r.events) (hdata : r'.data = r.data) (horder : r'.order = r.order) :
    r.Adds r' [] :=
  ⟨[], [], by rw [hevents, append_nil], by rw [hdata, append_nil], .nil, rfl, horder⟩

theorem Adds.trans {r r' r'' : Reading} {xs ys : List (ℕ × Item)} (h : r.Adds r' xs) (h' : r'.Adds r'' ys) : r.Adds r'' (xs ++ ys) := by
  obtain ⟨raws, more, hevents, hdata, hholds, horders, horder⟩ := h
  obtain ⟨raws', more', hevents', hdata', hholds', horders', horder'⟩ := h'
  refine ⟨raws ++ raws', more ++ more', by rw [hevents', hevents, append_assoc], by rw [hdata', hdata, append_assoc], ?_, ?_, ?_⟩
  · refine rel_append ?_ hholds'
    refine hholds.imp fun raw x hx => ?_
    rw [hdata']
    exact hx.append more'
  · rw [map_append, horders, horders', horder, length_append, ← List.range'_append, Nat.one_mul]
  · rw [horder', horder, length_append, Nat.add_assoc]

def Room (bound : ℕ) (r : Reading) : Prop := r.order + r.here.length ≤ bound ∧ r.data.length + r.here.length ≤ bound

theorem adds_push {r r' : Reading} {tick tempo : ℕ} {e : SongEvent} {i : Item} (body : List UInt8)
    (hr : r' = { r with data := r.data ++ body, here := r'.here, runningStatus := r'.runningStatus }.push tempo e)
    (horder : r.order + 1 < 2 ^ 32) (hholds : Holds (r.data ++ body) ⟨r.tick, r.order, tempo, e⟩ (tick, i)) : r.Adds r' [(tick, i)] := by
  refine ⟨[⟨r.tick, r.order, tempo, e⟩], body, by rw [hr]; rfl, by rw [hr]; rfl, ?_, rfl, ?_⟩
  · rw [hr]
    exact .cons hholds .nil
  · rw [hr]
    exact Nat.mod_eq_of_lt horder

end Reading

theorem seven {b : UInt8} (h : b < 0x80) : b &&& 0x7f = b := by
  apply UInt8.toNat_inj.1
  rw [UInt8.toNat_and]
  have hlt : b.toNat < 2 ^ 7 := UInt8.lt_iff_toNat_lt.1 h
  change b.toNat &&& (2 ^ 7 - 1) = _
  rw [Nat.and_two_pow_sub_one_eq_mod, Nat.mod_eq_of_lt hlt]

namespace Reading

theorem secondByte_single {status : UInt8} (h : single status = true) (here : List UInt8) : secondByte status here = .ok (0, here) := by
  refine if_neg fun hne => ?_
  rw [single, Bool.or_eq_true, beq_iff_eq, beq_iff_eq] at h
  exact h.elim hne.1 hne.2

theorem secondByte_double {status : UInt8} (h : single status = false) (here : List UInt8) : secondByte status here = byte here := by
  rw [single, Bool.or_eq_false_iff, beq_eq_false_iff_ne, beq_eq_false_iff_ne] at h
  exact if_pos h

theorem channel_bytes (m : ChannelMessage) (first : Option UInt8) {r : Reading} {rest : List UInt8}
    (hhere : firstByte first r.here = .ok (m.data1, (if single m.status then [] else [m.data2]) ++ rest)) :
    r.channel m.status first =
      .ok ({ r with here := rest, runningStatus := m.status }.push 0 ⟨0, m.status, m.data1, m.data2, 0, 0⟩) := by
  rw [channel, hhere]
  obtain ⟨h1, h2⟩ := m.isData
  cases hs : single m.status with
  | true =>
    change (secondByte m.status rest >>= _) = _
    rw [secondByte_single hs]
    have hzero := m.isSingle hs
    change Except.ok (Reading.push 0 ⟨0, m.status, m.data1 &&& 0x7f, 0 &&& 0x7f, 0, 0⟩ _) = _
    rw [seven h1, hzero]
    rfl
  | false =>
    change (secondByte m.status (m.data2 :: rest) >>= _) = _
    rw [secondByte_double hs]
    change Except.ok (Reading.push 0 ⟨0, m.status, m.data1 &&& 0x7f, m.data2 &&& 0x7f, 0, 0⟩ _) = _
    rw [seven h1, seven h2]
    rfl

theorem packet_read (status : UInt8) (p : Packet) {r : Reading} {rest : List UInt8} (hhere : r.here = p.bytes ++ rest) :
    r.packet status = .ok ({ r with
        here := rest, runningStatus := 0, data := r.data ++ if status = 0xF0 then stripped p.body else p.body }.push 0
      ⟨0, status, 0, 0, r.data.length % 2 ^ 32, (if status = 0xF0 then stripped p.body else p.body).length⟩) := by
  rw [packet, hhere, Packet.bytes, append_assoc, variableLength_bytes]
  change (take p.length.value (p.body ++ rest) >>= _) = _
  rw [p.same, take_append]
  have hbody : p.body.take (if status = 0xF0 ∧ 0 < p.body.length ∧ p.body[p.body.length - 1]? = some 0xF7 then p.body.length - 1
      else p.body.length) = if status = 0xF0 then stripped p.body else p.body := by
    rw [← getLast?_eq_getElem?]
    by_cases hstatus : status = 0xF0
    · rw [if_pos hstatus, stripped]
      by_cases hlast : p.body.getLast? = some 0xF7
      · have hpos : 0 < p.body.length := by
          cases hp : p.body with
          | nil => rw [hp] at hlast; exact absurd hlast (by simp)
          | cons b bs => exact Nat.succ_pos _
        rw [if_pos ⟨hstatus, hpos, hlast⟩, if_pos hlast, dropLast_eq_take]
      · rw [if_neg fun h => hlast h.2.2, if_neg hlast, take_length]
    · rw [if_neg fun h => hstatus h.1, if_neg hstatus, take_length]
  have hlen : (if status = 0xF0 ∧ 0 < p.body.length ∧ p.body[p.body.length - 1]? = some 0xF7 then p.body.length - 1
      else p.body.length) = (if status = 0xF0 then stripped p.body else p.body).length := by
    rw [← hbody, length_take]
    split <;> omega
  change Except.ok (Reading.push 0 ⟨0, status, 0, 0, _, if status = 0xF0 ∧ 0 < p.body.length ∧ p.body[p.body.length - 1]? = some 0xF7
    then p.body.length - 1 else p.body.length⟩ { r with here := rest, runningStatus := 0, data := r.data ++ p.body.take _ }) = _
  rw [hbody, hlen]

theorem metaEvent_read (track : ℕ) (type : UInt8) (length : Vlq) (body : List UInt8) (hlength : length.value = body.length) {r : Reading}
    {rest : List UInt8} (hhere : r.here = type :: (length.bytes ++ (body ++ rest))) : r.metaEvent track =
      if type = 0x2F then .error .over
      else if type = 0x51 ∧ body.length = 3 then
        .ok (if big body = 0 then { r with here := rest, runningStatus := 0 }
          else { r with here := rest, runningStatus := 0 }.push (big body) ⟨0, 0, 0, 0, 0, 0⟩)
      else .ok { r with
        here := rest, runningStatus := 0
        title := if type = 0x03 ∧ track = 0 ∧ r.title = [] then textFromMidi body else r.title } := by
  rw [metaEvent, hhere, byte_cons]
  change (variableLength (length.bytes ++ (body ++ rest)) >>= _) = _
  rw [variableLength_bytes]
  change (take length.value (body ++ rest) >>= _) = _
  rw [hlength, take_append]
  rfl

structure Taken (T : ℕ) (i : Item) (rest : List UInt8) (r r' : Reading) : Prop where
  here : r'.here = rest
  tick : r'.tick = r.tick
  runningStatus : r'.runningStatus = i.inForce
  adds : r.Adds r' (if i.counts then [(T, i)] else [])
  order_le : r'.order ≤ r.order + 1
  length_le : r'.data.length ≤ r.data.length + i.bytes.length

/-- There is room for one event more, and it is at a tick that 32 bits can hold. -/
structure Ready (T : ℕ) (i : Item) (r : Reading) : Prop where
  tick : r.tick = T % 2 ^ 32
  fits : i.counts = true → T < 2 ^ 32
  order : r.order + 1 < 2 ^ 32
  data : r.data.length < 2 ^ 32

theorem Ready.tick_eq {T : ℕ} {i : Item} {r : Reading} (h : r.Ready T i) (hi : i.counts = true) : r.tick = T := by
  rw [h.tick, Nat.mod_eq_of_lt (h.fits hi)]

theorem taken_message (T : ℕ) (m : ChannelMessage) (running : Bool) (rest tail : List UInt8) {r : Reading} (h : r.Ready T (.message m running)) :
    ({ r with here := tail } : Reading).Taken T (.message m running) rest
      ({ r with here := rest, runningStatus := m.status }.push 0 ⟨0, m.status, m.data1, m.data2, 0, 0⟩) where
  here := rfl
  tick := rfl
  runningStatus := rfl
  adds := adds_push [] (by rw [append_nil]; rfl) h.order ⟨h.tick_eq rfl, rfl, rfl, rfl, rfl⟩
  order_le := Nat.mod_le _ _
  length_le := Nat.le_add_right _ _

theorem length_stripped (body : List UInt8) : (stripped body).length ≤ body.length := by
  rw [stripped]
  split
  · rw [length_dropLast]
    omega
  · exact Nat.le_refl _

theorem plays_body {data body : List UInt8} (h : data.length < 2 ^ 32) :
    data.length % 2 ^ 32 + body.length ≤ (data ++ body).length ∧
      ((data ++ body).drop (data.length % 2 ^ 32)).take body.length = body := by
  rw [Nat.mod_eq_of_lt h, length_append, drop_left, take_length]
  exact ⟨Nat.le_refl _, rfl⟩

theorem taken_exclusive (T : ℕ) (p : Packet) (rest tail : List UInt8) {r : Reading} (h : r.Ready T (.exclusive p)) :
    ({ r with here := tail } : Reading).Taken T (.exclusive p) rest
      ({ r with here := rest, runningStatus := 0, data := r.data ++ stripped p.body }.push 0
        ⟨0, 0xF0, 0, 0, r.data.length % 2 ^ 32, (stripped p.body).length⟩) where
  here := rfl
  tick := rfl
  runningStatus := rfl
  adds := adds_push (stripped p.body) rfl h.order ⟨h.tick_eq rfl, rfl, rfl, plays_body h.data⟩
  order_le := Nat.mod_le _ _
  length_le := by
    have := length_stripped p.body
    change (r.data ++ stripped p.body).length ≤ r.data.length + (p.length.bytes ++ p.body).length.succ
    rw [length_append, length_append]
    omega

theorem taken_escape (T : ℕ) (p : Packet) (rest tail : List UInt8) {r : Reading} (h : r.Ready T (.escape p)) :
    ({ r with here := tail } : Reading).Taken T (.escape p) rest
      ({ r with here := rest, runningStatus := 0, data := r.data ++ p.body }.push 0
        ⟨0, 0xF7, 0, 0, r.data.length % 2 ^ 32, p.body.length⟩) where
  here := rfl
  tick := rfl
  runningStatus := rfl
  adds := adds_push p.body rfl h.order ⟨h.tick_eq rfl, rfl, rfl, plays_body h.data⟩
  order_le := Nat.mod_le _ _
  length_le := by
    change (r.data ++ p.body).length ≤ r.data.length + (p.length.bytes ++ p.body).length.succ
    rw [length_append, length_append]
    omega

theorem event_exclusive (track : ℕ) (first : Option UInt8) (r : Reading) : r.event track 0xF0 first = r.packet 0xF0 := rfl

theorem event_escape (track : ℕ) (first : Option UInt8) (r : Reading) : r.event track 0xF7 first = r.packet 0xF7 := rfl

theorem event_meta (track : ℕ) (first : Option UInt8) (r : Reading) : r.event track 0xFF first = r.metaEvent track := rfl

theorem event_channel (track : ℕ) (m : ChannelMessage) (first : Option UInt8) (r : Reading) :
    r.event track m.status first = r.channel m.status first := if_pos m.isChannel.2

theorem next_status (track : ℕ) {status : UInt8} (h : 0x80 ≤ status) (r : Reading) :
    r.next track status = r.event track status none := if_neg (UInt8.not_lt.2 h)

/-- **An item is read** behind its delta time. -/
theorem next_item (track T : ℕ) (i : Item) (rest : List UInt8) {r : Reading} (hok : i.Ok r.runningStatus) (h : r.Ready T i) :
    ∃ b tail r', i.bytes ++ rest = b :: tail ∧ ({ r with here := tail } : Reading).next track b = .ok r' ∧
      ({ r with here := tail } : Reading).Taken T i rest r' := by
  cases i with
  | message m running =>
    have hdata : m.data ++ rest = m.data1 :: ((if single m.status then [] else [m.data2]) ++ rest) := by
      unfold ChannelMessage.data
      split <;> rfl
    cases running with
    | false =>
      refine ⟨m.status, m.data ++ rest, _, rfl, ?_, taken_message T m false rest _ h⟩
      rw [next_status track m.isChannel.1, event_channel]
      exact channel_bytes m none (by rw [hdata]; rfl)
    | true =>
      have hstatus : m.status = r.runningStatus := hok rfl
      refine ⟨m.data1, (if single m.status then [] else [m.data2]) ++ rest, _, hdata, ?_, taken_message T m true rest _ h⟩
      have hne : r.runningStatus ≠ 0 := by
        rw [← hstatus]
        intro hzero
        have := m.isChannel.1
        rw [hzero] at this
        exact absurd this (by decide)
      rw [next, if_pos m.isData.1, if_neg hne]
      change Reading.event track r.runningStatus (some m.data1) _ = _
      rw [← hstatus, event_channel]
      exact channel_bytes m (some m.data1) rfl
  | exclusive p =>
    refine ⟨0xF0, p.bytes ++ rest, _, rfl, ?_, taken_exclusive T p rest _ h⟩
    rw [next_status track (by decide), event_exclusive]
    exact packet_read 0xF0 p rfl
  | escape p =>
    refine ⟨0xF7, p.bytes ++ rest, _, rfl, ?_, taken_escape T p rest _ h⟩
    rw [next_status track (by decide), event_escape]
    exact packet_read 0xF7 p rfl
  | tempo length value hvalue =>
    obtain ⟨hthree, hpos, hlt⟩ := hvalue
    have hlen : length.value = (bigBytes 3 value).length := by rw [hthree, length_bigBytes]
    refine ⟨0xFF, 0x51 :: (length.bytes ++ (bigBytes 3 value ++ rest)),
      { r with here := rest, runningStatus := 0 }.push value ⟨0, 0, 0, 0, 0, 0⟩, ?_, ?_, ?_⟩
    · simp [Item.bytes]
    · rw [next_status track (by decide), event_meta, metaEvent_read track 0x51 length _ hlen rfl, if_neg (by decide),
        if_pos ⟨rfl, length_bigBytes 3 value⟩, big_bigBytes hlt, if_neg hpos.ne']
    · exact {
        here := rfl
        tick := rfl
        runningStatus := rfl
        adds := adds_push [] (by rw [append_nil]; rfl) h.order ⟨h.tick_eq rfl, rfl, trivial⟩
        order_le := Nat.mod_le _ _
        length_le := Nat.le_add_right _ _ }
  | other type p htype =>
    obtain ⟨hend, htempo⟩ := htype
    refine ⟨0xFF, type :: (p.length.bytes ++ (p.body ++ rest)), { r with
      here := rest, runningStatus := 0
      title := if type = 0x03 ∧ track = 0 ∧ r.title = [] then textFromMidi p.body else r.title }, ?_, ?_, ?_⟩
    · simp [Item.bytes, Packet.bytes]
    · rw [next_status track (by decide), event_meta, metaEvent_read track type p.length _ p.same rfl, if_neg hend,
        if_neg fun h => htempo h.1]
    · exact {
        here := rfl
        tick := rfl
        runningStatus := rfl
        adds := .nil rfl rfl rfl
        order_le := Nat.le_succ _
        length_le := Nat.le_add_right _ _ }

/-! ## Tracks -/

theorem step_next (track : ℕ) (d : Vlq) (status : UInt8) (tail : List UInt8) {r : Reading} (hhere : r.here = d.bytes ++ status :: tail) :
    step track r =
      match ({ r with here := tail, tick := (r.tick + d.value) % 2 ^ 32 } : Reading).next track status with
      | .error .outside => none
      | .error .over    => some (.inr { r with here := tail, tick := (r.tick + d.value) % 2 ^ 32 })
      | .ok r           => some (.inl r) := by
  have hpos : ¬ r.here.length ≤ 0 := by
    rw [hhere, length_append, length_cons]
    omega
  have hread : deltaAndStatus r.here = .ok (d.value, status, tail) := by
    rw [deltaAndStatus, hhere, variableLength_bytes]
    rfl
  rewrite [step, if_neg hpos, hread]
  rfl

theorem step_item (track T : ℕ) (d : Vlq) (i : Item) (rest : List UInt8) {r : Reading} (hhere : r.here = d.bytes ++ (i.bytes ++ rest))
    (hok : i.Ok r.runningStatus) (h : ({ r with tick := (r.tick + d.value) % 2 ^ 32 } : Reading).Ready T i) :
    ∃ r', step track r = some (.inl r') ∧ ({ r with tick := (r.tick + d.value) % 2 ^ 32 } : Reading).Taken T i rest r' := by
  obtain ⟨b, tail, r', hbytes, hnext, htaken⟩ :=
    @next_item track T i rest { r with tick := (r.tick + d.value) % 2 ^ 32 } hok h
  rw [hbytes] at hhere
  refine ⟨r', ?_, { htaken with }⟩
  rw [step_next track d b tail hhere]
  dsimp only at hnext
  rw [hnext]

end Reading

theorem Item.length_pos (i : Item) : 0 < i.bytes.length := by
  cases i with
  | message m running =>
    have hdata : 0 < m.data.length := by
      unfold ChannelMessage.data
      split <;> exact Nat.succ_pos _
    rw [bytes, length_append]
    omega
  | exclusive p => exact Nat.succ_pos _
  | escape p => exact Nat.succ_pos _
  | tempo length value h => exact Nat.succ_pos _
  | other type p h => exact Nat.succ_pos _

namespace Reading

theorem read_items (track : ℕ) (rest : List UInt8) {bound : ℕ} (hbound : bound < 2 ^ 32) : ∀ (es : List (Vlq × Item)) (T : ℕ) (r : Reading),
    r.here = es.flatMap eventBytes ++ rest → r.tick = T % 2 ^ 32 → Running r.runningStatus es →
    (∀ x ∈ ticked T es, x.2.counts = true → x.1 < 2 ^ 32) → r.Room bound →
    ∃ r', (∀ n, Loops.loop (step track) (n + es.length) r = Loops.loop (step track) n r') ∧ r'.here = rest ∧
      r.Adds r' ((ticked T es).filter (·.2.counts)) ∧ r'.Room bound
  | [], _, r, hhere, _, _, _, hroom => ⟨r, fun _ => rfl, hhere, .nil rfl rfl rfl, hroom⟩
  | (d, i) :: es, T, r, hhere, htick, hrun, hfits, hroom => by
    have hhere' : r.here = d.bytes ++ (i.bytes ++ (es.flatMap eventBytes ++ rest)) := by
      rw [hhere, flatMap_cons, eventBytes, append_assoc, append_assoc]
    have hlen : r.here.length = d.bytes.length + (i.bytes.length + (es.flatMap eventBytes ++ rest).length) := by
      rw [hhere', length_append, length_append]
    have hd := d.length_pos
    have hi := i.length_pos
    obtain ⟨horder, hdata⟩ := hroom
    obtain ⟨r₁, hstep, htaken⟩ := step_item track (T + d.value) d i (es.flatMap eventBytes ++ rest) hhere' hrun.1
      ⟨by rw [htick, Nat.mod_add_mod], hfits _ (.head _), by change r.order + 1 < _; omega, by change r.data.length < _; omega⟩
    have horder₁ : r₁.order ≤ r.order + 1 := htaken.order_le
    have hdata₁ : r₁.data.length ≤ r.data.length + i.bytes.length := htaken.length_le
    obtain ⟨r', hloop, hrest, hadds, hroom'⟩ := read_items track rest hbound es (T + d.value) r₁ htaken.here
      (by rw [htaken.tick]; exact (congrArg (fun t => (t + d.value) % 2 ^ 32) htick).trans (Nat.mod_add_mod _ _ _))
      (by rw [htaken.runningStatus]; exact hrun.2) (fun x hx => hfits x (.tail _ hx))
      ⟨by rw [htaken.here]; omega, by rw [htaken.here]; omega⟩
    refine ⟨r', fun n => ?_, hrest, ?_, hroom'⟩
    · rw [length_cons, ← Nat.add_assoc, Loops.loop, hstep]
      exact hloop n
    · have hboth := Adds.trans (show r.Adds r₁ _ from htaken.adds) hadds
      rw [ticked, filter_cons]
      split at hboth
      · next hc => rwa [if_pos hc]
      · next hc => rwa [if_neg hc]

/-- **A track is read**: its messages and tempo changes, at their ticks. -/
theorem readTrack_bytes (track : ℕ) (t : Track) {bound : ℕ} (hbound : bound < 2 ^ 32) {r : Reading}
    (hfits : ∀ x ∈ ticked 0 t.events, x.2.counts = true → x.1 < 2 ^ 32) (horder : r.order + t.bytes.length ≤ bound)
    (hdata : r.data.length + t.bytes.length ≤ bound) : ∃ r', r.readTrack track t.bytes = some r' ∧
      r.Adds r' ((ticked 0 t.events).filter (·.2.counts)) ∧ r'.order ≤ bound ∧ r'.data.length ≤ bound := by
  obtain ⟨r', hloop, hhere, hadds, horder', hdata'⟩ := read_items track (t.endDelta.bytes ++ (0xFF :: 0x2F :: t.endLength.bytes)) hbound
    t.events 0 { r with here := t.bytes, tick := 0, runningStatus := 0 } rfl rfl t.running hfits ⟨horder, hdata⟩
  have hlen : t.events.length ≤ t.bytes.length := by
    have hevents := @Chunks.length_le_flatMap _ _ eventBytes (fun e => by
      have := e.1.length_pos
      rw [eventBytes, length_append]
      omega) t.events
    rw [Track.bytes, length_append]
    exact hevents.trans (Nat.le_add_right _ _)
  have hstop : step track r' = some (.inr { r' with
      here := 0x2F :: t.endLength.bytes, tick := (r'.tick + t.endDelta.value) % 2 ^ 32 }) := by
    rw [step_next track t.endDelta 0xFF _ hhere, next_status track (by decide), event_meta,
      metaEvent_read track 0x2F t.endLength [] t.endZero (by rw [append_nil, append_nil]), if_pos rfl]
  refine ⟨{ r' with here := 0x2F :: t.endLength.bytes, tick := (r'.tick + t.endDelta.value) % 2 ^ 32 }, ?_, hadds,
    by change r'.order ≤ bound; omega, by change r'.data.length ≤ bound; omega⟩
  rw [readTrack, show t.bytes.length + 1 = (t.bytes.length - t.events.length + 1) + t.events.length by omega, hloop, Loops.loop, hstop]

end Reading

end MidiPlayer
end Prose
