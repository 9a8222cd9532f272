import Prose.MidiSmfFile
/-!
# MidiSmfTimes — a written file plays as it says

The events by their ticks and the order of reading are the items by their ticks (`sorted_holds`), and the time that is added up
along them, with the tempo changing as it goes, is the sum over the ticks of what each takes (`placed_foldl`).  What goes out is what the
file says exactly if no exclusive message has its first packet without its end (`read_and_sent`).
-/
namespace Prose
namespace MidiPlayer

open Bytes List

/-! ## The order -/

theorem zip_holds {data : List UInt8} : ∀ {raws : List RawEvent} {xs : List (ℕ × Item)} {k : ℕ}, List.Forall₂ (Holds data) raws xs →
    raws.map (·.order) = List.range' k xs.length →
    ∀ z ∈ raws.zip (xs.zipIdx k), Holds data z.1 z.2.1 ∧ z.1.order = z.2.2
  | _, _, _, .nil, _, _, hz => absurd hz not_mem_nil
  | raw :: raws, x :: xs, k, .cons hx hxs, ho, z, hz => by
    rw [map_cons, length_cons, List.range'_succ] at ho
    obtain ⟨hk, hrest⟩ := List.cons.inj ho
    obtain hz | hz := mem_cons.1 hz
    · rw [hz]
      exact ⟨hx, hk⟩
    · exact zip_holds hxs hrest z hz

/-- **By tick and order of reading** is by tick, what is at one tick as it was. -/
theorem sorted_holds {data : List UInt8} {raws : List RawEvent} {xs : List (ℕ × Item)} (h : List.Forall₂ (Holds data) raws xs)
    (ho : raws.map (·.order) = List.range' 0 xs.length) :
    List.Forall₂ (Holds data) (sorted raws) (xs.mergeSort fun a b => decide (a.1 ≤ b.1)) := by
  have hz := zip_holds h ho
  have hlen : raws.length = xs.zipIdx.length := by rw [length_zipIdx, h.length_eq]
  generalize hzip : raws.zip xs.zipIdx = zs at hz
  have hraws : raws = zs.map Prod.fst := by rw [← hzip, map_fst_zip hlen.le]
  have hxs : xs.zipIdx = zs.map Prod.snd := by rw [← hzip, map_snd_zip hlen.ge]
  have hsorted : sorted raws = (zs.mergeSort fun a b => !earlier b.1 a.1).map Prod.fst := by
    rw [hraws, sorted]
    exact (@map_mergeSort _ _ (fun a b => !earlier b.1 a.1) (fun a b => !earlier b a) Prod.fst zs fun _ _ _ _ => rfl).symm
  have hitems : xs.mergeSort (fun a b => decide (a.1 ≤ b.1)) = ((zs.mergeSort fun a b => !earlier b.1 a.1).map Prod.snd).map Prod.fst := by
    rw [← mergeSort_zipIdx, hxs]
    congr 1
    refine (map_mergeSort fun a ha b hb => ?_).symm
    obtain ⟨⟨hatick, -, -⟩, haorder⟩ := hz a ha
    obtain ⟨⟨hbtick, -, -⟩, hborder⟩ := hz b hb
    simp only [earlier, List.zipIdxLE, hatick, hbtick, haorder, hborder]
    grind
  rw [hsorted, hitems, map_map, List.forall₂_map_left_iff, List.forall₂_map_right_iff, List.forall₂_same]
  exact fun z hmem => (hz z (mem_mergeSort.1 hmem)).1

/-! ## The tempo map -/

def lastTempo (xs : List (ℕ × Item)) : ℕ := ((xs.filter fun x => decide (x.2.tempoValue ≠ 0)).map (·.2.tempoValue)).getLast?.getD 500000

theorem tempoAt_between {pre suf : List (ℕ × Item)} {tick : ℕ} (hpre : ∀ x ∈ pre, x.1 ≤ tick) (hsuf : ∀ x ∈ suf, tick < x.1) :
    tempoAt (pre ++ suf) tick = lastTempo pre := by
  have hleft : pre.filter (fun x => decide (x.1 ≤ tick ∧ x.2.tempoValue ≠ 0)) = pre.filter fun x => decide (x.2.tempoValue ≠ 0) :=
    filter_congr fun x hx => by simp [hpre x hx]
  have hright : suf.filter (fun x => decide (x.1 ≤ tick ∧ x.2.tempoValue ≠ 0)) = [] :=
    filter_eq_nil_iff.2 fun x hx => by simp [hsuf x hx]
  rw [tempoAt, tempos, filter_append, hleft, hright, append_nil, lastTempo]

theorem clock_stretch (d : Division) (xs : List (ℕ × Item)) {a b tempo : ℕ} (hab : a ≤ b)
    (h : ∀ t, a ≤ t → t < b → tempoAt xs t = tempo) : clock d xs b = clock d xs a + (b - a : ℕ) * d.length tempo := by
  induction b, hab using Nat.le_induction with
  | base => simp
  | succ b hab ih =>
    have ih := ih fun t hat htb => h t hat (htb.trans (Nat.lt_succ_self b))
    have hsum : clock d xs (b + 1) = clock d xs b + d.length (tempoAt xs b) := Finset.sum_range_succ _ _
    rw [hsum, ih, h b hab (Nat.lt_succ_self b), Nat.succ_sub hab]
    push_cast
    ring

structure Placed (d : Division) (pre suf : List (ℕ × Item)) (p : Placing) : Prop where
  time : p.time = clock d (pre ++ suf) p.lastTick
  tempo : p.tempo = lastTempo pre
  behind : ∀ x ∈ pre, x.1 ≤ p.lastTick
  ahead : ∀ x ∈ suf, p.lastTick ≤ x.1

def Sounds (d : Division) (xs : List (ℕ × Item)) (data : List UInt8) (e : SongEvent) (x : ℕ × Item) : Prop :=
  e.time = ⌊clock d xs x.1⌋.toNat ∧ Plays data e x.2

theorem Placed.elapse {d : Division} {x : ℕ × Item} {pre suf : List (ℕ × Item)} {p : Placing} (h : Placed d pre (x :: suf) p)
    (hsorted : ∀ y ∈ suf, x.1 ≤ y.1) (hx : x.1 < 2 ^ 32) : p.elapse d.length x.1 = clock d (pre ++ x :: suf) x.1 := by
  have hle := h.ahead x (.head _)
  have hmod : (x.1 + 2 ^ 32 - p.lastTick) % 2 ^ 32 = x.1 - p.lastTick := by omega
  rw [Placing.elapse, hmod, h.time, h.tempo]
  refine (clock_stretch d _ hle fun t hat htb => tempoAt_between (fun y hy => (h.behind y hy).trans hat) fun y hy => ?_).symm
  obtain rfl | hy := mem_cons.1 hy
  · exact htb
  · exact htb.trans_le (hsorted y hy)

theorem Item.isMessage_of_tempo {i : Item} (h : i.counts = true) : i.isMessage = decide (i.tempoValue = 0) := by
  cases i with
  | message m running => rfl
  | exclusive p => rfl
  | escape p => rfl
  | tempo length value hvalue => exact (decide_eq_false hvalue.2.1.ne').symm
  | other type p htype => exact absurd h (by simp [counts])

theorem lastTempo_append (pre : List (ℕ × Item)) (x : ℕ × Item) :
    lastTempo (pre ++ [x]) = if x.2.tempoValue = 0 then lastTempo pre else x.2.tempoValue := by
  rw [lastTempo, filter_append]
  by_cases hx : x.2.tempoValue = 0
  · rw [if_pos hx, filter_singleton]
    simp [hx, lastTempo]
  · rw [if_neg hx, filter_singleton]
    simp [hx]

theorem Placed.place {d : Division} {x : ℕ × Item} {pre suf : List (ℕ × Item)} {p : Placing} (h : Placed d pre (x :: suf) p)
    (hsorted : ∀ y ∈ suf, x.1 ≤ y.1) (hx : x.1 < 2 ^ 32) {data : List UInt8} {raw : RawEvent} (hraw : Holds data raw x) :
    Placed d (pre ++ [x]) suf (p.place d.length raw) where
  time := by
    rw [Placing.time_place, Placing.lastTick_place, hraw.1, h.elapse hsorted hx, append_assoc]
    rfl
  tempo := by rw [Placing.tempo_place, lastTempo_append, hraw.2.1, h.tempo]
  behind y hy := by
    rw [Placing.lastTick_place, hraw.1]
    obtain hy | hy := mem_append.1 hy
    · exact (h.behind y hy).trans (h.ahead x (.head _))
    · rw [mem_singleton.1 hy]
  ahead y hy := by
    rw [Placing.lastTick_place, hraw.1]
    exact hsorted y hy

/-- **The events are placed** at the times of the items. -/
theorem placed_foldl (d : Division) {data : List UInt8} : ∀ {suf pre : List (ℕ × Item)} {raws : List RawEvent} {p : Placing},
    List.Forall₂ (Holds data) raws suf → (suf.Pairwise fun x y => x.1 ≤ y.1) → (∀ x ∈ suf, x.1 < 2 ^ 32 ∧ x.2.counts = true) →
    Placed d pre suf p → ∃ es, (raws.foldl (Placing.place d.length) p).events = p.events ++ es ∧
      List.Forall₂ (Sounds d (pre ++ suf) data) es (suf.filter (·.2.isMessage))
  | _, _, _, p, .nil, _, _, _ => ⟨[], (append_nil _).symm, .nil⟩
  | x :: suf, pre, raw :: raws, p, .cons hx hsuf, hsorted, hfits, hp => by
    obtain ⟨hhead, htail⟩ := pairwise_cons.1 hsorted
    obtain ⟨hlt, hcounts⟩ := hfits x (.head _)
    obtain ⟨es, hes, hsounds⟩ := placed_foldl d hsuf htail (fun y hy => hfits y (.tail _ hy)) (hp.place hhead hlt hx)
    rw [append_assoc] at hsounds
    rw [foldl_cons, hes, Placing.events_place, append_assoc]
    refine ⟨_, rfl, ?_⟩
    rw [filter_cons, Item.isMessage_of_tempo hcounts, hx.2.1]
    by_cases hzero : x.2.tempoValue = 0
    · rw [if_pos hzero, decide_eq_true hzero, if_pos rfl]
      refine .cons ⟨?_, ?_⟩ hsounds
      · dsimp only
        rw [hx.1, hp.elapse hhead hlt]
      · have hplays := hx.2.2
        cases hitem : x.2 <;> rw [hitem] at hplays <;> exact hplays
    · rw [if_neg hzero, decide_eq_false hzero]
      exact hsounds

/-! ## What goes out -/

theorem stripped_closed (body : List UInt8) : stripped body ++ [0xF7] = body ↔ body.getLast? = some 0xF7 := by
  rw [stripped]
  split
  · next hlast =>
    exact ⟨fun _ => hlast, fun _ => dropLast_append_getLast? _ hlast⟩
  rename_i hlast
  refine ⟨fun h => ?_, fun h => absurd h hlast⟩
  have := congrArg List.length h
  rw [length_append, length_singleton] at this
  omega

theorem message_bytes (song : Song) (volume : ℚ) {e : SongEvent} {i : Item} (hplays : Plays song.data e i) (hi : i.isMessage = true) :
    (song.message volume e).bytes = i.sent volume ↔ i.Closed := by
  cases i with
  | message m running =>
    obtain ⟨hstatus, h1, h2⟩ := hplays
    have hne : ∀ s : UInt8, 0xF0 ≤ s → e.status ≠ s := fun s hs heq => by
      have := m.isChannel.2
      rw [← hstatus, heq] at this
      exact absurd hs (UInt8.not_le.2 this)
    refine iff_of_true ?_ trivial
    rw [Song.message, if_neg (hne _ (by decide)), if_neg (hne _ (by decide)), hstatus, h1, h2]
    simp only [Item.sent, single]
    split_ifs <;> grind [Sent.bytes]
  | exclusive p =>
    obtain ⟨hstatus, -, hbody⟩ := hplays
    rw [Song.message, if_pos hstatus, Item.Closed, ← stripped_closed, ← hbody]
    exact cons_inj_right _
  | escape p =>
    obtain ⟨hstatus, -, hbody⟩ := hplays
    refine iff_of_true ?_ trivial
    rw [Song.message, if_neg (by rw [hstatus]; decide), if_pos hstatus]
    exact hbody
  | tempo length value h => exact absurd hi (by simp [Item.isMessage])
  | other type p h => exact absurd hi (by simp [Item.isMessage])

theorem map_eq_map_iff {α β γ : Type} {R : α → β → Prop} {f : α → γ} {g : β → γ} {C : β → Prop} :
    ∀ {as : List α} {bs : List β}, List.Forall₂ R as bs → (∀ a b, b ∈ bs → R a b → (f a = g b ↔ C b)) →
      (as.map f = bs.map g ↔ ∀ b ∈ bs, C b)
  | _, _, .nil, _                        => iff_of_true rfl fun _ h => absurd h not_mem_nil
  | a :: as, b :: bs, .cons hab habs, h => by
    rw [map_cons, map_cons, List.cons.injEq, h a b (.head _) hab, map_eq_map_iff habs fun a b hb => h a b (.tail _ hb),
      forall_mem_cons]

theorem closed_iff (f : Smf) : f.Closed ↔ ∀ x ∈ f.inOrder.filter (·.2.isMessage), x.2.Closed := by
  simp only [Smf.Closed, mem_filter, Smf.inOrder, mem_mergeSort]
  refine ⟨fun h x hx => h x hx.1, fun h x hx => ?_⟩
  by_cases hmessage : x.2.isMessage = true
  · exact h x ⟨hx, hmessage⟩
  obtain ⟨tick, i⟩ := x
  cases i with
  | exclusive p => exact absurd rfl hmessage
  | _ => trivial

instance : (i : Item) → Decidable i.Closed
  | .exclusive _   => inferInstanceAs (Decidable (_ = _))
  | .message _ _   => isTrue trivial
  | .escape _      => isTrue trivial
  | .tempo _ _ _   => isTrue trivial
  | .other _ _ _   => isTrue trivial

instance (f : Smf) : Decidable f.Closed := inferInstanceAs (Decidable (∀ x ∈ f.items, x.2.Closed))

/-- A file that fits is sent as it says exactly if no exclusive message is in more than one packet. -/
theorem sent_iff (f : Smf) (h : f.Fits) :
    ∃ song ok, setTo f.bytes = some (song, ok) ∧ ∀ volume, song.sent volume = f.expected volume ↔ f.Closed := by
  obtain ⟨t, smpte, hset, hlength, raws, more, hevents, -, hholds, horders, -⟩ := setTo_bytes f h
  have hplaced : tickLength smpte f.division.code = f.division.length := funext hlength
  rw [nil_append] at hevents
  have hsorted := sorted_holds hholds horders
  obtain ⟨es, hes, hsounds⟩ := @placed_foldl f.division _ _ [] _ {} hsorted
    ((pairwise_mergeSort (fun a b c hab hbc => by simp at *; omega) (fun a b => by simp; omega) f.items).imp of_decide_eq_true)
    (fun x hx => ⟨h.2 x (mem_mergeSort.1 hx), (mem_filter.1 (mem_mergeSort.1 hx)).2⟩)
    ⟨rfl, rfl, fun _ hx => absurd hx not_mem_nil, fun _ _ => Nat.zero_le _⟩
  refine ⟨(place f.division.code smpte t).1, _, hset, fun volume => ?_⟩
  rw [closed_iff]
  have hsong : (place f.division.code smpte t).1.events = es := by
    rw [place, hplaced, hevents]
    exact hes
  rw [Song.sent, hsong, Smf.expected]
  refine map_eq_map_iff hsounds fun e x hx hex => ?_
  have htime : e.time = ⌊clock f.division f.inOrder x.1⌋.toNat := hex.1
  rw [Prod.mk.injEq, and_iff_right htime]
  exact message_bytes _ volume hex.2 (mem_filter.1 hx).2

/-- **MidiPlayer reads and sends files faithfully.**  Any bytes are read to their end, none outside of them, and the song is in order; and a
file that fits is sent as it says, message for message and time for time, exactly if every exclusive message's first packet has its
end. -/
theorem read_and_sent (file : List UInt8) (f : Smf) : (∃ song ok, setTo file = some (song, ok) ∧ Sound song) ∧
    (f.Fits → ∃ song ok, setTo f.bytes = some (song, ok) ∧ ∀ volume, song.sent volume = f.expected volume ↔ f.Closed) :=
  ⟨setTo_sound file, sent_iff f⟩

def vlq (low : Fin 128) : Vlq := ⟨[], low, Nat.zero_le _⟩

def oneTrack (events : List (Vlq × Item)) (running : Running 0 events) : Smf :=
  ⟨0, .metrical 96 (by decide), [], [.track ⟨events, running, vlq 0, vlq 0, rfl⟩], none, (by decide : 1 < 2 ^ 16)⟩

def whole : Smf := oneTrack
  [(vlq 0, .tempo (vlq 3) 480000 (by decide)), (vlq 0, .exclusive ⟨vlq 4, [0x43, 0x12, 0x00, 0xF7], rfl⟩),
    (vlq 8, .message ⟨0x90, 60, 64, by decide, by decide, by decide⟩ false),
    (vlq 8, .message ⟨0x90, 60, 0, by decide, by decide, by decide⟩ true)]
  ⟨trivial, trivial, fun h => absurd h (by decide), fun _ => rfl, trivial⟩

theorem whole_sent : ∃ song ok, setTo whole.bytes = some (song, ok) ∧ song.sent 1 = whole.expected 1 := by
  obtain ⟨song, ok, hset, hsent⟩ := (read_and_sent [] whole).2 ⟨by decide, by decide⟩
  exact ⟨song, ok, hset, (hsent 1).2 (by decide)⟩

def parted : Smf := oneTrack
  [(vlq 0, .exclusive ⟨vlq 3, [0x43, 0x12, 0x00], rfl⟩), (vlq 8, .escape ⟨vlq 2, [0x43, 0xF7], rfl⟩)] ⟨trivial, trivial, trivial⟩

def partedTracks : Tracks :=
  ⟨parted.bytes.length, 1, ⟨[0x2F, 0], 8, 0,
    [⟨0, 0, 0, ⟨0, 0xF0, 0, 0, 0, 3⟩⟩, ⟨8, 1, 0, ⟨0, 0xF7, 0, 0, 3, 2⟩⟩], 2, [0x43, 0x12, 0x00, 0x43, 0xF7], []⟩, 8⟩

theorem setTo_parted : setTo parted.bytes = some (place 96 none partedTracks) := by
  have hunwrap : unwrap parted.bytes = some (some parted.bytes) := by decide
  have hheader : header parted.bytes = some (some ⟨6, 0, 1, 96⟩) := by decide
  have hloop : Loops.loop (Tracks.step parted.bytes 1) (parted.bytes.length + 1) { position := 14 } = some partedTracks := by
    decide
  rw [setTo, hunwrap]
  simp only [Option.bind_eq_bind, Option.bind_some, hheader, readTracks]
  change (Loops.loop (Tracks.step parted.bytes 1) (parted.bytes.length + 1) { position := 14 }).bind _ = _
  rw [hloop]
  rfl

/-- The first packet is ended, although the message goes on in the second. -/
theorem parted_ended : (setTo parted.bytes).map (fun r => r.1.sent 1) = some [(0, [0xF0, 0x43, 0x12, 0x00, 0xF7]), (41666, [0x43, 0xF7])] ∧
    parted.expected 1 = [(0, [0xF0, 0x43, 0x12, 0x00]), (41666, [0x43, 0xF7])] := by
  have hsorted : sorted partedTracks.reading.events = partedTracks.reading.events := mergeSort_of_pairwise (by decide)
  have horder : parted.inOrder = parted.items := mergeSort_of_pairwise (by decide)
  rw [setTo_parted, place, hsorted, Smf.expected, horder]
  constructor
  · decide +kernel
  · decide +kernel

end MidiPlayer
end Prose
