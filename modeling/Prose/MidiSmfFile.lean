import Prose.MidiSmfRead
/-!
# MidiSmfFile — a written file is read back

The header, the chunks one after another, and the wrapper around them: of a file that fits, `SetTo` places what its tracks have
(`setTo_bytes`).
-/
namespace Prose
namespace MidiPlayer

open Bytes List

theorem take_drop_at {pre mid post : List UInt8} {pos n : ℕ} (hpos : pre.length = pos) (hn : mid.length = n) :
    ((pre ++ (mid ++ post)).drop pos).take n = mid := by
  subst hpos hn
  rw [drop_left, take_left]

/-! ## Chunks -/

theorem Chunk.length_id (c : Chunk) : c.id.length = 4 := by
  cases c with
  | track t => rfl
  | other id body h => exact h.1

theorem Chunk.length_bytes (c : Chunk) : c.bytes.length = 8 + c.body.length := by
  rw [bytes, length_append, length_append, length_bigBytes, c.length_id]
  omega

theorem chunk_at (pre rest : List UInt8) (c : Chunk) (hc : c.body.length < 256 ^ 4) :
    ((pre ++ (c.bytes ++ rest)).drop pre.length).take 4 = c.id ∧ chunkSize (pre ++ (c.bytes ++ rest)) pre.length = c.body.length ∧
      ((pre ++ (c.bytes ++ rest)).drop (pre.length + 8)).take c.body.length = c.body := by
  have hid := c.length_id
  have hsize := length_bigBytes 4 c.body.length
  have hbytes : c.bytes ++ rest = c.id ++ (bigBytes 4 c.body.length ++ (c.body ++ rest)) := by
    rw [Chunk.bytes, append_assoc, append_assoc]
  refine ⟨?_, ?_, ?_⟩
  · rw [hbytes]
    exact take_drop_at rfl hid
  · rw [chunkSize, hbytes, ← append_assoc pre, take_drop_at (by rw [length_append, hid]) hsize, big_bigBytes hc]
    simp only [length_append, hid, hsize]
    omega
  · rw [hbytes, ← append_assoc pre, ← append_assoc _ (bigBytes 4 c.body.length)]
    exact take_drop_at (by rw [length_append, length_append, hid, hsize]) rfl

def itemsOf (ts : List Track) : List (ℕ × Item) := (ts.flatMap fun t => ticked 0 t.events).filter (·.2.counts)

theorem itemsOf_append (ts us : List Track) : itemsOf (ts ++ us) = itemsOf ts ++ itemsOf us := by
  rw [itemsOf, flatMap_append, filter_append]
  rfl

theorem itemsOf_single (t : Track) : itemsOf [t] = (ticked 0 t.events).filter (·.2.counts) := by
  rw [itemsOf, flatMap_singleton]

def tracksOf (cs : List Chunk) : List Track := cs.filterMap Chunk.track?

theorem tracksOf_cons (c : Chunk) (cs : List Chunk) : tracksOf (c :: cs) = tracksOf [c] ++ tracksOf cs :=
  @filterMap_append _ _ [c] cs Chunk.track?

theorem read_chunk {smf pre rest : List UInt8} {trackCount : ℕ} (c : Chunk) {t : Tracks} (hsmf : smf.length < 2 ^ 32)
    (hbytes : smf = pre ++ (c.bytes ++ rest)) (hpos : t.position = pre.length) (hmore : t.track < trackCount)
    (hfits : ∀ x ∈ itemsOf (tracksOf [c]), x.1 < 2 ^ 32) (horder : t.reading.order ≤ pre.length)
    (hdata : t.reading.data.length ≤ pre.length) :
    ∃ t₁ : Tracks, t.step smf trackCount = some (.inl t₁) ∧ t₁.position = (pre ++ c.bytes).length ∧
      t₁.track = t.track + (tracksOf [c]).length ∧ t.reading.Adds t₁.reading (itemsOf (tracksOf [c])) ∧
      t₁.reading.order ≤ (pre ++ c.bytes).length ∧ t₁.reading.data.length ≤ (pre ++ c.bytes).length := by
  have hlen : smf.length = pre.length + (8 + c.body.length + rest.length) := by
    rw [hbytes, length_append, length_append, c.length_bytes]
  have hpre : (pre ++ c.bytes).length = pre.length + 8 + c.body.length := by
    rw [length_append, c.length_bytes]
    omega
  obtain ⟨hid, hsize, hbody⟩ := chunk_at pre rest c (by omega)
  rw [← hbytes] at hid hsize hbody
  have hstep := @step_chunk smf trackCount t hmore (by rw [hpos]; omega)
  rw [hpos, hid, hsize, hbody] at hstep
  rw [hstep, hpre]
  cases c with
  | track tr =>
    have hin : ∀ x ∈ ticked 0 tr.events, x.2.counts = true → x.1 < 2 ^ 32 := fun x hx hcounts =>
      hfits x (by
        change x ∈ itemsOf [tr]
        rw [itemsOf_single]
        exact mem_filter.2 ⟨hx, hcounts⟩)
    change _ = pre.length + (8 + tr.bytes.length + _) at hlen
    obtain ⟨r, hr, hadds, horder₁, hdata₁⟩ := @Reading.readTrack_bytes t.track tr (pre.length + 8 + tr.bytes.length) (by omega) t.reading
      hin (by omega) (by omega)
    rw [if_pos (show Chunk.id (.track tr) = trackId from rfl)]
    change ∃ t₁, (t.reading.readTrack t.track tr.bytes).map _ = _ ∧ _
    rw [hr]
    refine ⟨_, rfl, rfl, rfl, ?_, horder₁, hdata₁⟩
    change t.reading.Adds r (itemsOf [tr])
    rwa [itemsOf_single]
  | other id body h =>
    rw [if_neg (show Chunk.id (.other id body h) ≠ trackId from h.2)]
    exact ⟨_, rfl, rfl, rfl, .nil rfl rfl rfl, by dsimp only; omega, by dsimp only; omega⟩

/-- **The chunks are read one after another.** -/
theorem read_chunks {smf : List UInt8} {trackCount : ℕ} (hsmf : smf.length < 2 ^ 32) : ∀ (cs : List Chunk) (pre : List UInt8) (t : Tracks),
    smf = pre ++ cs.flatMap Chunk.bytes → t.position = pre.length → t.track + (tracksOf cs).length = trackCount →
    (∀ x ∈ itemsOf (tracksOf cs), x.1 < 2 ^ 32) → t.reading.order ≤ pre.length → t.reading.data.length ≤ pre.length →
    ∃ t', (∀ n, Loops.loop (Tracks.step smf trackCount) (n + cs.length + 1) t = some t') ∧
      t.reading.Adds t'.reading (itemsOf (tracksOf cs))
  | [], pre, t, hbytes, hpos, _, _, _, _ => by
    refine ⟨t, fun n => ?_, .nil rfl rfl rfl⟩
    have hend : ¬ (t.track < trackCount ∧ t.position + 8 ≤ smf.length) := by
      rw [hbytes, hpos, flatMap_nil, append_nil]
      omega
    rw [Loops.loop, Tracks.step, if_neg hend]
  | c :: cs, pre, t, hbytes, hpos, htracks, hfits, horder, hdata => by
    by_cases hmore : t.track < trackCount
    · rw [tracksOf_cons, itemsOf_append] at hfits ⊢
      rw [tracksOf_cons, length_append] at htracks
      have hbytes' : smf = pre ++ (c.bytes ++ cs.flatMap Chunk.bytes) := by rw [hbytes, flatMap_cons]
      obtain ⟨t₁, hstep, hpos₁, htrack₁, hadds₁, horder₁, hdata₁⟩ := read_chunk c hsmf hbytes' hpos hmore
        (fun x hx => hfits x (mem_append_left _ hx)) horder hdata
      have htracks₁ : t₁.track + (tracksOf cs).length = trackCount := by omega
      obtain ⟨t', hloop, hadds'⟩ := read_chunks hsmf cs (pre ++ c.bytes) t₁ (by rw [hbytes', append_assoc]) hpos₁ htracks₁
        (fun x hx => hfits x (mem_append_right _ hx)) horder₁ hdata₁
      refine ⟨t', fun n => ?_, hadds₁.trans hadds'⟩
      rw [Loops.loop, hstep]
      exact hloop n
    · have hnone : tracksOf (c :: cs) = [] := length_eq_zero_iff.1 (by omega)
      refine ⟨t, fun n => ?_, by rw [hnone]; exact .nil rfl rfl rfl⟩
      rw [Loops.loop, Tracks.step, if_neg fun h => hmore h.1]

/-! ## The header -/

namespace Smf

theorem code_pos (d : Division) : 0 < d.code ∧ d.code < 256 ^ 2 := by
  cases d with
  | metrical ticks h => exact ⟨h.1, h.2.trans (by decide)⟩
  | smpte frames ticks h =>
    obtain ⟨hframes, hpos, hlt⟩ := h
    have hrange : 24 ≤ frames ∧ frames ≤ 30 := by
      simp only [mem_cons, not_mem_nil, or_false] at hframes
      omega
    simp only [Division.code]
    omega

theorem length_headBytes (f : Smf) : f.headBytes.length = 14 + f.extra.length := by
  simp only [headBytes, length_append, length_bigBytes]
  change 4 + _ = _
  omega

theorem length_plain (f : Smf) : f.plain.length = 14 + f.extra.length + (f.chunks.flatMap Chunk.bytes).length := by
  rw [plain, length_append, length_headBytes]

theorem header_plain (f : Smf) (h : f.plain.length < 2 ^ 32) :
    header f.plain = some (some ⟨6 + f.extra.length, f.format, f.tracks.length, f.division.code⟩) := by
  have hlen := f.length_plain
  have hplain : f.plain = headId ++ (bigBytes 4 (6 + f.extra.length) ++ (bigBytes 2 f.format ++ (bigBytes 2 f.tracks.length ++
      (bigBytes 2 f.division.code ++ (f.extra ++ f.chunks.flatMap Chunk.bytes))))) := by
    simp only [plain, headBytes, append_assoc]
  have hb := length_bigBytes
  have hid : slice f.plain 0 4 = some headId := by
    rw [hplain]
    exact @slice_at [] headId _ 0 4 rfl rfl
  have hsize : slice f.plain 4 4 = some (bigBytes 4 (6 + f.extra.length)) := by
    rw [hplain]
    exact slice_at rfl (hb 4 _)
  have hformat : slice f.plain 8 2 = some (bigBytes 2 f.format) := by
    rw [hplain, ← append_assoc headId]
    exact slice_at (by rw [length_append, hb]; rfl) (hb 2 _)
  have htracks : slice f.plain 10 2 = some (bigBytes 2 f.tracks.length) := by
    rw [hplain, ← append_assoc headId, ← append_assoc (headId ++ _)]
    exact slice_at (by rw [length_append, length_append, hb, hb]; rfl) (hb 2 _)
  have hdivision : slice f.plain 12 2 = some (bigBytes 2 f.division.code) := by
    rw [hplain, ← append_assoc headId, ← append_assoc (headId ++ _), ← append_assoc ((headId ++ _) ++ _)]
    exact slice_at (by simp only [length_append, hb]; rfl) (hb 2 _)
  obtain ⟨hpos, hcode⟩ := code_pos f.division
  have hone := f.format.2
  rw [header, if_neg (by omega), hid, hsize, hformat, htracks, hdivision]
  simp only [Option.bind_eq_bind, Option.bind_some, ne_eq, not_true_eq_false, if_false]
  rw [big_bigBytes (by omega), big_bigBytes (by omega), big_bigBytes (show f.tracks.length < 256 ^ 2 from f.few), big_bigBytes hcode,
    if_neg (by omega), if_neg (by omega)]
  rfl

end Smf

/-! ## The wrapper -/

theorem RiffChunk.length_bytes (c : RiffChunk) : c.bytes.length = 8 + c.body.length + c.body.length % 2 := by
  rw [bytes, length_append, length_append, length_append, length_replicate, le_length, c.named.1]
  omega

theorem read_riff {file smf behind : List UInt8} (hfile : file.length < 2 ^ 32) : ∀ (cs : List RiffChunk) (pre : List UInt8) (n : ℕ),
    file = pre ++ (cs.flatMap RiffChunk.bytes ++ (dataId ++ (le 4 smf.length ++ (smf ++ behind)))) →
    Loops.loop (riffStep file) (n + cs.length + 1) pre.length = some (some smf)
  | [], pre, n, hbytes => by
    have hlen := congrArg List.length hbytes
    simp only [flatMap_nil, nil_append, length_append, le_length] at hlen
    change _ = _ + (4 + _) at hlen
    have hid : slice file pre.length 4 = some dataId := by
      rw [hbytes, flatMap_nil, nil_append]
      exact slice_at rfl rfl
    have hsize : natAt file (pre.length + 4) 4 = some smf.length := by
      rw [hbytes, flatMap_nil, nil_append, ← append_assoc pre]
      exact natAt_le (by rw [length_append]; rfl) (by omega)
    have hsmf : slice file (pre.length + 8) smf.length = some smf := by
      rw [hbytes, flatMap_nil, nil_append, ← append_assoc pre, ← append_assoc _ (le 4 _)]
      exact slice_at (by simp only [length_append, le_length]; rfl) rfl
    have hmin : min smf.length (file.length - pre.length - 8) = smf.length := by omega
    rw [Loops.loop, riffStep, if_pos (by omega), hid, hsize]
    simp only [Option.bind_eq_bind, Option.bind_some, if_true, hmin, hsmf]
    rfl
  | c :: cs, pre, n, hbytes => by
    have hbytes' : file = pre ++ (c.bytes ++ (cs.flatMap RiffChunk.bytes ++ (dataId ++ (le 4 smf.length ++ (smf ++ behind))))) := by
      rw [hbytes, flatMap_cons, append_assoc]
    have hlen := congrArg List.length hbytes'
    rw [length_append, length_append, c.length_bytes] at hlen
    have hparts : c.bytes ++ (cs.flatMap RiffChunk.bytes ++ (dataId ++ (le 4 smf.length ++ (smf ++ behind)))) =
        c.id ++ (le 4 c.body.length ++ (c.body ++ (List.replicate (c.body.length % 2) 0 ++
          (cs.flatMap RiffChunk.bytes ++ (dataId ++ (le 4 smf.length ++ (smf ++ behind))))))) := by
      simp only [RiffChunk.bytes, append_assoc]
    have hid : slice file pre.length 4 = some c.id := by
      rw [hbytes', hparts]
      exact slice_at rfl c.named.1
    have hsize : natAt file (pre.length + 4) 4 = some c.body.length := by
      rw [hbytes', hparts, ← append_assoc pre]
      exact natAt_le (by rw [length_append, c.named.1]) (by omega)
    have hnext : pre.length + 8 + c.body.length + c.body.length % 2 = (pre ++ c.bytes).length := by
      rw [length_append, c.length_bytes]
      omega
    have hstep : riffStep file pre.length = some (.inl (pre ++ c.bytes).length) := by
      rw [riffStep, if_pos (by omega), hid, hsize]
      simp only [Option.bind_eq_bind, Option.bind_some, if_neg c.named.2, hnext]
      rfl
    rw [Loops.loop, hstep]
    exact read_riff hfile cs (pre ++ c.bytes) n (by rw [hbytes', append_assoc])

theorem Smf.id_plain (f : Smf) : slice f.plain 0 4 = some headId := by
  rw [plain, headBytes, append_assoc]
  exact @slice_at [] headId _ 0 4 rfl rfl

/-- **What is in the wrapper is found**, and what has none is its own. -/
theorem unwrap_bytes (f : Smf) (h : f.bytes.length < 2 ^ 32) : unwrap f.bytes = some (some f.plain) := by
  rw [Smf.bytes] at h ⊢
  cases hw : f.wrapper with
  | none =>
    have hlen := f.length_plain
    dsimp only
    rw [unwrap, if_pos (by omega), f.id_plain]
    rfl
  | some w =>
    rw [hw] at h
    dsimp only at h ⊢
    have hlen : (w.bytes f.plain).length = 12 + (w.content f.plain).length := by
      simp only [Wrapper.bytes, length_append, le_length]
      change 4 + (4 + (4 + _)) = _
      omega
    have hid : slice (w.bytes f.plain) 0 4 = some riffId := @slice_at [] riffId _ 0 4 rfl rfl
    have hform : slice (w.bytes f.plain) 8 4 = some rmidId := by
      rw [Wrapper.bytes, ← append_assoc riffId]
      exact slice_at (by rw [length_append, le_length]; rfl) rfl
    have hshort : w.before.length ≤ (w.content f.plain).length := by
      have hchunks := @Chunks.length_le_flatMap _ _ RiffChunk.bytes (fun c => by rw [c.length_bytes]; omega) w.before
      rw [Wrapper.content, length_append]
      exact hchunks.trans (Nat.le_add_right _ _)
    have hloop := @read_riff _ f.plain w.behind h w.before (riffId ++ (le 4 (4 + (w.content f.plain).length) ++ rmidId))
      ((w.bytes f.plain).length - w.before.length) (by simp only [Wrapper.bytes, Wrapper.content, append_assoc])
    have hstart : (riffId ++ (le 4 (4 + (w.content f.plain).length) ++ rmidId)).length = 12 := by
      simp only [length_append, le_length]
      rfl
    rw [hstart, show (w.bytes f.plain).length - w.before.length + w.before.length + 1 = (w.bytes f.plain).length + 1 by omega] at hloop
    rw [unwrap, if_pos (by omega), hid, hform]
    exact hloop

/-! ## The file -/

theorem place_code (d : Division) (t : Tracks) : ∃ smpte : Option ℚ,
    (if isSmpte d.code then
      match smpteTickLength d.code with
      | none        => some (failed t.reading.data t.reading.title)
      | some length => some (place d.code (some length) t)
    else some (place d.code none t)) = some (place d.code smpte t) ∧ ∀ tempo, tickLength smpte d.code tempo = d.length tempo := by
  cases d with
  | metrical ticks h =>
    have hlow : isSmpte (Division.code (.metrical ticks h)) = false := decide_eq_false (Nat.not_le.2 h.2)
    exact ⟨none, by rw [hlow]; rfl, fun _ => rfl⟩
  | smpte frames ticks h =>
    obtain ⟨hframes, hpos, hlt⟩ := id h
    have hrange : 24 ≤ frames ∧ frames ≤ 30 := by
      simp only [mem_cons, not_mem_nil, or_false] at hframes
      omega
    have hsmpte : isSmpte (Division.code (.smpte frames ticks h)) = true := by
      refine decide_eq_true ?_
      change 0x8000 ≤ (256 - frames) * 256 + ticks
      omega
    have hhigh : ((256 - frames) * 256 + ticks) / 256 = 256 - frames := by omega
    have hlow : ((256 - frames) * 256 + ticks) % 256 = ticks := by omega
    have hneg : -(((256 - frames : ℕ) : ℤ) - 256) = frames := by omega
    have hlength : smpteTickLength (Division.code (.smpte frames ticks h)) = some (1000000 / (Division.rate frames * ticks)) := by
      rw [smpteTickLength, Division.code, hhigh, hlow, hneg, if_neg (by omega), Division.rate]
      norm_cast
    exact ⟨some (1000000 / (Division.rate frames * ticks)), by rw [if_pos hsmpte, hlength], fun _ => rfl⟩

theorem length_plain_le (f : Smf) : f.plain.length ≤ f.bytes.length := by
  rw [Smf.bytes]
  cases f.wrapper with
  | none => exact Nat.le_refl _
  | some w =>
    simp only [Wrapper.bytes, Wrapper.content, length_append]
    omega

/-- **A file that fits is read**: its messages and tempo changes, which are then placed. -/
theorem setTo_bytes (f : Smf) (h : f.Fits) : ∃ (t : Tracks) (smpte : Option ℚ),
    setTo f.bytes = some (place f.division.code smpte t) ∧ (∀ tempo, tickLength smpte f.division.code tempo = f.division.length tempo) ∧
      Reading.Adds {} t.reading f.items := by
  obtain ⟨hlen, hfits⟩ := h
  have hplain : f.plain.length < 2 ^ 32 := (length_plain_le f).trans_lt hlen
  have hhead := f.length_headBytes
  have hall := f.length_plain
  have hpos : (8 + (6 + f.extra.length)) % 2 ^ 32 = f.headBytes.length := by
    rw [hhead, Nat.mod_eq_of_lt (by omega)]
    omega
  obtain ⟨t, hloop, hadds⟩ := @read_chunks f.plain f.tracks.length hplain f.chunks f.headBytes { position := f.headBytes.length } rfl rfl
    (Nat.zero_add _) hfits (Nat.zero_le _) (Nat.zero_le _)
  obtain ⟨smpte, hplace, hlength⟩ := place_code f.division t
  refine ⟨t, smpte, ?_, hlength, hadds⟩
  have hchunks : f.chunks.length ≤ f.plain.length := by
    have := @Chunks.length_le_flatMap _ _ Chunk.bytes (fun c => by rw [c.length_bytes]; omega) f.chunks
    omega
  have hrun := hloop (f.plain.length - f.chunks.length)
  rw [show f.plain.length - f.chunks.length + f.chunks.length + 1 = f.plain.length + 1 by omega] at hrun
  rw [setTo, unwrap_bytes f hlen]
  simp only [Option.bind_eq_bind, Option.bind_some, f.header_plain hplain, readTracks, hpos, hrun]
  exact hplace

end MidiPlayer
end Prose
