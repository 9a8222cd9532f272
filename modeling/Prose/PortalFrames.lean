import Mathlib.Data.List.TakeWhile
import Prose.PortalDaemon
/-!
# PortalFrames — a result as frames

What is collected is what was written, up to the limit; the frames carry it, and the host reads from them what went into them.
-/
namespace Prose
namespace Portal

open List

/-! ## Words -/

theorem leU32_le32 (x : UInt32) (pre post : Bytes) : leU32 (pre ++ (le32 x ++ post)) pre.length = x := by
  have hget (k : Nat) : (pre ++ (le32 x ++ post)).getD (pre.length + k) 0 = (le32 x ++ post).getD k 0 := by
    rw [getD_eq_getElem?_getD, getElem?_append_right (Nat.le_add_right _ _), Nat.add_sub_cancel_left,
      getD_eq_getElem?_getD]
  have hfirst : (pre ++ (le32 x ++ post)).getD pre.length 0 = (le32 x ++ post).getD 0 0 := hget 0
  unfold leU32
  rw [hfirst, hget, hget, hget]
  show x.toUInt8.toUInt32 ||| (x >>> 8).toUInt8.toUInt32 <<< 8 ||| (x >>> 16).toUInt8.toUInt32 <<< 16 |||
    (x >>> 24).toUInt8.toUInt32 <<< 24 = x
  apply UInt32.eq_of_toBitVec_eq
  simp only [UInt32.toBitVec_or, UInt32.toBitVec_shiftLeft, UInt8.toBitVec_toUInt32, UInt32.toBitVec_toUInt8, UInt32.toBitVec_shiftRight]
  apply BitVec.eq_of_getLsbD_eq
  intro i hi
  simp only [UInt32.toBitVec_ofNat, BitVec.ofNat_eq_ofNat, BitVec.reduceMod, BitVec.ushiftRight_eq', BitVec.toNat_ofNat, Nat.reducePow,
    Nat.reduceMod, BitVec.shiftLeft_eq', BitVec.getLsbD_or, BitVec.getLsbD_setWidth, BitVec.getLsbD_shiftLeft,
    BitVec.getLsbD_ushiftRight]
  grind

theorem leU16_le16 (x : UInt16) (pre post : Bytes) : leU16 (pre ++ (le16 x ++ post)) pre.length = x := by
  have hget (k : Nat) : (pre ++ (le16 x ++ post)).getD (pre.length + k) 0 = (le16 x ++ post).getD k 0 := by
    rw [getD_eq_getElem?_getD, getElem?_append_right (Nat.le_add_right _ _), Nat.add_sub_cancel_left,
      getD_eq_getElem?_getD]
  have hfirst : (pre ++ (le16 x ++ post)).getD pre.length 0 = (le16 x ++ post).getD 0 0 := hget 0
  unfold leU16
  rw [hfirst, hget]
  show x.toUInt8.toUInt16 ||| (x >>> 8).toUInt8.toUInt16 <<< 8 = x
  apply UInt16.eq_of_toBitVec_eq
  simp only [UInt16.toBitVec_or, UInt16.toBitVec_shiftLeft, UInt8.toBitVec_toUInt16, UInt16.toBitVec_toUInt8, UInt16.toBitVec_shiftRight]
  apply BitVec.eq_of_getLsbD_eq
  intro i hi
  simp only [UInt16.toBitVec_ofNat, BitVec.ofNat_eq_ofNat, BitVec.reduceMod, BitVec.ushiftRight_eq', BitVec.toNat_ofNat, Nat.reducePow,
    Nat.reduceMod, BitVec.shiftLeft_eq', BitVec.getLsbD_or, BitVec.getLsbD_setWidth, BitVec.getLsbD_shiftLeft,
    BitVec.getLsbD_ushiftRight]
  grind

theorem Frame.bytes_length (f : Frame) : f.bytes.length = 16 + f.payload.length := by
  unfold Frame.bytes requestFrame
  simp only [length_append, le32, le16, length_cons, length_nil]

/-- **A frame is read as it was written.** -/
theorem frameOf_bytes {f : Frame} (h : f.payload.length < 2 ^ 32) : frameOf f.bytes = some f := by
  have hbytes : f.bytes = le32 magic ++ (le16 version ++ (le16 f.type ++ (le32 f.id ++ (le32 (UInt32.ofNat f.payload.length) ++
      (f.payload ++ []))))) := by
    unfold Frame.bytes requestFrame
    simp only [append_assoc, append_nil]
  have hmagic : leU32 f.bytes 0 = magic := by
    rw [hbytes]
    exact leU32_le32 _ [] _
  have hversion : leU16 f.bytes 4 = version := by
    rw [hbytes]
    exact leU16_le16 _ (le32 magic) _
  have htype : leU16 f.bytes 6 = f.type := by
    rw [hbytes, ← append_assoc]
    exact leU16_le16 _ (le32 magic ++ le16 version) _
  have hid : leU32 f.bytes 8 = f.id := by
    rw [hbytes, ← append_assoc, ← append_assoc]
    exact leU32_le32 _ (le32 magic ++ le16 version ++ le16 f.type) _
  have hlength : (leU32 f.bytes 12).toNat = f.payload.length := by
    rw [hbytes, ← append_assoc, ← append_assoc, ← append_assoc,
      show (12 : Nat) = (le32 magic ++ le16 version ++ le16 f.type ++ le32 f.id).length from rfl, leU32_le32, UInt32.toNat_ofNat',
      Nat.mod_eq_of_lt h]
  have hsize := f.bytes_length
  have hpayload : (f.bytes.drop 16).take f.payload.length = f.payload := by
    have hdrop : f.bytes.drop 16 = f.payload := by
      unfold Frame.bytes requestFrame
      exact drop_left' rfl
    rw [hdrop, take_length]
  unfold frameOf
  rw [hlength]
  dsimp only
  rw [if_pos ⟨by omega, hmagic, hversion, by omega⟩, htype, hid, hpayload]

/-! ## Pieces -/

theorem pieces_flatten (n : Nat) (hn : 0 < n) : ∀ {k : Nat} {b : Bytes}, b.length ≤ k → (pieces n k b).flatten = b
  | 0, b, h => (eq_nil_of_length_eq_zero (Nat.le_zero.1 h)).symm
  | k + 1, b, h => by
    unfold pieces
    split
    · next hb => rw [hb, flatten_nil]
    · rw [flatten_cons, pieces_flatten n hn (by rw [length_drop]; omega), take_append_drop]

theorem pieces_length {n : Nat} : ∀ {k : Nat} {b c : Bytes}, c ∈ pieces n k b → c.length ≤ n
  | 0, _, _, h => nomatch h
  | k + 1, b, c, h => by
    unfold pieces at h
    split at h
    · exact nomatch h
    · rcases mem_cons.1 h with rfl | h
      · exact length_take_le _ _
      · exact pieces_length h

theorem takeWhile_plain {b : Bytes} (h : 0 ∉ b) : b.takeWhile (· ≠ 0) = b :=
  takeWhile_eq_self_iff.2 fun _ hx => decide_eq_true fun he => h (he ▸ hx)

/-- **A piece that fits**: what is appended is all of it, and what is to come fits as before. -/
theorem append_piece {b acc : Bytes} (ha : acc.length ≤ maxOutput) (hd : bufferSize ∣ acc.length)
    (h0 : 0 ∉ b.take (maxOutput - acc.length)) (hroom : ¬ maxOutput < acc.length + (b.take bufferSize).length) :
    (append acc (b.take bufferSize)).length = acc.length + min bufferSize b.length ∧
      (b.drop bufferSize ≠ [] → bufferSize ∣ (append acc (b.take bufferSize)).length) ∧
      append acc (b.take bufferSize) ++ (b.drop bufferSize).take (maxOutput - (append acc (b.take bufferSize)).length) =
        acc ++ b.take (maxOutput - acc.length) ∧
      0 ∉ (b.drop bufferSize).take (maxOutput - (append acc (b.take bufferSize)).length) := by
  obtain ⟨m, hm⟩ := hd
  have htake : (b.take bufferSize).length = min bufferSize b.length := length_take
  have hle : bufferSize ≤ b.length → bufferSize ≤ maxOutput - acc.length := fun hb => by omega
  have hsub : b.take bufferSize = (b.take (maxOutput - acc.length)).take bufferSize := by
    rw [take_take]
    by_cases hb : bufferSize ≤ b.length
    · rw [Nat.min_eq_left (hle hb)]
    · rw [take_of_length_le (by omega), take_of_length_le (by omega)]
  have happend : append acc (b.take bufferSize) = acc ++ b.take bufferSize := by
    unfold append
    rw [takeWhile_plain fun hmem => h0 (mem_of_mem_take (hsub ▸ hmem))]
  have hlength : (acc ++ b.take bufferSize).length = acc.length + min bufferSize b.length := by
    rw [length_append, htake]
  rw [happend, hlength]
  by_cases hb : bufferSize ≤ b.length
  · have hrest := hle hb
    rw [Nat.min_eq_left hb]
    refine ⟨rfl, fun _ => ⟨m + 1, by rw [hm, Nat.mul_succ]⟩, ?_, fun hmem => h0 ?_⟩
    · rw [append_assoc]
      congr 1
      rw [show maxOutput - acc.length = bufferSize + (maxOutput - (acc.length + bufferSize)) by omega, take_add]
    · rw [← Nat.sub_sub, ← drop_take] at hmem
      exact mem_of_mem_drop hmem
  · rw [Nat.min_eq_right (by omega), drop_of_length_le (by omega), take_nil, append_nil,
      take_of_length_le (by omega), take_of_length_le (by omega)]
    exact ⟨rfl, fun hne => absurd rfl hne, rfl, nofun⟩

theorem full_of_over {b acc : Bytes} (ha : acc.length ≤ maxOutput) (hd : bufferSize ∣ acc.length)
    (hover : maxOutput < acc.length + (b.take bufferSize).length) : acc.length = maxOutput := by
  obtain ⟨m, hm⟩ := hd
  have := length_take_le bufferSize b
  unfold maxOutput bufferSize at *
  omega

/-- **What is collected of the pipe**, from a full number of buffers on: all up to the limit. -/
theorem collectOut_pieces : ∀ {k : Nat} {b acc : Bytes} {t : Bool}, b.length ≤ k → acc.length ≤ maxOutput →
    (b ≠ [] → bufferSize ∣ acc.length) → 0 ∉ b.take (maxOutput - acc.length) →
    collectOut (pieces bufferSize k b) (acc, t) = (acc ++ b.take (maxOutput - acc.length), t || decide (maxOutput < acc.length + b.length))
  | 0, b, acc, t, h, ha, _, _ => by
    obtain rfl := eq_nil_of_length_eq_zero (Nat.le_zero.1 h)
    show (acc, t) = _
    rw [take_nil, append_nil, decide_eq_false (by rw [length_nil]; omega), Bool.or_false]
  | k + 1, b, acc, t, h, ha, hd, h0 => by
    unfold pieces
    split
    · next hb =>
      rw [hb]
      show (acc, t) = _
      rw [take_nil, append_nil, decide_eq_false (by rw [length_nil]; omega), Bool.or_false]
    rename_i hb
    have hpos : 0 < b.length := length_pos_of_ne_nil hb
    have hk : (b.drop bufferSize).length ≤ k := by
      rw [length_drop]
      unfold bufferSize
      omega
    show (if maxOutput < acc.length + (b.take bufferSize).length then _ else _) = _
    split
    · next hover =>
      have hfull := full_of_over ha (hd hb) hover
      have hnone : maxOutput - acc.length = 0 := by omega
      rw [collectOut_pieces hk ha (fun _ => hd hb) (by rw [hnone, take_zero]; exact nofun), hnone, take_zero,
        take_zero, Bool.true_or, decide_eq_true (by omega), Bool.or_true]
    rename_i hroom
    obtain ⟨hlength, hdvd, hrest, hplain⟩ := append_piece ha (hd hb) h0 hroom
    have htake : (b.take bufferSize).length = min bufferSize b.length := length_take
    rw [collectOut_pieces hk (by omega) hdvd hplain, hrest]
    congr 2
    refine decide_eq_decide.2 ?_
    rw [hlength, length_drop]
    omega

theorem collectError_pieces : ∀ {k : Nat} {b acc : Bytes} {t : Bool}, b.length ≤ k → acc.length ≤ maxOutput →
    (b ≠ [] → bufferSize ∣ acc.length) → 0 ∉ b.take (maxOutput - acc.length) →
    collectError (pieces bufferSize k b) (acc, t) = collectOut (pieces bufferSize k b) (acc, t)
  | 0, _, _, _, _, _, _, _ => rfl
  | k + 1, b, acc, t, h, ha, hd, h0 => by
    have hall := collectOut_pieces (t := t) h ha hd h0
    unfold pieces at hall ⊢
    split
    · rfl
    rename_i hb
    rw [if_neg hb] at hall
    show (if maxOutput < acc.length + (b.take bufferSize).length then _ else _) = _
    split
    · next hover =>
      have hnone : maxOutput - acc.length = 0 := by rw [full_of_over ha (hd hb) hover, Nat.sub_self]
      have hlt : maxOutput < acc.length + b.length := Nat.lt_of_lt_of_le hover (Nat.add_le_add_left (length_take_le' _ _) _)
      rw [hall, hnone, take_zero, append_nil, decide_eq_true hlt, Bool.or_true]
    rename_i hroom
    obtain ⟨hlength, hdvd, -, hplain⟩ := append_piece ha (hd hb) h0 hroom
    have hpos : 0 < b.length := length_pos_of_ne_nil hb
    have htake : (b.take bufferSize).length = min bufferSize b.length := length_take
    show _ = if maxOutput < acc.length + (b.take bufferSize).length then _ else _
    rw [if_neg hroom]
    refine collectError_pieces ?_ (by omega) hdvd hplain
    rw [length_drop]
    unfold bufferSize
    omega

/-- **What is collected**, of what is plain as far as it is kept. -/
theorem collectOut_eq {b : Bytes} (h : 0 ∉ b.take maxOutput) (t : Bool) :
    collectOut (reads b) ([], t) = (b.take maxOutput, t || decide (maxOutput < b.length)) := by
  have hcollect := @collectOut_pieces b.length b [] t (Nat.le_refl _) (Nat.zero_le _) (fun _ => ⟨0, rfl⟩) h
  rwa [nil_append, length_nil, Nat.zero_add] at hcollect

theorem collectError_eq {b : Bytes} (h : 0 ∉ b.take maxOutput) (t : Bool) :
    collectError (reads b) ([], t) = (b.take maxOutput, t || decide (maxOutput < b.length)) := by
  rw [← collectOut_eq h t]
  exact collectError_pieces (Nat.le_refl b.length) (Nat.zero_le _) (fun _ => ⟨0, rfl⟩) h

/-! ## The frames of a result -/

theorem runThread_eq {id : UInt32} {o : Output} (h : o.Plain) :
    runThread id o = sendResult id o.status (o.stdout.take maxOutput) (o.stderr.take maxOutput)
      (decide (maxOutput < o.stdout.length) || decide (maxOutput < o.stderr.length)) := by
  obtain ⟨⟨hout, -⟩, ⟨herr, -⟩, hfile⟩ := h
  unfold runThread
  rw [collectOut_eq hout, hfile]
  dsimp only
  rw [collectError_eq herr, Bool.false_or]

section
variable {id : UInt32} {status : Int32} {out error : Bytes} {truncated : Bool}

theorem resultHead_length : (resultHead status out error truncated).length = 16 := rfl

/-- **The host reads from the head what went into it.** -/
theorem headerOf_resultHead (hout : out.length < 2 ^ 32) (herr : error.length < 2 ^ 32) (rest : Bytes) :
    headerOf (resultHead status out error truncated ++ rest) = ⟨status, out.length, error.length, truncated⟩ := by
  have hhead : resultHead status out error truncated ++ rest = le32 status.toUInt32 ++ (le32 (UInt32.ofNat out.length) ++
      (le32 (UInt32.ofNat error.length) ++ (le32 (if truncated then Portal.truncated else 0) ++ rest))) := by
    unfold resultHead
    simp only [append_assoc]
  have hstatus : leU32 (resultHead status out error truncated ++ rest) 0 = status.toUInt32 := by
    rw [hhead]
    exact leU32_le32 _ [] _
  have hlen : leU32 (resultHead status out error truncated ++ rest) 4 = UInt32.ofNat out.length := by
    rw [hhead]
    exact leU32_le32 _ (le32 status.toUInt32) _
  have helen : leU32 (resultHead status out error truncated ++ rest) 8 = UInt32.ofNat error.length := by
    rw [hhead, ← append_assoc]
    exact leU32_le32 _ (le32 status.toUInt32 ++ le32 (UInt32.ofNat out.length)) _
  have hflags : leU32 (resultHead status out error truncated ++ rest) 12 = if truncated then Portal.truncated else 0 := by
    rw [hhead, ← append_assoc, ← append_assoc]
    exact leU32_le32 _ (le32 status.toUInt32 ++ le32 (UInt32.ofNat out.length) ++ le32 (UInt32.ofNat error.length)) _
  unfold headerOf
  rw [hstatus, hlen, helen, hflags, UInt32.toNat_ofNat', UInt32.toNat_ofNat', Nat.mod_eq_of_lt hout, Nat.mod_eq_of_lt herr]
  cases truncated <;> rfl

theorem sendResult_frame {f : Frame} (h : f ∈ sendResult id status out error truncated) :
    f.id = id ∧ f.IsResult ∧ f.payload.length ≤ framePayload := by
  rcases mem_cons.1 h with rfl | h
  · refine ⟨rfl, .inl rfl, ?_⟩
    rw [length_append, resultHead_length]
    have := length_take_le (min (out ++ error).length (framePayload - 16)) (out ++ error)
    unfold framePayload replySize at *
    omega
  · obtain ⟨c, hc, rfl⟩ := mem_map.1 h
    exact ⟨rfl, .inr rfl, pieces_length hc⟩

theorem bodies_more (cs : List Bytes) : bodies (cs.map fun chunk => ⟨resultMore, id, chunk⟩) = cs.flatten := by
  induction cs with
  | nil => rfl
  | cons c cs ih =>
    show Frame.body ⟨resultMore, id, c⟩ ++ bodies _ = c ++ cs.flatten
    rw [ih, Frame.body_more rfl]

/-- **The bodies are the two outputs**, one after the other. -/
theorem bodies_sendResult : bodies (sendResult id status out error truncated) = out ++ error := by
  unfold sendResult
  dsimp only
  show Frame.body ⟨result, id, _⟩ ++ bodies _ = _
  rw [bodies_more, pieces_flatten _ (by decide) (by rw [length_drop]; omega), Frame.body_result rfl,
    drop_left' resultHead_length, take_append_drop]

theorem headerIn_sendResult {fs : List Frame} (hfs : fs <+: sendResult id status out error truncated) (hne : fs ≠ [])
    (hout : out.length < 2 ^ 32) (herr : error.length < 2 ^ 32) :
    headerIn fs = some ⟨status, out.length, error.length, truncated⟩ := by
  cases fs with
  | nil => exact absurd rfl hne
  | cons f fs =>
    obtain ⟨hf, hfs⟩ := cons_prefix_cons.1 hfs
    have hmore : fs.filter (fun f => f.type = Portal.result) = [] := by
      refine filter_eq_nil_iff.2 fun g hg hr => ?_
      obtain ⟨c, -, rfl⟩ := mem_map.1 (hfs.subset hg)
      exact absurd (show resultMore = result from of_decide_eq_true hr) (by decide)
    unfold headerIn
    rw [filter_cons, hmore, hf]
    exact congrArg some (headerOf_resultHead hout herr _)

end

end Portal
end Prose
