import Prose.WriterRemoval
/-!
# WriterBoard — the bytes of a document and the images on them

The board of a document lists its bytes, a newline behind each paragraph, and with each the image that stands on it.
`Insert` and `SplitPara` put their text into the board, `Remove` cuts its range out.
-/
namespace Prose
namespace Writer

open Splice List

/-! ## The bytes of the document, a separator behind each paragraph -/

def Para.bytes (p : Para) : List Byte := p.text ++ [newline]

def bytes (ps : List Para) : List Byte := ps.flatMap Para.bytes

@[simp] theorem bytes_nil : bytes [] = [] := rfl

@[simp] theorem bytes_cons (p : Para) (ps : List Para) : bytes (p :: ps) = p.bytes ++ bytes ps := rfl

@[simp] theorem bytes_append (ps qs : List Para) : bytes (ps ++ qs) = bytes ps ++ bytes qs := flatMap_append

@[simp] theorem Para.length_bytes (p : Para) : p.bytes.length = p.text.length + 1 := length_append

theorem length_bytes : ∀ ps : List Para, (bytes ps).length = byteSpan ps
  | [] => rfl
  | p :: ps => by rw [bytes_cons, length_append, Para.length_bytes, length_bytes ps, byteSpan_cons]

theorem bytes_eq : ∀ {ps : List Para}, ps ≠ [] → bytes ps = plainText ps ++ [newline]
  | [p], _ => by simp [Para.bytes, plainText]
  | p :: q :: ps, _ => by
    rw [bytes_cons, bytes_eq (cons_ne_nil q ps)]
    simp [Para.bytes, plainText, intercalate_cons_cons]

theorem bytes_insertParas {ps : List Para} (hne : ps ≠ []) (dflt : PWCharFormat) (offset : Nat) (t : List Byte)
    (fmt : Option PWCharFormat) : bytes (insertParas dflt ps offset t fmt) = insertAt (min offset (docLength ps)) t (bytes ps) := by
  obtain ⟨pre, p, post, k, rfl, hloc, hk, hmin⟩ := locate_spec hne offset
  rw [insertParas, hloc, modify_mid, bytes_append, bytes_cons, bytes_append, bytes_cons, ← hmin, ← length_bytes pre,
    insertAt_append_right, insertAt_append_left (by rw [Para.length_bytes]; omega), Para.bytes, Para.bytes,
    insertAt_append_left hk]
  rfl

theorem bytes_splitParas {ps : List Para} (hne : ps ≠ []) (dflt : PWCharFormat) (offset id : Nat) :
    bytes (splitParas dflt ps offset id) = insertAt (min offset (docLength ps)) [newline] (bytes ps) := by
  obtain ⟨pre, p, post, k, rfl, hloc, hk, hmin⟩ := locate_spec hne offset
  rw [splitParas, hloc, drop_mid, take_mid]
  dsimp only
  rw [bytes_append, bytes_cons, bytes_cons, bytes_append, bytes_cons, ← hmin, ← length_bytes pre, insertAt_append_right,
    insertAt_append_left (by rw [Para.length_bytes]; omega)]
  congr 1
  show p.text.take k ++ [newline] ++ (p.text.drop k ++ [newline] ++ bytes post) = _
  rw [Para.bytes, insertAt_append_left hk]
  simp only [insertAt, append_assoc]

theorem bytes_removeLoop (dflt : PWCharFormat) (base : Nat) {k : Nat} (rest : List Para) {p : Para} (left : Nat)
    (saved : ImageTable) (hk : k ≤ p.text.length) (hleft : k + 1 + left ≤ byteSpan (p :: rest)) :
    (removeLoop dflt base k rest p left saved).1.1.bytes ++ bytes (removeLoop dflt base k rest p left saved).1.2 =
      cut k (k + left) (bytes (p :: rest)) := by
  induction rest, p, left, saved, hk using removeLoop_induct dflt base with
  | done rest p saved hk =>
    rw [removeLoop_done, Nat.add_zero, cut_self]
    rfl
  | within rest p left saved hk h0 hin =>
    rw [removeLoop_within dflt base h0 hin, bytes_cons, cut_append (by omega),
      show k - p.bytes.length = 0 by rw [Para.length_bytes]; omega,
      show k + left - p.bytes.length = 0 by rw [Para.length_bytes]; omega, cut_self, Para.bytes, Para.bytes,
      cut_append (by omega), show k - p.text.length = 0 by omega, show k + left - p.text.length = 0 by omega, cut_self]
    rfl
  | crosses next rest p left saved hk hk' hc ih =>
    rw [byteSpan_cons, byteSpan_cons] at hleft
    have htext : ((p.eraseRest dflt k).mergeNext next).bytes = p.text.take k ++ next.bytes := by
      show (p.eraseRest dflt k).text ++ next.text ++ [newline] = _
      have : (p.eraseRest dflt k).text = p.text.take k := by
        unfold Para.eraseRest
        split
        · show cut k _ p.text = _
          rw [cut, drop_eq_nil_of_le (by omega), append_nil]
        · rw [take_of_length_le (by omega)]
      rw [this, append_assoc]
      rfl
    have ht : (p.text.take k).length = k := by rw [length_take]; omega
    have htake : p.bytes.take k = p.text.take k := take_append_of_le_length hk
    rw [removeLoop_crosses dflt base hk hc, ih (by rw [byteSpan_cons, merged_text_length dflt hk]; omega), bytes_cons,
      htext, bytes_cons, bytes_cons, cut, cut, append_assoc, take_left' ht,
      take_append_of_le_length (by rw [Para.length_bytes]; omega), htake]
    congr 1
    rw [← drop_drop, drop_left' ht,
      show k + left = p.bytes.length + (left - (p.text.length - k + 1)) by rw [Para.length_bytes]; omega, ← drop_drop,
      drop_left]
  | past p left saved hk hc =>
    rw [byteSpan_cons, byteSpan_nil] at hleft
    omega

theorem bytes_removeParas {ps : List Para} {offset length : Nat} (hne : ps ≠ []) (dflt : PWCharFormat)
    (hr : offset + length ≤ docLength ps) :
    bytes (removeParas dflt ps offset length).1 = cut offset (offset + length) (bytes ps) := by
  obtain ⟨pre, p, post, k, rfl, hloc, hk, hmin⟩ := locate_spec hne offset
  have hL := docLength_add_one hne
  rw [byteSpan_append] at hL
  rw [removeParas, hloc]
  dsimp only
  rw [drop_mid, take_mid]
  dsimp only
  rw [bytes_append, bytes_cons, bytes_removeLoop dflt _ post length SortedMap.empty hk (by omega), bytes_append,
    show offset = (bytes pre).length + k by rw [length_bytes]; omega, Nat.add_assoc, cut_append_right]

theorem bytes_congr {ps ps' : List Para} (h : List.Forall₂ (fun p q => q.text = p.text) ps ps') :
    bytes ps' = bytes ps := by
  induction h with
  | nil => rfl
  | @cons p q ps ps' hpq _ ih => rw [bytes_cons, bytes_cons, ih, Para.bytes, Para.bytes, hpq]

/-! ## The board -/

abbrev Spot := Byte × Option PWImage

def board (ps : List Para) : List Spot := (bytes ps).zip (slots ps)

theorem length_bytes_slots (ps : List Para) : (bytes ps).length = (slots ps).length := by
  rw [length_bytes, length_slots]

theorem map_fst_board (ps : List Para) : (board ps).map Prod.fst = bytes ps :=
  map_fst_zip (Nat.le_of_eq (length_bytes_slots ps))

theorem map_snd_board (ps : List Para) : (board ps).map Prod.snd = slots ps :=
  map_snd_zip (Nat.le_of_eq (length_bytes_slots ps).symm)

theorem length_board (ps : List Para) : (board ps).length = byteSpan ps := by
  rw [← length_bytes, ← map_fst_board, length_map]

theorem board_grown {ps ps' : List Para} {i : Nat} {xs : List Spot} (hne : ps ≠ [])
    (h : board ps' = insertAt i xs (board ps)) : ps' ≠ [] ∧ docLength ps' = docLength ps + xs.length := by
  have hlen := congrArg List.length h
  rw [length_insertAt, length_board, length_board] at hlen
  have hpos := byteSpan_pos hne
  have hne' : ps' ≠ [] := by
    rintro rfl
    rw [byteSpan_nil] at hlen
    omega
  rw [← docLength_add_one hne, ← docLength_add_one hne'] at hlen
  exact ⟨hne', by omega⟩

def plainSpots (t : List Byte) : List Spot := t.map (·, none)

theorem zip_insertAt_plain {i : Nat} {bs t : List Byte} {sl : List (Option PWImage)} (h : bs.length = sl.length) :
    (insertAt i t bs).zip (insertAt i (List.replicate t.length none) sl) = insertAt i (plainSpots t) (bs.zip sl) := by
  rw [List.zip, zipWith_insertAt h (by rw [length_replicate]), zipWith_replicate_right]
  rfl

theorem board_insertParas {ps : List Para} (hne : ps ≠ []) (dflt : PWCharFormat) (offset : Nat) (t : List Byte)
    (fmt : Option PWCharFormat) :
    board (insertParas dflt ps offset t fmt) = insertAt (min offset (docLength ps)) (plainSpots t) (board ps) := by
  rw [board, bytes_insertParas hne, slots_insertParas hne, zip_insertAt_plain (length_bytes_slots ps), board]

theorem board_splitParas {ps : List Para} (hne : ps ≠ []) (dflt : PWCharFormat) (offset id : Nat) :
    board (splitParas dflt ps offset id) = insertAt (min offset (docLength ps)) (plainSpots [newline]) (board ps) := by
  have h := zip_insertAt_plain (i := min offset (docLength ps)) (t := [newline]) (length_bytes_slots ps)
  rw [board, bytes_splitParas hne, slots_splitParas hne]
  exact h

theorem board_removeParas {ps : List Para} {offset length : Nat} (hne : ps ≠ []) (hk : ∀ p ∈ ps, p.Keyed)
    (dflt : PWCharFormat) (hr : offset + length ≤ docLength ps) (hb : Backed ps offset (offset + length)) :
    board (removeParas dflt ps offset length).1 = cut offset (offset + length) (board ps) := by
  rw [board, bytes_removeParas hne dflt hr, slots_removeParas hne hk dflt hr hb, List.zip,
    zipWith_cut (length_bytes_slots ps)]
  rfl

theorem board_congr {ps ps' : List Para} (h : List.Forall₂ (fun p q => q.text = p.text ∧ q.images = p.images) ps ps') :
    board ps' = board ps := by
  rw [board, board, bytes_congr (h.imp (fun _ _ h => h.1)), slots_congr h]

theorem board_insertSegment {d : PWDocument} (hne : d.fParas ≠ []) (offset : Nat) (seg : List Byte)
    (fmt : Option PWCharFormat) : board (d.insertSegment offset seg fmt).fParas =
      insertAt (min offset (docLength d.fParas)) (plainSpots seg) (board d.fParas) := by
  unfold PWDocument.insertSegment
  by_cases h0 : seg = []
  · rw [if_pos h0, h0]
    exact (insertAt_nil _ _).symm
  · rw [if_neg h0, insertLine_fParas, board_insertParas hne]

theorem board_insertLines (fmt : Option PWCharFormat) : ∀ (ls : List (List Byte)) {d : PWDocument} (at' : Nat),
    d.fParas ≠ [] → board (insertLines fmt d at' ls).fParas =
      insertAt (min at' (docLength d.fParas)) (plainSpots (unlines ls)) (board d.fParas)
  | [], _, _, _ => (insertAt_nil _ _).symm
  | [seg], _, at', hne => board_insertSegment hne at' seg fmt
  | seg :: l :: ls, d, at', hne => by
    have hL := length_board d.fParas
    rw [← docLength_add_one hne] at hL
    have h1 := board_insertSegment hne at' seg fmt
    obtain ⟨hne1, hL1⟩ := board_grown hne h1
    -- the split behind the segment
    have h2 := board_splitParas hne1 (d.insertSegment at' seg fmt).fDefault (at' + seg.length)
      (d.insertSegment at' seg fmt).fNextParaId
    rw [h1, show min (at' + seg.length) (docLength (d.insertSegment at' seg fmt).fParas) =
      min at' (docLength d.fParas) + (plainSpots seg).length by rw [hL1, plainSpots, length_map]; omega,
      insertAt_insertAt (by omega), plainSpots, plainSpots, ← map_append, ← splitPara_fParas] at h2
    obtain ⟨hne2, hL2⟩ := board_grown hne h2
    -- the lines behind it
    have h3 := board_insertLines fmt (l :: ls) (at' + (seg.length + 1)) hne2
    rw [length_map, length_append, length_singleton] at hL2
    rw [h2, show min (at' + (seg.length + 1))
        (docLength ((d.insertSegment at' seg fmt).splitPara (at' + seg.length)).fParas) =
      min at' (docLength d.fParas) + (plainSpots (seg ++ [newline])).length by
        rw [hL2, plainSpots, length_map, length_append, length_singleton]
        omega] at h3
    refine h3.trans ?_
    rw [← plainSpots, insertAt_insertAt (by omega), plainSpots, plainSpots, ← map_append, append_assoc]
    rfl

/-- **`Insert` puts its text into the board**, at the offset clipped to the document. -/
theorem board_insert {d : PWDocument} (hne : d.fParas ≠ []) (offset : Nat) (t : List Byte) (fmt : Option PWCharFormat) :
    board (d.insert offset t fmt).fParas =
      insertAt (min offset (docLength d.fParas)) (plainSpots t) (board d.fParas) := by
  unfold PWDocument.insert
  by_cases h0 : t = []
  · rw [if_pos h0, h0]
    exact (insertAt_nil _ _).symm
  rw [if_neg h0]
  split
  · rw [board_insertLines fmt (lines t) offset hne, unlines_lines]
  · rw [insertLine_fParas, board_insertParas hne]

theorem slots_insert {d : PWDocument} (hne : d.fParas ≠ []) (offset : Nat) (t : List Byte) (fmt : Option PWCharFormat) :
    slots (d.insert offset t fmt).fParas =
      insertAt (min offset (docLength d.fParas)) (List.replicate t.length none) (slots d.fParas) := by
  have hnone : (plainSpots t).map Prod.snd = List.replicate t.length none := by
    rw [plainSpots, map_map]
    exact map_const'
  rw [← map_snd_board, board_insert hne, map_insertAt, map_snd_board, hnone]

def markerSpots (img : PWImage) : List Spot := kObjectChar.zip [some img, none, none]

theorem insertImage_fParas (d : PWDocument) (offset : Nat) (b : Bitmap) (w h : Rat) :
    (d.insertImage offset (some b) w h).fParas =
      (insertParas d.fDefault d.fParas offset kObjectChar none).modify (locate d.fParas offset).1 (fun p =>
        { p with images := p.images.set (locate d.fParas offset).2 ⟨some b, w, h⟩, revision := p.revision + 1 }) := by
  unfold PWDocument.insertImage
  dsimp only
  rw [insert_kObjectChar, insertLine_fParas]

theorem bytes_insertImage {d : PWDocument} (hne : d.fParas ≠ []) (offset : Nat) (b : Bitmap) (w h : Rat) :
    bytes (d.insertImage offset (some b) w h).fParas =
      insertAt (min offset (docLength d.fParas)) kObjectChar (bytes d.fParas) := by
  rw [insertImage_fParas, ← bytes_insertParas hne d.fDefault offset kObjectChar none]
  refine bytes_congr (forall₂_modify ?_ ?_ _ _)
  · exact fun _ => rfl
  · exact fun _ => rfl

theorem slots_insertImage {d : PWDocument} (hne : d.fParas ≠ []) (offset : Nat) (b : Bitmap) (w h : Rat) :
    slots (d.insertImage offset (some b) w h).fParas =
      insertAt (min offset (docLength d.fParas)) [some ⟨some b, w, h⟩, none, none] (slots d.fParas) := by
  have hins := slots_insertParas hne d.fDefault offset kObjectChar none
  have hL := length_slots d.fParas
  rw [← docLength_add_one hne] at hL
  rw [insertImage_fParas]
  unfold insertParas at hins ⊢
  generalize d.fParas = ps at hne hins hL ⊢
  obtain ⟨pre, p, post, k, rfl, hloc, hk, hmin⟩ := locate_spec hne offset
  rw [hloc] at hins ⊢
  dsimp only at hins ⊢
  rw [modify_mid] at hins ⊢
  rw [modify_mid, slots_setImage_mid _ _ _ _ (by
    show k ≤ (insertAt k kObjectChar p.text).length
    rw [length_insertAt]
    omega), hins, hmin]
  exact set_insertAt (by omega) _ _ _

/-- **`InsertImage` puts a marker into the board**, the image on its first byte. -/
theorem board_insertImage {d : PWDocument} (hne : d.fParas ≠ []) (offset : Nat) (b : Bitmap) (w h : Rat) :
    board (d.insertImage offset (some b) w h).fParas =
      insertAt (min offset (docLength d.fParas)) (markerSpots ⟨some b, w, h⟩) (board d.fParas) := by
  rw [board, bytes_insertImage hne, slots_insertImage hne, List.zip, zipWith_insertAt (length_bytes_slots d.fParas) rfl]
  rfl

theorem board_applyFormat {d d' : PWDocument} {offset length : Nat} {fmt : PWCharFormat}
    (h : d.applyFormat offset length fmt = some d') : board d'.fParas = board d.fParas := by
  unfold PWDocument.applyFormat at h
  split at h
  · cases h
    rfl
  · obtain ⟨runs, -, rfl⟩ := Option.map_eq_some_iff.1 h
    rw [pushUndo_fParas]
    exact board_congr (formatLoop_texts _ _ _ _ _ _)

end Writer
end Prose
