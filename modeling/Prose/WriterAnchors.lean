import Prose.Ledger
import Prose.WriterBoard
/-!
# WriterAnchors — images stay with their markers

Edits at character boundaries splice the board of the document and never come between the three bytes of a marker.  The
ledger of a run follows every byte ever put in, with its image: an image whose first byte is still there stands there
once, the other two bytes of its marker right behind it (`images_anchored`).
-/
namespace Prose
namespace Writer

open Splice List

def Para.Anchored (p : Para) : Prop :=
  ∀ k v, p.images.get? k = some v → ∃ n : Nat, k = n ∧ kObjectChar <+: p.text.drop n

/-- The bytes from `g` on begin with a marker. -/
def MarkerAt (bs : List Byte) (g : Nat) : Prop := ∀ j < 3, bs[g + j]? = kObjectChar[j]?

def OnMarkers (ps : List Para) : Prop := ∀ g img, (slots ps)[g]? = some (some img) → MarkerAt (bytes ps) g

theorem markerAt_iff {bs : List Byte} {g : Nat} : MarkerAt bs g ↔ kObjectChar <+: bs.drop g := by
  rw [prefix_iff_getElem?]
  constructor
  · intro h j hj
    rw [getElem?_drop, h j hj, getElem?_eq_getElem hj]
  · intro h j hj
    have := h j hj
    rw [getElem?_drop] at this
    rw [this, getElem?_eq_getElem hj]

theorem prefix_of_prefix_newline {xs l r : List Byte} (hn : newline ∉ xs) (h : xs <+: l ++ newline :: r) : xs <+: l := by
  rcases prefix_or_prefix_of_prefix h (prefix_append l (newline :: r)) with h' | ⟨t, rfl⟩
  · exact h'
  cases t with
  | nil => exact (append_nil l).symm ▸ prefix_refl l
  | cons c t =>
    obtain ⟨s, hs⟩ := h
    rw [append_assoc, append_cancel_left_eq, cons_append, List.cons.injEq] at hs
    exact absurd (mem_append_right l (hs.1 ▸ mem_cons_self)) hn

theorem Para.Anchored.keyed {p : Para} (h : p.Anchored) : p.Keyed := fun k v hk => by
  obtain ⟨n, rfl, hm⟩ := h k v hk
  have := hm.length_le
  have : kObjectChar.length = 3 := rfl
  rw [length_drop] at *
  omega

theorem anchored_iff : ∀ {ps : List Para}, (∀ p ∈ ps, p.Anchored) ↔ (∀ p ∈ ps, p.Keyed) ∧ OnMarkers ps := by
  intro ps
  constructor
  · intro h
    refine ⟨fun p hp => (h p hp).keyed, ?_⟩
    induction ps with
    | nil => exact fun g img hg => by cases hg
    | cons p ps ih =>
      intro g img hg
      rw [markerAt_iff, bytes_cons]
      by_cases hgl : g ≤ p.text.length
      · rw [slots_cons, getElem?_append_left (by rw [Para.length_slots]; omega), Para.slots_of_le hgl,
          Option.some.injEq] at hg
        obtain ⟨n, hn, hm⟩ := h p mem_cons_self _ _ hg
        obtain rfl : g = n := by omega
        rw [Para.bytes, append_assoc, drop_append_of_le_length hgl]
        exact hm.trans (prefix_append _ _)
      · rw [slots_cons, getElem?_append_right (by rw [Para.length_slots]; omega), Para.length_slots] at hg
        have := ih (fun q hq => h q (mem_cons_of_mem p hq)) _ img hg
        rw [drop_append, drop_eq_nil_of_le (by rw [Para.length_bytes]; omega), nil_append,
          Para.length_bytes]
        exact markerAt_iff.1 this
  · rintro ⟨hk, hon⟩ p hp k v hkv
    obtain ⟨pre, post, rfl⟩ := append_of_mem hp
    have hkey := hk p hp k v hkv
    obtain ⟨n, rfl⟩ : ∃ n : Nat, k = n := ⟨k.toNat, by omega⟩
    have hn : n ≤ p.text.length := by omega
    have hslot : (slots (pre ++ p :: post))[byteSpan pre + n]? = some (some v) := by
      rw [slots_append, getElem?_append_right (by rw [length_slots]; omega), length_slots, Nat.add_sub_cancel_left,
        slots_cons, getElem?_append_left (by rw [Para.length_slots]; omega), Para.slots_of_le hn, hkv]
    have hm := markerAt_iff.1 (hon _ _ hslot)
    rw [bytes_append, ← length_bytes, drop_length_add_append, bytes_cons, Para.bytes, append_assoc,
      drop_append_of_le_length hn] at hm
    exact ⟨n, rfl, prefix_of_prefix_newline (by decide) hm⟩

/-- A character of UTF-8 begins at the offset: the byte there is no continuation byte. -/
def CharBoundary (ps : List Para) (offset : Nat) : Prop :=
  ∀ b, (plainText ps)[offset]? = some b → b.val &&& 0xC0 ≠ 0x80

instance (ps : List Para) (offset : Nat) : Decidable (CharBoundary ps offset) :=
  decidable_of_iff ((plainText ps)[offset]?.all (fun b => decide (b.val &&& 0xC0 ≠ 0x80)) = true) (by
    unfold CharBoundary
    cases (plainText ps)[offset]? <;> simp)

theorem CharBoundary.bytes {ps : List Para} (hne : ps ≠ []) {offset : Nat} (h : CharBoundary ps offset) {b : Byte}
    (hb : (bytes ps)[min offset (docLength ps)]? = some b) : b.val &&& 0xC0 ≠ 0x80 := by
  have hlen := length_bytes ps
  rw [← docLength_add_one hne, bytes_eq hne, length_append, length_singleton] at hlen
  rw [bytes_eq hne] at hb
  by_cases ho : offset < docLength ps
  · rw [Nat.min_eq_left (by omega), getElem?_append_left (by omega)] at hb
    exact h b hb
  rw [Nat.min_eq_right (by omega), getElem?_append_right (by omega),
    show docLength ps - (plainText ps).length = 0 by omega, getElem?_cons_zero, Option.some.injEq] at hb
  rw [← hb]
  decide

/-! ## The ledger of a run -/

/-- The images of the ledger that are still in the document have the bytes of their marker with them. -/
def Whole (L : Ledger Spot) : Prop :=
  ∀ q x img, L.labels[q]? = some x → (L.history[x]?).bind Prod.snd = some img →
    ∀ j < 3, L.labels[q + j]? = some (x + j) ∧ (L.history[x + j]?).map Prod.fst = kObjectChar[j]?

def SpotsOnMarkers (xs : List Spot) : Prop :=
  ∀ k img, (xs[k]?).bind Prod.snd = some img → ∀ j < 3, (xs[k + j]?).map Prod.fst = kObjectChar[j]?

/-- The byte at position `i` begins a character. -/
def CharStart (L : Ledger Spot) (i : Nat) : Prop :=
  ∀ x spot, L.labels[i]? = some x → L.history[x]? = some spot → spot.1.val &&& 0xC0 ≠ 0x80

theorem spotsOnMarkers_plain (t : List Byte) : SpotsOnMarkers (plainSpots t) := by
  intro k img h
  rw [plainSpots, getElem?_map] at h
  cases ht : t[k]? with
  | none => rw [ht] at h; cases h
  | some b => rw [ht] at h; cases h

theorem spotsOnMarkers_marker (img : PWImage) : SpotsOnMarkers (markerSpots img) := by
  intro k v h
  match k, h with
  | 0, _ =>
    intro j hj
    match j, hj with
    | 0, _ => rfl
    | 1, _ => rfl
    | 2, _ => rfl
  | 1, h => cases h
  | 2, h => cases h

theorem kObjectChar_continues : ∀ j, 0 < j → j < 3 → ∀ b, kObjectChar[j]? = some b → b.val &&& 0xC0 = 0x80
  | 1, _, _, _, h => by
    cases h
    rfl
  | 2, _, _, _, h => by
    cases h
    rfl

theorem Whole.outside {L : Ledger Spot} (h : Whole L) {i q x : Nat} {img : PWImage} (hi : CharStart L i)
    (hq : L.labels[q]? = some x) (hx : (L.history[x]?).bind Prod.snd = some img) : i ≤ q ∨ q + 3 ≤ i := by
  by_contra hc
  obtain ⟨j, rfl, h1, h2⟩ : ∃ j, i = q + j ∧ 0 < j ∧ j < 3 := ⟨i - q, by omega, by omega, by omega⟩
  obtain ⟨h3, h4⟩ := h q x img hq hx j h2
  cases hs : L.history[x + j]? with
  | none =>
    rw [hs] at h4
    rw [getElem?_eq_getElem (show j < kObjectChar.length from h2)] at h4
    cases h4
  | some spot =>
    rw [hs] at h4
    exact hi _ _ h3 hs (kObjectChar_continues j h1 h2 _ h4.symm)

theorem Whole.put {L : Ledger Spot} (h : Whole L) {i : Nat} (hi : i ≤ L.labels.length) (hc : CharStart L i)
    {xs : List Spot} (hxs : SpotsOnMarkers xs) : Whole (L.put i xs) := by
  have hget : ∀ q, (L.put i xs).labels[q]? = if q < i then L.labels[q]? else
      if q < i + xs.length then some (L.history.length + (q - i)) else L.labels[q - xs.length]? := fun q => by
    show (insertAt i _ L.labels)[q]? = _
    rw [insertAt_getElem? hi, length_range']
    by_cases h1 : q < i
    · rw [if_pos h1, if_pos h1]
    rw [if_neg h1, if_neg h1]
    by_cases h2 : q < i + xs.length
    · rw [if_pos h2, if_pos h2, getElem?_range' (by omega), Nat.one_mul]
    · rw [if_neg h2, if_neg h2]
  have hold : ∀ x, x < L.history.length → (L.put i xs).history[x]? = L.history[x]? := fun x hx =>
    getElem?_append_left hx
  have hnew : ∀ k, (L.put i xs).history[L.history.length + k]? = xs[k]? := fun k =>
    (getElem?_append_right (Nat.le_add_right _ _)).trans (by rw [Nat.add_sub_cancel_left])
  -- an image of the old list, at position `q` there and `q'` now
  have old : ∀ q x img, L.labels[q]? = some x → ((L.put i xs).history[x]?).bind Prod.snd = some img →
      (i ≤ q ∨ q + 3 ≤ i) ∧ ∀ j < 3, L.labels[q + j]? = some (x + j) ∧
        ((L.put i xs).history[x + j]?).map Prod.fst = kObjectChar[j]? := by
    intro q x img hq hx
    have hlt : ∀ {q x : Nat}, L.labels[q]? = some x → x < L.history.length := fun hq => L.lt _ (mem_of_getElem? hq)
    rw [hold x (hlt hq)] at hx
    refine ⟨h.outside hc hq hx, fun j hj => ?_⟩
    obtain ⟨h1, h2⟩ := h q x img hq hx j hj
    exact ⟨h1, by rw [hold _ (hlt h1)]; exact h2⟩
  intro q x img hq hx j hj
  rw [hget] at hq ⊢
  by_cases h1 : q < i
  · rw [if_pos h1] at hq
    obtain ⟨hout, hall⟩ := old q x img hq hx
    rw [if_pos (by omega)]
    exact hall j hj
  rw [if_neg h1] at hq
  by_cases h2 : q < i + xs.length
  · rw [if_pos h2, Option.some.injEq] at hq
    subst hq
    rw [hnew] at hx
    have hm := hxs _ _ hx j hj
    have hlt : q - i + j < xs.length := by
      by_contra hge
      rw [getElem?_eq_none (by omega), getElem?_eq_getElem (show j < kObjectChar.length from hj)] at hm
      cases hm
    rw [if_neg (by omega), if_pos (by omega), Nat.add_assoc, hnew, hm]
    exact ⟨congrArg some (by omega), rfl⟩
  · rw [if_neg h2] at hq
    obtain ⟨-, hall⟩ := old _ x img hq hx
    rw [if_neg (by omega), if_neg (by omega), show q + j - xs.length = q - xs.length + j by omega]
    exact hall j hj

theorem Whole.drop {L : Ledger Spot} (h : Whole L) {i : Nat} (hi : i ≤ L.labels.length) (hc : CharStart L i) (n : Nat) :
    Whole (L.drop i n) := by
  have hget : ∀ q, (L.drop i n).labels[q]? = if q < i then L.labels[q]? else L.labels[q + n]? := fun q => by
    show (cut i (i + n) L.labels)[q]? = _
    rw [cut_getElem? (by omega) hi, Nat.add_sub_cancel_left]
  intro q x img hq hx j hj
  rw [hget] at hq ⊢
  by_cases h1 : q < i
  · rw [if_pos h1] at hq
    have hout := h.outside hc hq hx
    rw [if_pos (by omega)]
    exact h q x img hq hx j hj
  · rw [if_neg h1] at hq
    rw [if_neg (by omega), show q + j + n = q + n + j by omega]
    exact h _ x img hq hx j hj

/-! ## Runs -/

/-- The edits with their offsets at character boundaries; where a range ends does not matter. -/
def Edit.AtChars (d : PWDocument) : Edit → Prop
  | .insert offset _ _ => CharBoundary d.fParas offset
  | .remove offset _ => CharBoundary d.fParas offset
  | .splitPara offset => CharBoundary d.fParas offset
  | .applyFormat _ _ _ => True
  | .insertImage offset _ _ _ => CharBoundary d.fParas offset
  | _ => False

/-- What an edit does to the list of bytes, whatever the paragraphs. -/
def Edit.onLedger (L : Ledger Spot) : Edit → Ledger Spot
  | .insert offset t _ => L.put (min offset (L.labels.length - 1)) (plainSpots t)
  | .remove offset length =>
    if offset < L.labels.length - 1 then L.drop offset (min length (L.labels.length - 1 - offset)) else L
  | .splitPara offset => L.put (min offset (L.labels.length - 1)) (plainSpots [newline])
  | .insertImage offset (some b) w h => L.put (min offset (L.labels.length - 1)) (markerSpots ⟨some b, w, h⟩)
  | _ => L

def ledgerOf (d : PWDocument) (es : List Edit) : Ledger Spot := es.foldl Edit.onLedger (Ledger.start (board d.fParas))

/-- The label is in the range of a `Remove` of the run. -/
def RemovedBy (L : Ledger Spot) : List Edit → Nat → Prop
  | [], _      => False
  | e :: es, x => (∃ offset length, e = .remove offset length ∧ x ∈ (L.labels.drop offset).take length) ∨
      RemovedBy (e.onLedger L) es x

structure Follows (d : PWDocument) (L : Ledger Spot) : Prop where
  ne_nil : d.fParas ≠ []
  keyed : ∀ p ∈ d.fParas, p.Keyed
  reads : L.read = (board d.fParas).map some
  whole : Whole L

section
variable {d : PWDocument} {L : Ledger Spot} (h : Follows d L)
include h

theorem Follows.length : L.labels.length = docLength d.fParas + 1 := by
  rw [← Ledger.length_read, h.reads, length_map, length_board, docLength_add_one h.ne_nil]

theorem Follows.board_iff {q : Nat} {spot : Spot} :
    (board d.fParas)[q]? = some spot ↔ ∃ x, L.labels[q]? = some x ∧ L.history[x]? = some spot := by
  have hq := congrArg (·[q]?) h.reads
  rw [Ledger.read, getElem?_map, getElem?_map] at hq
  constructor
  · intro hs
    rw [hs, Option.map_some] at hq
    obtain ⟨x, hx, hxs⟩ := Option.map_eq_some_iff.1 hq
    exact ⟨x, hx, hxs⟩
  · rintro ⟨x, hx, hxs⟩
    rw [hx, Option.map_some, hxs] at hq
    obtain ⟨s, hs, he⟩ := Option.map_eq_some_iff.1 hq.symm
    cases he
    exact hs

theorem Follows.charStart {offset : Nat} (hc : CharBoundary d.fParas offset) :
    CharStart L (min offset (docLength d.fParas)) := by
  intro x spot hx hs
  have hb := h.board_iff.2 ⟨x, hx, hs⟩
  refine hc.bytes h.ne_nil ?_
  rw [← map_fst_board, getElem?_map, hb]
  rfl

theorem Follows.onMarkers : OnMarkers d.fParas := by
  intro g img hg
  rw [← map_snd_board, getElem?_map] at hg
  obtain ⟨spot, hspot, himg⟩ := Option.map_eq_some_iff.1 hg
  obtain ⟨x, hx, hxs⟩ := h.board_iff.1 hspot
  intro j hj
  obtain ⟨h1, h2⟩ := h.whole g x img hx (by rw [hxs]; exact himg) j hj
  rw [← map_fst_board, getElem?_map]
  cases hs : L.history[x + j]? with
  | none =>
    rw [hs, getElem?_eq_getElem (show j < kObjectChar.length from hj)] at h2
    cases h2
  | some spot =>
    rw [h.board_iff.2 ⟨_, h1, hs⟩]
    rw [hs] at h2
    exact h2

theorem Follows.put {d' : PWDocument} {offset : Nat} {xs : List Spot} (hk : ∀ p ∈ d'.fParas, p.Keyed)
    (hc : CharBoundary d.fParas offset) (hxs : SpotsOnMarkers xs)
    (hb : board d'.fParas = insertAt (min offset (docLength d.fParas)) xs (board d.fParas)) :
    Follows d' (L.put (min offset (L.labels.length - 1)) xs) := by
  have hlen := h.length
  rw [hlen, Nat.add_sub_cancel]
  refine ⟨(board_grown h.ne_nil hb).1, hk, ?_, h.whole.put (by omega) (h.charStart hc) hxs⟩
  rw [Ledger.read_put, h.reads, hb, map_insertAt]

end

theorem Follows.drop {d d' : PWDocument} {L : Ledger Spot} (h : Follows d L) {offset n : Nat} (hne : d'.fParas ≠ [])
    (hk : ∀ p ∈ d'.fParas, p.Keyed) (ho : offset < docLength d.fParas) (hc : CharBoundary d.fParas offset)
    (hb : board d'.fParas = cut offset (offset + n) (board d.fParas)) : Follows d' (L.drop offset n) := by
  have hlen := h.length
  have hstart := h.charStart hc
  rw [Nat.min_eq_left (by omega)] at hstart
  exact ⟨hne, hk, by rw [Ledger.read_drop, h.reads, hb, map_cut], h.whole.drop (by omega) hstart n⟩

theorem marks_of_bytes : ∀ {ps : List Para} {g : Nat} {b : Byte}, (bytes ps)[g]? = some b → b ≠ newline →
    (marks ps)[g]? = some true
  | p :: ps, g, b, h, hn => by
    rw [bytes_cons, Para.bytes, append_assoc] at h
    rw [marks_cons, Para.marks, append_assoc]
    rcases Nat.lt_trichotomy g p.text.length with hlt | rfl | hgt
    · rw [getElem?_append_left (by rw [length_replicate]; exact hlt), getElem?_replicate, if_pos hlt]
    · rw [getElem?_append_right (Nat.le_refl _), Nat.sub_self] at h
      cases h
      exact absurd rfl hn
    · obtain ⟨i, rfl⟩ : ∃ i, g = p.text.length + (i + 1) := ⟨g - p.text.length - 1, by omega⟩
      rw [getElem?_append_right (Nat.le_add_right _ _), Nat.add_sub_cancel_left] at h
      rw [getElem?_append_right (by rw [length_replicate]; exact Nat.le_add_right _ _), length_replicate,
        Nat.add_sub_cancel_left]
      exact @marks_of_bytes ps _ _ h hn

theorem OnMarkers.backed {ps : List Para} (h : OnMarkers ps) (a b : Nat) : Backed ps a b := by
  intro g img h1 h2 hg
  exact ⟨g, Nat.le_refl g, h2, marks_of_bytes (h g img hg 0 (by decide)) (by decide)⟩

/-- **An edit at character boundaries does to the document what it does to the ledger.** -/
theorem Follows.edit {d d' : PWDocument} {L : Ledger Spot} (h : Follows d L) {e : Edit} (he : e.AtChars d)
    (hd : d.edit e = some d') : Follows d' (e.onLedger L) := by
  have hk : ∀ p ∈ d'.fParas, p.Keyed := paraInv_keyed.evolves (edit_edits hd).evolves h.keyed
  have hne : d'.fParas ≠ [] := (edit_edits hd).evolves.ne_nil h.ne_nil
  have hlen := h.length
  cases e with
  | insert offset t fmt =>
    cases hd
    exact h.put hk he (spotsOnMarkers_plain t) (board_insert h.ne_nil offset t fmt)
  | remove offset length =>
    cases hd
    unfold Edit.onLedger
    dsimp only
    rw [hlen, Nat.add_sub_cancel]
    by_cases ho : offset < docLength d.fParas
    · rw [if_pos ho]
      by_cases h0 : length = 0
      · have hsame : d.remove offset length = d := if_pos (Or.inl h0)
        rw [hsame, h0, Nat.zero_min]
        exact h.drop h.ne_nil h.keyed ho he (by rw [Nat.add_zero, cut_self])
      obtain ⟨hc0, hcr⟩ := clipLength_pos (Nat.pos_of_ne_zero h0) ho
      have hclip : min length (docLength d.fParas - offset) = clipLength d.fParas offset length := by
        unfold clipLength
        split <;> omega
      have hps := remove_fParas (Nat.pos_of_ne_zero h0) ho
      rw [hclip]
      refine h.drop hne hk ho he ?_
      rw [hps, board_removeParas h.ne_nil h.keyed d.fDefault hcr (h.onMarkers.backed _ _)]
    · have hsame : d.remove offset length = d := if_pos (Or.inr (Nat.le_of_not_lt ho))
      rw [if_neg ho, hsame]
      exact h
  | splitPara offset =>
    cases hd
    refine h.put hk he (spotsOnMarkers_plain [newline]) ?_
    rw [splitPara_fParas, board_splitParas h.ne_nil]
  | applyFormat offset length fmt =>
    exact ⟨hne, hk, by rw [board_applyFormat hd]; exact h.reads, h.whole⟩
  | insertImage offset bitmap w h' =>
    cases hd
    cases bitmap with
    | none => exact h
    | some b => exact h.put hk he (spotsOnMarkers_marker _) (board_insertImage h.ne_nil offset b w h')
  | _ => exact he.elim

theorem follows_start {d : PWDocument} (hne : d.fParas ≠ []) (h : ∀ p ∈ d.fParas, p.Anchored) :
    Follows d (Ledger.start (board d.fParas)) := by
  obtain ⟨hk, hon⟩ := anchored_iff.1 h
  refine ⟨hne, hk, Ledger.read_start _, ?_⟩
  intro q x img hq hx j hj
  obtain ⟨hqx, -⟩ := List.getElem?_eq_some_iff.1 hq
  have hx' : x = q := by
    have := getElem?_range (n := (board d.fParas).length) (by simpa [Ledger.start] using hqx)
    exact Option.some.inj (hq.symm.trans this)
  subst hx'
  obtain ⟨spot, hs, himg⟩ := Option.bind_eq_some_iff.1 hx
  have hslot : (slots d.fParas)[x]? = some (some img) := by
    rw [← map_snd_board, getElem?_map]
    exact (congrArg _ hs).trans (congrArg some himg)
  have hm := hon x img hslot j hj
  rw [← map_fst_board, getElem?_map] at hm
  refine ⟨?_, hm⟩
  cases hb : (board d.fParas)[x + j]? with
  | none =>
    rw [hb, getElem?_eq_getElem (show j < kObjectChar.length from hj)] at hm
    cases hm
  | some spot => exact getElem?_range (List.getElem?_eq_some_iff.1 hb).1

theorem Follows.run {d d' : PWDocument} {es : List Edit} (hr : EditRun Edit.AtChars d es d') : ∀ {L : Ledger Spot},
    Follows d L → Follows d' (es.foldl Edit.onLedger L) := by
  induction hr with
  | nil d => exact fun h => h
  | cons he hd _ ih => exact fun h => ih (h.edit he hd)

theorem mem_onLedger {L : Ledger Spot} {x : Nat} (h : x ∈ L.labels) (e : Edit) : x ∈ (e.onLedger L).labels ∨
    ∃ offset length, e = .remove offset length ∧ x ∈ (L.labels.drop offset).take length := by
  have put : ∀ (i : Nat) (xs : List Spot), x ∈ (L.put i xs).labels := fun i xs =>
    Ledger.mem_insertAt.2 (Or.inr h)
  cases e with
  | insert offset t fmt => exact Or.inl (put _ _)
  | remove offset length =>
    unfold Edit.onLedger
    dsimp only
    split
    · rcases Ledger.mem_drop (i := offset) (n := min length (L.labels.length - 1 - offset)) h with hm | hm
      · exact Or.inl hm
      · exact Or.inr ⟨offset, length, rfl, (take_sublist_take_left (Nat.min_le_left _ _)).subset hm⟩
    · exact Or.inl h
  | splitPara offset => exact Or.inl (put _ _)
  | insertImage offset bitmap w h' =>
    cases bitmap with
    | none => exact Or.inl h
    | some b => exact Or.inl (put _ _)
  | _ => exact Or.inl h

theorem mem_foldl_onLedger : ∀ (es : List Edit) {L : Ledger Spot} {x : Nat}, x ∈ L.labels →
    x ∈ (es.foldl Edit.onLedger L).labels ∨ RemovedBy L es x
  | [], _, _, h => Or.inl h
  | e :: es, L, x, h => by
    rcases mem_onLedger h e with h | h
    · rcases mem_foldl_onLedger es h with h | h
      · exact Or.inl h
      · exact Or.inr (Or.inr h)
    · exact Or.inr (Or.inl h)

/-- **Images are anchored**: after any run of edits at character boundaries every image stands on a marker of its paragraph's
text.  The ledger of the run lists the document; an image that was in it at some time and not in a range removed since then
stands in it at one place, on the marker it came with. -/
theorem images_anchored {d d' : PWDocument} {es : List Edit} (hne : d.fParas ≠ []) (h : ∀ p ∈ d.fParas, p.Anchored)
    (hrun : EditRun Edit.AtChars d es d') :
    (∀ p ∈ d'.fParas, p.Anchored) ∧ (ledgerOf d es).read = (board d'.fParas).map some ∧
      ∀ es₁ es₂, es = es₁ ++ es₂ → ∀ x ∈ (ledgerOf d es₁).labels, ¬ RemovedBy (ledgerOf d es₁) es₂ x →
        ∀ img, ((ledgerOf d es).history[x]?).bind Prod.snd = some img →
          ∃ q, (∀ q', (ledgerOf d es).labels[q']? = some x ↔ q' = q) ∧ d'.imageAt q = some img ∧
            ∀ j < 3, (ledgerOf d es).labels[q + j]? = some (x + j) := by
  have hend : Follows d' (ledgerOf d es) := Follows.run hrun (follows_start hne h)
  refine ⟨anchored_iff.2 ⟨hend.keyed, hend.onMarkers⟩, hend.reads, fun es₁ es₂ hes x hx hkeep img himg => ?_⟩
  have hmem : x ∈ (ledgerOf d es).labels := by
    have hsplit : ledgerOf d es = es₂.foldl Edit.onLedger (ledgerOf d es₁) := by
      rw [ledgerOf, hes, foldl_append]
      rfl
    rw [hsplit]
    exact (mem_foldl_onLedger es₂ hx).resolve_right hkeep
  generalize ledgerOf d es = L at hend hmem himg
  obtain ⟨q, hq⟩ := mem_iff_getElem?.1 hmem
  refine ⟨q, fun q' => ⟨fun hq' => ?_, fun hq' => hq' ▸ hq⟩, ?_, fun j hj => (hend.whole q x img hq himg j hj).1⟩
  · exact (getElem?_inj (List.getElem?_eq_some_iff.1 hq').1 L.nodup).1 (hq'.trans hq.symm)
  · obtain ⟨spot, hs, hsi⟩ := Option.bind_eq_some_iff.1 himg
    have hb := hend.board_iff.2 ⟨x, hq, hs⟩
    have hlen := (List.getElem?_eq_some_iff.1 hb).1
    rw [length_board, ← docLength_add_one hend.ne_nil] at hlen
    have hslot := imageAt_of_le hend.ne_nil (show q ≤ docLength d'.fParas by omega)
    rw [← map_snd_board, getElem?_map, hb, Option.map_some, Option.some.injEq] at hslot
    rw [← hslot, hsi]

/-- An image in a second paragraph, a letter put in front of it, the separator removed. -/
def movedImage : List Edit :=
  [.insertImage 0 (some ⟨1, 1, [0, 0, 0, 255]⟩) 12 12, .insert 0 [byteA] none, .splitPara 1, .remove 1 1]

theorem images_anchored_movedImage : ∃ d', EditRun Edit.AtChars (PWDocument.new noFamily) movedImage d' ∧
    (∀ p ∈ d'.fParas, p.Anchored) ∧ d'.imageAt 1 = some ⟨some ⟨1, 1, [0, 0, 0, 255]⟩, 12, 12⟩ := by
  have hrun : EditRun Edit.AtChars (PWDocument.new noFamily) movedImage _ :=
    .cons (show CharBoundary _ 0 by decide) rfl (.cons (show CharBoundary _ 0 by decide) rfl
      (.cons (show CharBoundary _ 1 by decide) rfl (.cons (show CharBoundary _ 1 by decide) rfl (.nil _))))
  have hempty : ∀ p ∈ (PWDocument.new noFamily).fParas, p.Anchored := fun p hp => by
    cases mem_singleton.1 hp
    exact fun k v hk => by cases hk
  exact ⟨_, hrun, (images_anchored (cons_ne_nil _ _) hempty hrun).1, by decide⟩

end Writer
end Prose
