import Prose.WriterInvariants
/-!
# WriterImages — the images as one list of slots

`slots ps` lists the image of every offset of the document, if there is one, so that the image at offset `o` is the slot `o`.
The edits splice the slots the way they splice the cells: `Insert` and `SplitPara` put empty slots in, `Remove` cuts its range
out, provided every image of the range has a byte of text at or behind it in the range.
-/
namespace Prose
namespace Writer

open Splice List

def Para.slots (p : Para) : List (Option PWImage) :=
  (List.range (p.text.length + 1)).map (fun k : Nat => p.images.get? (k : Int))

def slots (ps : List Para) : List (Option PWImage) := ps.flatMap Para.slots

/-- Whether there is a byte of text at each offset of a paragraph: not at its end. -/
def Para.marks (p : Para) : List Bool := List.replicate p.text.length true ++ [false]

def marks (ps : List Para) : List Bool := ps.flatMap Para.marks

@[simp] theorem slots_nil : slots [] = [] := rfl

@[simp] theorem slots_cons (p : Para) (ps : List Para) : slots (p :: ps) = p.slots ++ slots ps := rfl

@[simp] theorem slots_append (ps qs : List Para) : slots (ps ++ qs) = slots ps ++ slots qs := flatMap_append

@[simp] theorem marks_cons (p : Para) (ps : List Para) : marks (p :: ps) = p.marks ++ marks ps := rfl

@[simp] theorem marks_append (ps qs : List Para) : marks (ps ++ qs) = marks ps ++ marks qs := flatMap_append

@[simp] theorem Para.length_slots (p : Para) : p.slots.length = p.text.length + 1 := by simp [Para.slots]

@[simp] theorem Para.length_marks (p : Para) : p.marks.length = p.text.length + 1 := by simp [Para.marks]

theorem length_slots : ∀ ps : List Para, (slots ps).length = byteSpan ps
  | [] => rfl
  | p :: ps => by rw [slots_cons, length_append, Para.length_slots, length_slots ps, byteSpan_cons]

theorem length_marks : ∀ ps : List Para, (marks ps).length = byteSpan ps
  | [] => rfl
  | p :: ps => by rw [marks_cons, length_append, Para.length_marks, length_marks ps, byteSpan_cons]

theorem Para.slots_getElem? (p : Para) (k : Nat) :
    p.slots[k]? = if k ≤ p.text.length then some (p.images.get? (k : Int)) else none := by
  unfold Para.slots
  rw [getElem?_map]
  by_cases hk : k ≤ p.text.length
  · rw [if_pos hk, getElem?_range (by omega), Option.map_some]
  · rw [if_neg hk, getElem?_eq_none (by rw [length_range]; omega), Option.map_none]

theorem Para.marks_getElem? (p : Para) (k : Nat) :
    p.marks[k]? = if k < p.text.length then some true else if k = p.text.length then some false else none := by
  unfold Para.marks
  by_cases hk : k < p.text.length
  · rw [getElem?_append_left (by rw [length_replicate]; exact hk), getElem?_replicate, if_pos hk, if_pos hk]
  rw [getElem?_append_right (by rw [length_replicate]; omega), length_replicate, if_neg hk]
  by_cases he : k = p.text.length
  · rw [if_pos he, he, Nat.sub_self]
    rfl
  · rw [if_neg he, getElem?_eq_none (by rw [length_singleton]; omega)]

theorem PWDocument.imageAt_eq {d : PWDocument} (hne : d.fParas ≠ []) (offset : Nat) :
    d.imageAt offset = ((slots d.fParas)[min offset (docLength d.fParas)]?).join := by
  unfold PWDocument.imageAt
  obtain ⟨pre, p, post, k, hps, hloc, hk, hmin⟩ := locate_spec hne offset
  rw [hloc, ← hmin, hps, paraAt_mid, slots_append, slots_cons, ← length_slots pre,
    getElem?_append_right (Nat.le_add_right _ _), Nat.add_sub_cancel_left,
    getElem?_append_left (by rw [Para.length_slots]; omega), Para.slots_getElem?, if_pos hk]
  rfl

theorem imageAt_of_le {d : PWDocument} (hne : d.fParas ≠ []) {g : Nat} (hg : g ≤ docLength d.fParas) :
    (slots d.fParas)[g]? = some (d.imageAt g) := by
  have hL := docLength_add_one hne
  have hlen := length_slots d.fParas
  rw [PWDocument.imageAt_eq hne, Nat.min_eq_left hg, getElem?_eq_getElem (by omega)]
  rfl

/-! ## One paragraph at a time -/

theorem Para.slots_eq {p : Para} {l : List (Option PWImage)} (hlen : l.length = p.text.length + 1)
    (h : ∀ j, j ≤ p.text.length → l[j]? = some (p.images.get? (j : Int))) : p.slots = l := by
  apply ext_getElem?
  intro j
  rw [Para.slots_getElem?]
  by_cases hj : j ≤ p.text.length
  · rw [if_pos hj, h j hj]
  · rw [if_neg hj, getElem?_eq_none (by omega)]

theorem Para.slots_of_le {p : Para} {j : Nat} (hj : j ≤ p.text.length) : p.slots[j]? = some (p.images.get? (j : Int)) := by
  rw [Para.slots_getElem?, if_pos hj]

theorem Para.slots_insertText (dflt f : PWCharFormat) (p : Para) {k : Nat} (hk : k ≤ p.text.length) (t : List Byte) :
    (p.insertText dflt k t f).slots = insertAt k (List.replicate t.length none) p.slots := by
  have hlen : (p.insertText dflt k t f).text.length = p.text.length + t.length := length_insertAt k t p.text
  refine Para.slots_eq (by rw [length_insertAt, Para.length_slots, length_replicate, hlen]; omega) (fun j hj => ?_)
  rw [insertAt_getElem? (by rw [Para.length_slots]; omega), length_replicate]
  by_cases h1 : j < k
  · rw [if_pos h1, Para.slots_of_le (by omega)]
    refine congrArg some (SortedMap.get?_put_empty (j : Int) ?_ (fun k₁ h => ?_)).symm
    · rw [if_neg (by omega)]
    · have := Option.some.inj h
      split at this <;> omega
  rw [if_neg h1]
  by_cases h2 : j < k + t.length
  · rw [if_pos h2, getElem?_replicate, if_pos (by omega)]
    refine congrArg some (SortedMap.get?_put_empty_none (fun k₀ h => ?_)).symm
    have := Option.some.inj h
    split at this <;> omega
  rw [if_neg h2, Para.slots_of_le (by omega)]
  refine congrArg some (SortedMap.get?_put_empty ((j - t.length : Nat) : Int) ?_ (fun k₁ h => ?_)).symm
  · rw [if_pos (by omega)]
    congr 1
    omega
  · have := Option.some.inj h
    split at this <;> omega

theorem Para.slots_eraseText (dflt : PWCharFormat) (p : Para) {k take : Nat} (hk : k + take ≤ p.text.length) :
    (p.eraseText dflt k take).slots = cut k (k + take) p.slots := by
  have hlen : (p.eraseText dflt k take).text.length = p.text.length - take := by
    show (cut k (k + take) p.text).length = _
    rw [length_cut (by omega) hk, Nat.add_sub_cancel_left]
  refine Para.slots_eq (by rw [length_cut (by omega) (by rw [Para.length_slots]; omega), Para.length_slots, hlen]; omega)
    (fun j hj => ?_)
  rw [cut_getElem? (by omega) (by rw [Para.length_slots]; omega), Nat.add_sub_cancel_left]
  by_cases h1 : j < k
  · rw [if_pos h1, Para.slots_of_le (by omega)]
    refine congrArg some (SortedMap.get?_put_empty (j : Int) ?_ (fun k₁ h => ?_)).symm
    · rw [if_pos (by omega)]
    · split at h
      · exact Option.some.inj h
      split at h
      · have := Option.some.inj h
        omega
      · cases h
  · rw [if_neg h1, Para.slots_of_le (by omega)]
    refine congrArg some (SortedMap.get?_put_empty ((j + take : Nat) : Int) ?_ (fun k₁ h => ?_)).symm
    · rw [if_neg (by omega), if_pos (by omega)]
      congr 1
      omega
    · split at h
      · have := Option.some.inj h
        omega
      split at h
      · have := Option.some.inj h
        omega
      · cases h

theorem Para.slots_splitHead (dflt : PWCharFormat) (p : Para) {k : Nat} (hk : k ≤ p.text.length) :
    (p.splitHead dflt k).slots = p.slots.take k ++ [none] := by
  have hlen : (p.splitHead dflt k).text.length = k := by
    show (p.text.take k).length = k
    rw [length_take, Nat.min_eq_left hk]
  have ht : (p.slots.take k).length = k := by rw [length_take, Para.length_slots]; omega
  refine Para.slots_eq (by rw [length_append, ht, hlen]; rfl) (fun j hj => ?_)
  have hget := SortedMap.get?_filter (fun i => decide (i < (k : Int))) p.images (j : Int)
  by_cases h1 : j < k
  · rw [getElem?_append_left (by omega), getElem?_take_of_lt h1, Para.slots_of_le (by omega)]
    rw [if_pos (decide_eq_true (by omega))] at hget
    exact congrArg some hget.symm
  · rw [getElem?_append_right (by omega), ht, show j - k = 0 by omega]
    rw [if_neg (by rw [decide_eq_true_eq]; omega)] at hget
    exact congrArg some hget.symm

theorem Para.slots_splitTail (dflt : PWCharFormat) (p : Para) {k : Nat} (id : Nat) (hk : k ≤ p.text.length) :
    (p.splitTail dflt k id).slots = p.slots.drop k := by
  have hlen : (p.splitTail dflt k id).text.length = p.text.length - k := length_drop
  refine Para.slots_eq (by rw [length_drop, Para.length_slots, hlen]; omega) (fun j hj => ?_)
  rw [getElem?_drop, Para.slots_of_le (by omega)]
  refine congrArg some (SortedMap.get?_put_empty ((k + j : Nat) : Int) ?_ (fun k₁ h => ?_)).symm
  · rw [if_pos (by omega)]
    congr 1
    omega
  · split at h
    · have := Option.some.inj h
      omega
    · cases h

/-- The image right behind a text gives way to one in front of the paragraph merged in. -/
theorem Para.Keyed.slots_mergeNext {p q : Para} (hp : p.Keyed) (hq : q.Keyed) :
    (p.mergeNext q).slots = p.slots.take p.text.length ++
      (q.images.get? ((0 : Nat) : Int)).or (p.images.get? (p.text.length : Int)) :: q.slots.tail := by
  have ht : (p.slots.take p.text.length).length = p.text.length := by
    rw [length_take, Para.length_slots]
    omega
  have hlen : (p.mergeNext q).text.length = p.text.length + q.text.length := length_append
  refine Para.slots_eq (by
    rw [length_append, ht, length_cons, length_tail, Para.length_slots, hlen]; omega) (fun j hj => ?_)
  have hput : (p.mergeNext q).images.get? (j : Int) = (q.images.get? ((j : Int) - p.text.length)).or (p.images.get? j) := by
    refine SortedMap.get?_put ((j : Int) - p.text.length) (congrArg some (by omega)) (fun k₁ h => ?_)
    have := Option.some.inj h
    omega
  rw [hput]
  by_cases h1 : j < p.text.length
  · have hneg : q.images.get? ((j : Int) - p.text.length) = none := by
      cases h : q.images.get? ((j : Int) - p.text.length) with
      | none => rfl
      | some v =>
        have := hq _ v h
        omega
    rw [getElem?_append_left (by omega), getElem?_take_of_lt h1, Para.slots_of_le (by omega), hneg,
      Option.none_or]
  · rw [getElem?_append_right (by omega), ht]
    by_cases h2 : j = p.text.length
    · subst h2
      rw [Nat.sub_self, getElem?_cons_zero, Int.sub_self]
      rfl
    obtain ⟨i, rfl⟩ : ∃ i, j = p.text.length + 1 + i := ⟨j - (p.text.length + 1), by omega⟩
    have hp' : p.images.get? ((p.text.length + 1 + i : Nat) : Int) = none := by
      cases h : p.images.get? ((p.text.length + 1 + i : Nat) : Int) with
      | none => rfl
      | some v =>
        have := hp _ v h
        omega
    rw [show p.text.length + 1 + i - p.text.length = i + 1 by omega, getElem?_cons_succ, getElem?_tail,
      Para.slots_of_le (by omega), hp', Option.or_none]
    congr 2
    omega

/-! ## The whole document -/

theorem slots_insertParas {ps : List Para} (hne : ps ≠ []) (dflt : PWCharFormat) (offset : Nat) (t : List Byte)
    (fmt : Option PWCharFormat) :
    slots (insertParas dflt ps offset t fmt) =
      insertAt (min offset (docLength ps)) (List.replicate t.length none) (slots ps) := by
  obtain ⟨pre, p, post, k, rfl, hloc, hk, hmin⟩ := locate_spec hne offset
  rw [insertParas, hloc, modify_mid, slots_append, slots_cons, Para.slots_insertText _ _ _ hk, slots_append, slots_cons,
    ← hmin, ← length_slots pre, insertAt_append_right, insertAt_append_left (by rw [Para.length_slots]; omega)]

theorem slots_splitParas {ps : List Para} (hne : ps ≠ []) (dflt : PWCharFormat) (offset id : Nat) :
    slots (splitParas dflt ps offset id) = insertAt (min offset (docLength ps)) [none] (slots ps) := by
  obtain ⟨pre, p, post, k, rfl, hloc, hk, hmin⟩ := locate_spec hne offset
  rw [splitParas, hloc, drop_mid, take_mid]
  dsimp only
  rw [slots_append, slots_cons, slots_cons, Para.slots_splitHead _ _ hk, Para.slots_splitTail _ _ _ hk, slots_append,
    slots_cons, ← hmin, ← length_slots pre, insertAt_append_right,
    insertAt_append_left (by rw [Para.length_slots]; omega)]
  simp only [insertAt, append_assoc]

theorem slots_congr {ps ps' : List Para} (h : List.Forall₂ (fun p q => q.text = p.text ∧ q.images = p.images) ps ps') :
    slots ps' = slots ps := by
  induction h with
  | nil => rfl
  | @cons p q ps ps' hpq _ ih =>
    obtain ⟨h1, h2⟩ := hpq
    rw [slots_cons, slots_cons, ih, Para.slots, Para.slots, h1, h2]

theorem formatLoop_texts (dflt fmt : PWCharFormat) (fuel : Nat) (ps : List Para) (at' stop : Nat) :
    List.Forall₂ (fun p q => q.text = p.text ∧ q.images = p.images) ps (formatLoop dflt fmt fuel ps at' stop) :=
  forall₂_formatLoop (fun _ => ⟨rfl, rfl⟩) (fun _ _ _ h h' => ⟨h'.1.trans h.1, h'.2.trans h.2⟩) dflt fmt
    (fun _ _ _ _ => ⟨rfl, rfl⟩) fuel ps at' stop

theorem slots_setFormatParas (ps : List Para) (para : Nat) (F : PWParaFormat) :
    slots (setFormatParas ps para F) = slots ps :=
  slots_congr (forall₂_modify (fun _ => ⟨rfl, rfl⟩) (fun _ => ⟨rfl, rfl⟩) ps para)

theorem Para.slots_setImage (p : Para) {k : Nat} (img : PWImage) (hk : k ≤ p.text.length) :
    Para.slots { p with images := p.images.set k img, revision := p.revision + 1 } = p.slots.set k (some img) := by
  refine Para.slots_eq (by rw [length_set, Para.length_slots]) (fun j hj => ?_)
  have hget := SortedMap.get?_set p.images (k : Int) (j : Int) img
  by_cases h : j = k
  · subst h
    rw [if_pos rfl] at hget
    rw [getElem?_set_self (by rw [Para.length_slots]; omega)]
    exact congrArg some hget.symm
  · rw [if_neg (by omega)] at hget
    rw [getElem?_set_ne (by omega), Para.slots_of_le (show j ≤ p.text.length from hj)]
    exact congrArg some hget.symm

theorem slots_setImage_mid (pre : List Para) (p : Para) (post : List Para) {k : Nat} (img : PWImage)
    (hk : k ≤ p.text.length) :
    slots (pre ++ { p with images := p.images.set k img, revision := p.revision + 1 } :: post) =
      (slots (pre ++ p :: post)).set (byteSpan pre + k) (some img) := by
  rw [slots_append, slots_cons, Para.slots_setImage p img hk, slots_append, slots_cons, ← length_slots pre,
    set_append_right _ _ (Nat.le_add_right _ _), Nat.add_sub_cancel_left,
    set_append_left _ _ (by rw [Para.length_slots]; omega)]

theorem slots_placeImage {ps : List Para} (hne : ps ≠ []) (offset : Nat) (img : PWImage) :
    slots (placeImage ps offset img) = (slots ps).set (min offset (docLength ps)) (some img) := by
  obtain ⟨pre, p, post, k, rfl, hloc, hk, hmin⟩ := locate_spec hne offset
  have h := slots_setImage_mid pre p post img hk
  rw [placeImage, hloc, modify_mid, h, hmin]

theorem byteSpan_modify {f : Para → Para} (hf : ∀ p, (f p).text = p.text) : ∀ (ps : List Para) (i : Nat),
    byteSpan (ps.modify i f) = byteSpan ps
  | [], i => by cases i <;> rfl
  | p :: ps, 0 => by
    rw [modify_zero_cons, byteSpan_cons, byteSpan_cons, hf]
  | p :: ps, i + 1 => by
    rw [modify_succ_cons, byteSpan_cons, byteSpan_cons, byteSpan_modify hf ps i]

/-- **The images of a step stand where their keys say.** -/
theorem slots_placeImages {ps : List Para} (hne : ps ≠ []) (images : ImageTable)
    (hk : ∀ g v, images.get? g = some v → 0 ≤ g ∧ g ≤ docLength ps) (j : Nat) :
    (slots (placeImages images ps))[j]? = ((slots ps)[j]?).map ((images.get? (j : Int)).or ·) := by
  have key : ∀ (l : List (Int × PWImage)) {ps : List Para}, ps ≠ [] → l.Pairwise (fun a b => a.1 < b.1) →
      (∀ e ∈ l, 0 ≤ e.1 ∧ e.1 ≤ docLength ps) →
      (slots (l.foldl (fun ps e => placeImage ps e.1.toNat e.2) ps))[j]? =
        ((slots ps)[j]?).map (((l.find? (fun e => decide (e.1 = (j : Int)))).map Prod.snd).or ·) := by
    intro l
    induction l with
    | nil =>
      intro ps _ _ _
      rw [foldl_nil, find?_nil, Option.map_none]
      cases (slots ps)[j]? <;> rfl
    | cons e l ih =>
      intro ps hne hs hb
      obtain ⟨h1, h2⟩ := hb e mem_cons_self
      have hL : docLength (placeImage ps e.1.toNat e.2) = docLength ps := by
        rw [placeImage, docLength, byteSpan_modify (fun _ => by rfl)]
        rfl
      have hne' : placeImage ps e.1.toNat e.2 ≠ [] := by
        intro hn
        have := congrArg List.length hn
        rw [placeImage, length_modify] at this
        exact hne (length_eq_zero_iff.1 this)
      have hlt : e.1.toNat < (slots ps).length := by
        have := docLength_add_one hne
        rw [length_slots]
        omega
      rw [foldl_cons, ih hne' hs.of_cons (fun x hx => by rw [hL]; exact hb x (mem_cons_of_mem e hx)),
        slots_placeImage hne, Nat.min_eq_left (by omega), find?_cons]
      by_cases he : e.1 = (j : Int)
      · have hn : l.find? (fun e => decide (e.1 = (j : Int))) = none := by
          rw [find?_eq_none]
          intro x hx
          have := rel_of_pairwise_cons hs hx
          simp only [decide_eq_true_eq]
          omega
        rw [decide_eq_true he, hn, show e.1.toNat = j by omega, getElem?_set_self (by omega),
          getElem?_eq_getElem (by omega)]
        rfl
      · rw [decide_eq_false he, getElem?_set_ne (by omega)]
  rw [placeImages, key images.entries hne images.sorted (fun e he => hk e.1 e.2 (SortedMap.get?_eq_some.2 he))]
  rfl

end Writer
end Prose
