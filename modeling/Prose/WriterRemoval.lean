import Prose.WriterImages
/-!
# WriterRemoval — the images of a removed range

`Remove` cuts its range out of the slots (`slots_removeParas`) and saves the images of the range for `Undo`.  It keys a
saved image by the start of the paragraph it works in plus the offset there.  Behind the first separator of the range that
is less than the offset the image stood at, since the paragraphs in front of it are merged and cut down already
(`removeLoop_saved`).
-/
namespace Prose
namespace Writer

open Splice List

/-- Every image in `[a, b)` has a byte of text at or behind it there. -/
def Backed (ps : List Para) (a b : Nat) : Prop :=
  ∀ g img, a ≤ g → g < b → (slots ps)[g]? = some (some img) → ∃ h, g ≤ h ∧ h < b ∧ (marks ps)[h]? = some true

theorem Para.slots_eraseRest (dflt : PWCharFormat) (p : Para) {k : Nat} (hk : k ≤ p.text.length) :
    (p.eraseRest dflt k).slots = p.slots.take k ++ [p.images.get? (p.text.length : Int)] := by
  have hlast : p.slots.drop p.text.length = [p.images.get? (p.text.length : Int)] := by
    apply ext_getElem?
    intro j
    rw [getElem?_drop, Para.slots_getElem?]
    cases j with
    | zero => rw [Nat.add_zero, if_pos (Nat.le_refl _), getElem?_cons_zero]
    | succ j => rw [if_neg (by omega), getElem?_eq_none (by rw [length_singleton]; omega)]
  unfold Para.eraseRest
  split
  · rw [Para.slots_eraseText dflt p (by omega), cut, show k + (p.text.length - k) = p.text.length by omega, hlast]
  · rw [← hlast, show k = p.text.length by omega, take_append_drop]

theorem Para.Keyed.eraseRest {p : Para} (h : p.Keyed) (dflt : PWCharFormat) {k : Nat} (hk : k ≤ p.text.length) :
    (p.eraseRest dflt k).Keyed :=
  eraseRest_of h (fun _ h0 hk => paraInv_keyed.eraseText dflt h h0 hk) hk

section
variable {p next : Para} (dflt : PWCharFormat) {k : Nat} (hk : k ≤ p.text.length)
include hk

theorem slots_merged (hp : p.Keyed) (hn : next.Keyed) :
    ((p.eraseRest dflt k).mergeNext next).slots = p.slots.take k ++
      (next.images.get? ((0 : Nat) : Int)).or (p.images.get? (p.text.length : Int)) :: next.slots.tail := by
  have hlen := length_eraseRest dflt hk
  have hs := Para.slots_eraseRest dflt p hk
  have ht : (p.slots.take k).length = k := by rw [length_take, Para.length_slots]; omega
  have hend : (p.eraseRest dflt k).images.get? (k : Int) = p.images.get? (p.text.length : Int) := by
    have h1 := Para.slots_of_le (p := p.eraseRest dflt k) (j := k) (by omega)
    rw [hs, getElem?_append_right (by omega), ht, Nat.sub_self, getElem?_cons_zero] at h1
    exact (Option.some.inj h1).symm
  rw [(hp.eraseRest dflt hk).slots_mergeNext hn, hlen, hend, hs, take_left' ht]

/-- Behind the point of the removal the merged paragraph shows what stood behind the separator. -/
theorem slots_merged_behind (hp : p.Keyed) (hn : next.Keyed) (rest : List Para) {g : Nat} (hg : k < g) :
    (slots ((p.eraseRest dflt k).mergeNext next :: rest))[g]? =
      (slots (p :: next :: rest))[g + (p.text.length + 1 - k)]? := by
  have ht : (p.slots.take k).length = k := by rw [length_take, Para.length_slots]; omega
  obtain ⟨i, rfl⟩ : ∃ i, g = k + (i + 1) := ⟨g - k - 1, by omega⟩
  have hright : (slots (p :: next :: rest))[k + (i + 1) + (p.text.length + 1 - k)]? = (slots (next :: rest))[i + 1]? := by
    rw [slots_cons, getElem?_append_right (by rw [Para.length_slots]; omega), Para.length_slots]
    congr 1
    omega
  obtain ⟨x, l, hx⟩ : ∃ x l, next.slots = x :: l := exists_cons_of_length_pos (by rw [Para.length_slots]; omega)
  rw [hright, slots_cons, slots_merged dflt hk hp hn, append_assoc, getElem?_append_right (by omega), ht,
    Nat.add_sub_cancel_left, cons_append, getElem?_cons_succ, slots_cons, hx, tail_cons, cons_append,
    getElem?_cons_succ]

theorem slots_merged_at (hp : p.Keyed) (hn : next.Keyed) (rest : List Para) :
    (slots ((p.eraseRest dflt k).mergeNext next :: rest))[k]? =
      some ((next.images.get? ((0 : Nat) : Int)).or (p.images.get? (p.text.length : Int))) := by
  have ht : (p.slots.take k).length = k := by rw [length_take, Para.length_slots]; omega
  rw [slots_cons, slots_merged dflt hk hp hn, append_assoc, getElem?_append_right (by omega), ht, Nat.sub_self]
  rfl

theorem marks_merged (rest : List Para) {g : Nat} (hg : k ≤ g) :
    (marks ((p.eraseRest dflt k).mergeNext next :: rest))[g]? =
      (marks (p :: next :: rest))[g + (p.text.length + 1 - k)]? := by
  have hlen := merged_text_length dflt hk next
  have hright : (marks (p :: next :: rest))[g + (p.text.length + 1 - k)]? = (marks (next :: rest))[g - k]? := by
    rw [marks_cons, getElem?_append_right (by rw [Para.length_marks]; omega), Para.length_marks]
    congr 1
    omega
  rw [hright, marks_cons, marks_cons]
  by_cases hlt : g ≤ k + next.text.length
  · rw [getElem?_append_left (by rw [Para.length_marks, hlen]; omega),
      getElem?_append_left (by rw [Para.length_marks]; omega), Para.marks_getElem?, Para.marks_getElem?, hlen]
    exact ite_congr (by simp; omega) (fun _ => rfl) (fun _ => ite_congr (by simp; omega) (fun _ => rfl) (fun _ => rfl))
  rw [getElem?_append_right (by rw [Para.length_marks, hlen]; omega),
    getElem?_append_right (by rw [Para.length_marks]; omega), Para.length_marks, Para.length_marks, hlen]
  congr 1
  omega

end

theorem slots_first (p : Para) (rest : List Para) {g : Nat} (hg : g ≤ p.text.length) :
    (slots (p :: rest))[g]? = some (p.images.get? (g : Int)) := by
  rw [slots_cons, getElem?_append_left (by rw [Para.length_slots]; omega), Para.slots_of_le hg]

theorem slots_second (p next : Para) (rest : List Para) :
    (slots (p :: next :: rest))[p.text.length + 1]? = some (next.images.get? ((0 : Nat) : Int)) := by
  rw [slots_cons, getElem?_append_right (Nat.le_of_eq p.length_slots), Para.length_slots, Nat.sub_self,
    slots_first next rest (Nat.zero_le _)]

theorem marks_end (p : Para) (rest : List Para) : (marks (p :: rest))[p.text.length]? = some false := by
  rw [marks_cons, getElem?_append_left (by rw [Para.length_marks]; omega), Para.marks_getElem?, if_neg (by omega),
    if_pos rfl]

theorem Backed.merged {p next : Para} {rest : List Para} {k left : Nat} (dflt : PWCharFormat) (hk : k ≤ p.text.length)
    (hp : p.Keyed) (hn : next.Keyed) (hc : p.text.length < k + left)
    (h : Backed (p :: next :: rest) k (k + left)) :
    Backed ((p.eraseRest dflt k).mergeNext next :: rest) k (k + (left - (p.text.length - k + 1))) := by
  -- a byte behind the separator is one of the merged paragraphs
  have shift : ∀ {g₀ img}, k ≤ g₀ → p.text.length ≤ g₀ → g₀ < k + left →
      (slots (p :: next :: rest))[g₀]? = some (some img) → ∃ h, k ≤ h ∧ g₀ ≤ h + (p.text.length + 1 - k) ∧
        h < k + (left - (p.text.length - k + 1)) ∧
        (marks ((p.eraseRest dflt k).mergeNext next :: rest))[h]? = some true := by
    intro g₀ img h1 h2 h3 himg
    obtain ⟨h, h4, h5, h6⟩ := h g₀ img h1 h3 himg
    have hne : h ≠ p.text.length := by
      intro he
      rw [he, marks_end] at h6
      cases h6
    refine ⟨h - (p.text.length + 1 - k), by omega, by omega, by omega, ?_⟩
    rw [marks_merged dflt hk rest (by omega), show h - (p.text.length + 1 - k) + (p.text.length + 1 - k) = h by omega]
    exact h6
  intro g img h1 h2 himg
  by_cases hg : g = k
  · subst hg
    rw [slots_merged_at dflt hk hp hn rest, Option.some.injEq, Option.or_eq_some_iff] at himg
    rcases himg with hnext | ⟨-, hend⟩
    · obtain ⟨h, h3, -, h4, h5⟩ := shift (Nat.le_succ_of_le hk) (Nat.le_succ _) (by omega)
        ((slots_second p next rest).trans (congrArg some hnext))
      exact ⟨h, h3, h4, h5⟩
    · obtain ⟨h, h3, -, h4, h5⟩ := shift hk (Nat.le_refl _) hc
        ((slots_first p (next :: rest) (Nat.le_refl _)).trans (congrArg some hend))
      exact ⟨h, h3, h4, h5⟩
  · rw [slots_merged_behind dflt hk hp hn rest (by omega)] at himg
    obtain ⟨h, -, h3, h4, h5⟩ := shift (show k ≤ g + (p.text.length + 1 - k) by omega) (by omega) (by omega) himg
    exact ⟨h, by omega, h4, h5⟩

theorem drop_cons_congr {α : Type} {n : Nat} {x y : α} (l : List α) (h : n = 0 → x = y) :
    (x :: l).drop n = (y :: l).drop n := by
  cases n with
  | zero => rw [h rfl]
  | succ n => rfl

/-- **The loop of `Remove` cuts its range out of the slots**, when every image there has text at or behind it. -/
theorem slots_removeLoop (dflt : PWCharFormat) (base : Nat) {k : Nat} (rest : List Para) {p : Para} (left : Nat)
    (saved : ImageTable) (hp : p.Keyed) (hrest : ∀ q ∈ rest, q.Keyed) (hk : k ≤ p.text.length)
    (hleft : k + 1 + left ≤ byteSpan (p :: rest)) (hb : Backed (p :: rest) k (k + left)) :
    (removeLoop dflt base k rest p left saved).1.1.slots ++ slots (removeLoop dflt base k rest p left saved).1.2 =
      cut k (k + left) (slots (p :: rest)) := by
  induction rest, p, left, saved, hk using removeLoop_induct dflt base with
  | done rest p saved hk =>
    rw [removeLoop_done, Nat.add_zero, cut_self]
    rfl
  | within rest p left saved hk h0 hin =>
    rw [removeLoop_within dflt base h0 hin, Para.slots_eraseText dflt p hin, slots_cons, cut_append (by omega),
      show k - p.slots.length = 0 by rw [Para.length_slots]; omega,
      show k + left - p.slots.length = 0 by rw [Para.length_slots]; omega, cut_self]
  | crosses next rest p left saved hk hk' hc ih =>
    have hn := hrest next mem_cons_self
    have hb' := hb.merged dflt hk hp hn hc
    have hlen := merged_text_length dflt hk next
    have ht : (p.slots.take k).length = k := by rw [length_take, Para.length_slots]; omega
    rw [byteSpan_cons, byteSpan_cons] at hleft
    rw [removeLoop_crosses dflt base hk hc, ih (paraInv_keyed.mergeNext (hp.eraseRest dflt hk) hn)
      (fun q hq => hrest q (mem_cons_of_mem next hq)) (by rw [byteSpan_cons]; omega) hb', cut, cut,
      slots_cons, slots_merged dflt hk hp hn, append_assoc, take_append_of_le_length (by omega),
      take_of_length_le (by omega), drop_append, ht, drop_eq_nil_of_le (by omega), nil_append,
      Nat.add_sub_cancel_left, slots_cons, take_append_of_le_length (by rw [Para.length_slots]; omega)]
    congr 1
    obtain ⟨x, l, hx⟩ : ∃ x l, next.slots = x :: l :=
      exists_cons_of_length_pos (by rw [Para.length_slots]; omega)
    have hx0 : x = next.images.get? ((0 : Nat) : Int) := by
      have := Para.slots_of_le (p := next) (Nat.zero_le _)
      rw [hx] at this
      exact Option.some.inj this
    have hright : (p.slots ++ slots (next :: rest)).drop (k + left) =
        (slots (next :: rest)).drop (left - (p.text.length - k + 1)) := by
      rw [drop_append, drop_eq_nil_of_le (by rw [Para.length_slots]; omega), nil_append,
        Para.length_slots]
      congr 1
      omega
    rw [hright, slots_cons, hx, tail_cons, cons_append, cons_append]
    refine drop_cons_congr _ (fun hz => ?_)
    -- the range ends with the separator, which holds no image
    have hend : p.images.get? (p.text.length : Int) = none := by
      cases he : p.images.get? (p.text.length : Int) with
      | none => rfl
      | some img =>
        obtain ⟨h, h1, h2, h3⟩ := hb p.text.length img hk hc (by rw [slots_first p _ (Nat.le_refl _), he])
        rw [show h = p.text.length by omega, marks_end] at h3
        cases h3
    rw [hend, Option.or_none, hx0]
  | past p left saved hk hc =>
    rw [byteSpan_cons, byteSpan_nil] at hleft
    omega

theorem slots_behind (pre ps : List Para) (g : Nat) : (slots (pre ++ ps))[byteSpan pre + g]? = (slots ps)[g]? := by
  rw [slots_append, getElem?_append_right (by rw [length_slots]; omega), length_slots, Nat.add_sub_cancel_left]

theorem marks_behind (pre ps : List Para) (g : Nat) : (marks (pre ++ ps))[byteSpan pre + g]? = (marks ps)[g]? := by
  rw [marks_append, getElem?_append_right (by rw [length_marks]; omega), length_marks, Nat.add_sub_cancel_left]

theorem Backed.of_append {pre ps : List Para} {a b : Nat} (h : Backed (pre ++ ps) (byteSpan pre + a) (byteSpan pre + b)) :
    Backed ps a b := by
  intro g img h1 h2 himg
  obtain ⟨j, h3, h4, h5⟩ := h (byteSpan pre + g) img (by omega) (by omega) (by rw [slots_behind]; exact himg)
  obtain ⟨i, rfl⟩ : ∃ i, j = byteSpan pre + i := ⟨j - byteSpan pre, by omega⟩
  rw [marks_behind] at h5
  exact ⟨i, by omega, by omega, h5⟩

/-- **`Remove` cuts its range out of the slots**, when every image there has text at or behind it. -/
theorem slots_removeParas {ps : List Para} {offset length : Nat} (hne : ps ≠ []) (hk : ∀ p ∈ ps, p.Keyed)
    (dflt : PWCharFormat) (hr : offset + length ≤ docLength ps) (hb : Backed ps offset (offset + length)) :
    slots (removeParas dflt ps offset length).1 = cut offset (offset + length) (slots ps) := by
  obtain ⟨pre, p, post, k, rfl, hloc, hkp, hmin⟩ := locate_spec hne offset
  have hL := docLength_add_one hne
  rw [byteSpan_append] at hL
  have ho : offset = byteSpan pre + k := by omega
  rw [ho, Nat.add_assoc] at hb
  rw [removeParas, hloc]
  dsimp only
  rw [drop_mid, take_mid, paraStart_mid]
  dsimp only
  rw [slots_append, slots_cons, slots_removeLoop dflt (byteSpan pre) post length SortedMap.empty
    (hk p (by simp)) (fun q hq => hk q (by simp [hq])) hkp (by omega) hb.of_append, ho, Nat.add_assoc, ← length_slots pre, slots_append,
    cut_append_right]

/-! ## The saved images -/

/-- An image saved under the key `g` stood at `from'` in `[a, b)`: at its key before the first separator of the range, which
is `e`; behind that the key falls short. -/
structure SavedFrom (ps : List Para) (a b e : Nat) (base g : Int) (img : PWImage) (from' : Nat) : Prop where
  ge : a ≤ from'
  lt : from' < b
  image : (slots ps)[from']? = some (some img)
  key : base + a ≤ g
  before : from' < e → g = base + from'
  atEnd : from' = e → g = base + a
  behind : e < from' → g < base + from'
  text : ∃ h : Nat, a ≤ h ∧ g ≤ base + h ∧ h < b ∧ (marks ps)[h]? = some true

theorem saveImages_get {p : Para} {k take base : Nat} {saved : ImageTable} {g : Int} {img : PWImage} (hp : p.Keyed)
    (h : (p.saveImages k take base saved).get? g = some img) : saved.get? g = some img ∨
      ∃ g', k ≤ g' ∧ g' < k + take ∧ p.images.get? (g' : Int) = some img ∧ g = base + g' := by
  rcases SortedMap.get?_put_cases h with ⟨k₀, h1, h2⟩ | h
  · have := hp k₀ img h1
    split at h2
    · cases h2
    split at h2
    · cases h2
    · have := Option.some.inj h2
      exact Or.inr ⟨k₀.toNat, by omega, by omega, by rw [show ((k₀.toNat : Nat) : Int) = k₀ by omega]; exact h1, by omega⟩
  · exact Or.inl h

theorem saveImages_within {p : Para} {rest : List Para} {k left take base : Nat} {saved : ImageTable} {g : Int}
    {img : PWImage} (hp : p.Keyed) (ht : take ≤ left) (hk : k + take ≤ p.text.length)
    (h : (p.saveImages k take base saved).get? g = some img) :
    saved.get? g = some img ∨ ∃ g', SavedFrom (p :: rest) k (k + left) p.text.length base g img g' := by
  rcases saveImages_get hp h with h | ⟨g', h1, h2, h3, h4⟩
  · exact Or.inl h
  · refine Or.inr ⟨g', h1, by omega, by rw [slots_first p rest (by omega), h3], by omega, fun _ => h4, by omega, by omega,
      g', h1, by omega, by omega, ?_⟩
    rw [marks_cons, getElem?_append_left (by rw [Para.length_marks]; omega), Para.marks_getElem?, if_pos (by omega)]

/-- **Every image the loop saves stood in its range**, at its key or behind it. -/
theorem removeLoop_saved (dflt : PWCharFormat) (base : Nat) {k : Nat} {g : Int} {img : PWImage} (rest : List Para)
    {p : Para} {left : Nat} {saved : ImageTable} (hp : p.Keyed) (hrest : ∀ q ∈ rest, q.Keyed) (hk : k ≤ p.text.length)
    (hleft : k + 1 + left ≤ byteSpan (p :: rest)) (h : (removeLoop dflt base k rest p left saved).2.get? g = some img) :
    saved.get? g = some img ∨ ∃ g', SavedFrom (p :: rest) k (k + left) p.text.length base g img g' := by
  induction rest, p, left, saved, hk using removeLoop_induct dflt base with
  | done rest p saved hk =>
    rw [removeLoop_done] at h
    exact Or.inl h
  | within rest p left saved hk h0 hin =>
    rw [removeLoop_within dflt base h0 hin] at h
    exact saveImages_within hp (Nat.le_refl _) hin h
  | crosses next rest p left saved hk hk' hc ih =>
    have hn := hrest next mem_cons_self
    have hlen := merged_text_length dflt hk next
    rw [byteSpan_cons, byteSpan_cons] at hleft
    rw [removeLoop_crosses dflt base hk hc] at h
    rcases ih (paraInv_keyed.mergeNext (hp.eraseRest dflt hk) hn) (fun q hq => hrest q (mem_cons_of_mem next hq))
      (by rw [byteSpan_cons]; omega) h with h | ⟨g', h1, h2, h3, h4, h5, h6, h7, j, h8, hj, h9, h10⟩
    · unfold Para.saveRest at h
      split at h
      · exact saveImages_within hp (by omega) (by omega) h
      · exact Or.inl h
    · refine Or.inr ?_
      rw [marks_merged dflt hk rest h8] at h10
      have htext : ∃ h : Nat, k ≤ h ∧ g ≤ base + h ∧ h < k + left ∧ (marks (p :: next :: rest))[h]? = some true :=
        ⟨j + (p.text.length + 1 - k), by omega, by omega, by omega, h10⟩
      by_cases hg : g' = k
      · subst hg
        rw [slots_merged_at dflt hk hp hn rest, Option.some.injEq, Option.or_eq_some_iff] at h3
        rcases h3 with hnext | ⟨-, hend⟩
        · exact ⟨p.text.length + 1, by omega, by omega, (slots_second p next rest).trans (congrArg some hnext), h4,
            by omega, by omega, by omega, htext⟩
        · exact ⟨p.text.length, hk, hc, (slots_first p (next :: rest) (Nat.le_refl _)).trans (congrArg some hend), h4,
            by omega, by omega, by omega, htext⟩
      · rw [slots_merged_behind dflt hk hp hn rest (by omega)] at h3
        exact ⟨g' + (p.text.length + 1 - k), by omega, by omega, h3, h4, by omega, by omega, by omega, htext⟩
  | past p left saved hk hc =>
    rw [byteSpan_cons, byteSpan_nil] at hleft
    omega

theorem removeLoop_saved_none (dflt : PWCharFormat) (base : Nat) {k : Nat} (rest : List Para) {p : Para} {left : Nat}
    (saved : ImageTable) (hp : p.Keyed) (hrest : ∀ q ∈ rest, q.Keyed) (hk : k ≤ p.text.length)
    (hleft : k + 1 + left ≤ byteSpan (p :: rest))
    (h : ∀ g img, k ≤ g → g < k + left → (slots (p :: rest))[g]? ≠ some (some img)) :
    (removeLoop dflt base k rest p left saved).2 = saved := by
  have hole : ∀ {p : Para} (rest : List Para) {take : Nat} (saved : ImageTable), p.Keyed → k + take ≤ p.text.length →
      (∀ g img, k ≤ g → g < k + take → (slots (p :: rest))[g]? ≠ some (some img)) →
      p.saveImages k take base saved = saved := by
    intro p rest take saved hp ht h
    refine SortedMap.put_eq_self (fun k₀ v hv => ?_)
    have := hp k₀ v hv
    by_cases h1 : k₀ < k
    · rw [if_pos h1]
    rw [if_neg h1]
    by_cases h2 : k₀ ≥ k + take
    · rw [if_pos h2]
    · refine absurd ?_ (h k₀.toNat v (by omega) (by omega))
      rw [slots_first p rest (by omega), show ((k₀.toNat : Nat) : Int) = k₀ by omega, hv]
  induction rest, p, left, saved, hk using removeLoop_induct dflt base with
  | done rest p saved hk => rw [removeLoop_done]
  | within rest p left saved hk h0 hin =>
    rw [removeLoop_within dflt base h0 hin]
    exact hole rest saved hp hin h
  | crosses next rest p left saved hk hk' hc ih =>
    have hn := hrest next mem_cons_self
    have hlen := merged_text_length dflt hk next
    rw [byteSpan_cons, byteSpan_cons] at hleft
    have hsave : p.saveRest k base saved = saved := by
      unfold Para.saveRest
      split
      · exact hole (next :: rest) saved hp (by omega) (fun g img h1 h2 => h g img h1 (by omega))
      · rfl
    rw [hsave] at ih
    rw [removeLoop_crosses dflt base hk hc, hsave]
    refine ih (paraInv_keyed.mergeNext (hp.eraseRest dflt hk) hn) (fun q hq => hrest q (mem_cons_of_mem next hq))
      (by rw [byteSpan_cons]; omega) (fun g img h1 h2 himg => ?_)
    by_cases hg : g = k
    · subst hg
      rw [slots_merged_at dflt hk hp hn rest, Option.some.injEq, Option.or_eq_some_iff] at himg
      rcases himg with hnext | ⟨-, hend⟩
      · exact h (p.text.length + 1) img (by omega) (by omega) ((slots_second p next rest).trans (congrArg some hnext))
      · exact h p.text.length img hk hc ((slots_first p (next :: rest) (Nat.le_refl _)).trans (congrArg some hend))
    · rw [slots_merged_behind dflt hk hp hn rest (by omega)] at himg
      exact h (g + (p.text.length + 1 - k)) img (by omega) (by omega) himg
  | past p left saved hk hc =>
    rw [byteSpan_cons, byteSpan_nil] at hleft
    omega

theorem saveImages_hole {p : Para} {k take base g : Nat} {saved : ImageTable} {img : PWImage} (h1 : k ≤ g)
    (h2 : g < k + take) (himg : p.images.get? (g : Int) = some img) :
    (p.saveImages k take base saved).get? ((base + g : Nat) : Int) = some img := by
  unfold Para.saveImages
  rw [SortedMap.get?_put (g : Int), himg, Option.some_or]
  · rw [if_neg (by omega), if_neg (by omega)]
    rfl
  · intro k₁ h
    split at h
    · cases h
    split at h
    · cases h
    · have := Option.some.inj h
      omega

/-- An image in front of the first separator is saved under its offset, if none behind it is saved over it. -/
theorem removeLoop_saved_hole (dflt : PWCharFormat) (base : Nat) {k g left : Nat} {p : Para} {rest : List Para}
    {saved : ImageTable} {img : PWImage} (hp : p.Keyed) (hrest : ∀ q ∈ rest, q.Keyed) (hk : k ≤ p.text.length)
    (hleft : k + 1 + left ≤ byteSpan (p :: rest)) (h1 : k ≤ g) (h2 : g < p.text.length) (h3 : g < k + left)
    (himg : (slots (p :: rest))[g]? = some (some img))
    (hbehind : ∀ h v, p.text.length ≤ h → h < k + left → (slots (p :: rest))[h]? ≠ some (some v)) :
    (removeLoop dflt base k rest p left saved).2.get? ((base + g : Nat) : Int) = some img := by
  rw [slots_first p rest (by omega), Option.some.injEq] at himg
  by_cases hc : p.text.length < k + left
  · cases rest with
    | nil =>
      rw [byteSpan_cons, byteSpan_nil] at hleft
      omega
    | cons next rest =>
      have hn := hrest next mem_cons_self
      have hlen := merged_text_length dflt hk next
      rw [byteSpan_cons, byteSpan_cons] at hleft
      have hsave : (p.saveRest k base saved).get? ((base + g : Nat) : Int) = some img := by
        unfold Para.saveRest
        rw [if_pos (by omega)]
        exact saveImages_hole h1 (by omega) himg
      rw [removeLoop_crosses dflt base hk hc, removeLoop_saved_none dflt base rest _
        (paraInv_keyed.mergeNext (hp.eraseRest dflt hk) hn) (fun q hq => hrest q (mem_cons_of_mem next hq))
        (by omega) (by rw [byteSpan_cons]; omega)]
      · exact hsave
      · intro h v h4 h5 hv
        by_cases hh : h = k
        · subst hh
          rw [slots_merged_at dflt hk hp hn rest, Option.some.injEq, Option.or_eq_some_iff] at hv
          rcases hv with hnext | ⟨-, hend⟩
          · exact hbehind (p.text.length + 1) v (by omega) (by omega)
              ((slots_second p next rest).trans (congrArg some hnext))
          · exact hbehind p.text.length v (Nat.le_refl _) hc
              ((slots_first p (next :: rest) (Nat.le_refl _)).trans (congrArg some hend))
        · rw [slots_merged_behind dflt hk hp hn rest (by omega)] at hv
          exact hbehind (h + (p.text.length + 1 - k)) v (by omega) (by omega) hv
  · rw [removeLoop_within dflt base (by omega) (by omega)]
    exact saveImages_hole h1 h3 himg

/-- The only image of the range, where the range starts, is saved under its offset if the range holds text. -/
theorem removeLoop_saved_first (dflt : PWCharFormat) (base : Nat) {k : Nat} {img : PWImage} : ∀ (rest : List Para)
    {p : Para} {left : Nat} {saved : ImageTable}, p.Keyed → (∀ q ∈ rest, q.Keyed) → k ≤ p.text.length →
    k + 1 + left ≤ byteSpan (p :: rest) → (slots (p :: rest))[k]? = some (some img) →
    (∀ h v, k < h → h < k + left → (slots (p :: rest))[h]? ≠ some (some v)) →
    (∃ h, k ≤ h ∧ h < k + left ∧ (marks (p :: rest))[h]? = some true) →
    (removeLoop dflt base k rest p left saved).2.get? ((base + k : Nat) : Int) = some img := by
  intro rest
  induction rest with
  | nil =>
    intro p left saved hp hrest hk hleft himg hbehind htext
    rw [byteSpan_cons, byteSpan_nil] at hleft
    obtain ⟨h, h1, h2, -⟩ := htext
    exact removeLoop_saved_hole dflt base hp hrest hk (by rw [byteSpan_cons, byteSpan_nil]; exact hleft) (Nat.le_refl k)
      (by omega) (by omega) himg (fun g v h3 h4 => hbehind g v (by omega) h4)
  | cons next rest ih =>
    intro p left saved hp hrest hk hleft himg hbehind htext
    by_cases hlt : k < p.text.length
    · obtain ⟨h, h1, h2, -⟩ := htext
      exact removeLoop_saved_hole dflt base hp hrest hk hleft (Nat.le_refl k) hlt (by omega) himg
        (fun g v h3 h4 => hbehind g v (by omega) h4)
    -- the range starts with the separator: the image moves on into the paragraph merged in
    · obtain ⟨h, h1, h2, h3⟩ := htext
      have he : k = p.text.length := by omega
      have hne : h ≠ p.text.length := by
        intro hh
        rw [hh, marks_end] at h3
        cases h3
      have hn := hrest next mem_cons_self
      have hlen := merged_text_length dflt hk next
      rw [byteSpan_cons, byteSpan_cons] at hleft
      rw [removeLoop_crosses dflt base hk (by omega)]
      refine ih (paraInv_keyed.mergeNext (hp.eraseRest dflt hk) hn) (fun q hq => hrest q (mem_cons_of_mem next hq))
        (by omega) (by rw [byteSpan_cons]; omega) ?_ (fun g v h4 h5 hv => ?_)
        ⟨h - (p.text.length + 1 - k), by omega, by omega, ?_⟩
      · have hnext : next.images.get? ((0 : Nat) : Int) = none := by
          cases hv : next.images.get? ((0 : Nat) : Int) with
          | none => rfl
          | some v =>
            exact absurd ((slots_second p next rest).trans (congrArg some hv)) (hbehind _ v (by omega) (by omega))
        rw [he, slots_first p (next :: rest) (Nat.le_refl _), Option.some.injEq] at himg
        rw [slots_merged_at dflt hk hp hn rest, hnext, Option.none_or, himg]
      · rw [slots_merged_behind dflt hk hp hn rest h4] at hv
        exact hbehind (g + (p.text.length + 1 - k)) v (by omega) (by omega) hv
      · rw [marks_merged dflt hk rest (by omega),
          show h - (p.text.length + 1 - k) + (p.text.length + 1 - k) = h by omega]
        exact h3

theorem SavedFrom.of_append {pre ps : List Para} {a b e from' : Nat} {g : Int} {img : PWImage}
    (h : SavedFrom ps a b e (byteSpan pre) g img from') :
    SavedFrom (pre ++ ps) (byteSpan pre + a) (byteSpan pre + b) (byteSpan pre + e) 0 g img (byteSpan pre + from') := by
  obtain ⟨h1, h2, h3, h4, h5, h6, h7, j, h8, hj, h9, h10⟩ := h
  refine ⟨by omega, by omega, ?_, by omega, by omega, by omega, by omega, byteSpan pre + j, by omega, by omega, by omega, ?_⟩
  · rw [slots_behind]
    exact h3
  · rw [marks_behind]
    exact h10

/-- What `Remove` saves of the images in its range, whose first separator, or else the end of whose paragraph, is `e`. -/
structure SavedImages (ps : List Para) (a b e : Nat) (saved : ImageTable) : Prop where
  ge : a ≤ e
  text : ∀ h, a ≤ h → h < e → (marks ps)[h]? = some true
  stop : (marks ps)[e]? = some false
  sound : ∀ g img, saved.get? g = some img → ∃ from', SavedFrom ps a b e 0 g img from'
  hole : ∀ g img, a ≤ g → g < e → g < b → (slots ps)[g]? = some (some img) →
    (∀ h v, e ≤ h → h < b → (slots ps)[h]? ≠ some (some v)) → saved.get? (g : Int) = some img
  first : ∀ img, (slots ps)[a]? = some (some img) → (∀ h v, a < h → h < b → (slots ps)[h]? ≠ some (some v)) →
    (∃ h, a ≤ h ∧ h < b ∧ (marks ps)[h]? = some true) → saved.get? (a : Int) = some img

/-- **What `Remove` saves.** -/
theorem savedImages_removeParas {ps : List Para} {offset length : Nat} (hne : ps ≠ []) (hk : ∀ p ∈ ps, p.Keyed)
    (dflt : PWCharFormat) (hr : offset + length ≤ docLength ps) :
    ∃ e, SavedImages ps offset (offset + length) e (removeParas dflt ps offset length).2 := by
  obtain ⟨pre, p, post, k, rfl, hloc, hkp, hmin⟩ := locate_spec hne offset
  have hL := docLength_add_one hne
  rw [byteSpan_append] at hL
  have hsaved : (removeParas dflt (pre ++ p :: post) offset length).2 =
      (removeLoop dflt (byteSpan pre) k post p length SortedMap.empty).2 := by
    rw [removeParas, hloc]
    dsimp only
    rw [drop_mid, paraStart_mid]
  have hp : p.Keyed := hk p (by simp)
  have hpost : ∀ q ∈ post, q.Keyed := fun q hq => hk q (by simp [hq])
  have hleft : k + 1 + length ≤ byteSpan (p :: post) := by omega
  obtain rfl : offset = byteSpan pre + k := by omega
  rw [hsaved]
  refine ⟨byteSpan pre + p.text.length, by omega, fun h h1 h2 => ?_, ?_, fun g img h => ?_, fun g img h1 h2 h3 himg hb => ?_,
    fun img himg hb htext => ?_⟩
  · rw [show h = byteSpan pre + (h - byteSpan pre) by omega, marks_behind, marks_cons,
      getElem?_append_left (by rw [Para.length_marks]; omega), Para.marks_getElem?, if_pos (by omega)]
  · rw [marks_behind, marks_end]
  · rcases removeLoop_saved dflt (byteSpan pre) post hp hpost hkp hleft h with h | ⟨g', h⟩
    · cases h
    · rw [Nat.add_assoc]
      exact ⟨byteSpan pre + g', h.of_append⟩
  · obtain ⟨j, rfl⟩ : ∃ j, g = byteSpan pre + j := ⟨g - byteSpan pre, by omega⟩
    rw [slots_behind] at himg
    refine removeLoop_saved_hole dflt (byteSpan pre) hp hpost hkp hleft (by omega) (by omega) (by omega) himg ?_
    intro h v h4 h5 hv
    exact hb (byteSpan pre + h) v (by omega) (by omega) (by rw [slots_behind]; exact hv)
  · rw [slots_behind] at himg
    refine removeLoop_saved_first dflt (byteSpan pre) post hp hpost hkp hleft himg ?_ ?_
    · intro h v h4 h5 hv
      exact hb (byteSpan pre + h) v (by omega) (by omega) (by rw [slots_behind]; exact hv)
    · obtain ⟨h, h1, h2, h3⟩ := htext
      obtain ⟨j, rfl⟩ : ∃ j, h = byteSpan pre + j := ⟨h - byteSpan pre, by omega⟩
      exact ⟨j, by omega, by omega, by rw [← marks_behind pre]; exact h3⟩

end Writer
end Prose
