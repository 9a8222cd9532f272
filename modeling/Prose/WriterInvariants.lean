import Prose.WriterEvolve
/-!
# WriterInvariants — what holds in every reachable document

A predicate of a paragraph that every operation on a paragraph keeps (`ParaInv`) holds of all paragraphs of every reachable
document: the runs tile the text, the text has no newline, the image keys lie in the text.  The ids of the paragraphs are
distinct and never come back, and a paragraph with its old id and revision is the old paragraph.
-/
namespace Prose
namespace Writer

open Splice List
open Relation (ReflTransGen)

/-! ## One paragraph at a time -/

structure ParaInv (P : Para → Prop) : Prop where
  insertText : ∀ {p : Para} {k : Nat} {t : List Byte} (dflt f : PWCharFormat), P p → k ≤ p.text.length → t ≠ [] →
    newline ∉ t → P (p.insertText dflt k t f)
  eraseText : ∀ {p : Para} {k take : Nat} (dflt : PWCharFormat), P p → 0 < take → k + take ≤ p.text.length →
    P (p.eraseText dflt k take)
  mergeNext : ∀ {p q : Para}, P p → P q → P (p.mergeNext q)
  restyle : ∀ {p : Para} {k take : Nat} (dflt fmt : PWCharFormat), P p → 0 < take → P (p.restyle dflt k take fmt)
  splitHead : ∀ {p : Para} {k : Nat} (dflt : PWCharFormat), P p → k ≤ p.text.length → P (p.splitHead dflt k)
  splitTail : ∀ {p : Para} {k : Nat} (dflt : PWCharFormat) (id : Nat), P p → k ≤ p.text.length → P (p.splitTail dflt k id)
  setFormat : ∀ {p : Para} (F : PWParaFormat), P p → P { p with format := F, revision := p.revision + 1 }
  setImage : ∀ {p : Para} {k : Nat} (img : PWImage), P p → k ≤ p.text.length →
    P { p with images := p.images.set k img, revision := p.revision + 1 }

theorem mem_modify {α : Type} {f : α → α} {x : α} : ∀ {l : List α} {i : Nat}, x ∈ l.modify i f →
    x ∈ l ∨ ∃ y, l[i]? = some y ∧ x = f y
  | [], i, h => by
    cases i <;> exact Or.inl h
  | y :: l, 0, h => by
    rcases mem_cons.1 h with rfl | h
    · exact Or.inr ⟨y, rfl, rfl⟩
    · exact Or.inl (mem_cons_of_mem y h)
  | y :: l, i + 1, h => by
    rcases mem_cons.1 h with rfl | h
    · exact Or.inl mem_cons_self
    · rcases mem_modify h with h | h
      · exact Or.inl (mem_cons_of_mem y h)
      · exact Or.inr h

theorem paraAt_of_getElem? {ps : List Para} {i : Nat} {p : Para} (h : ps[i]? = some p) : paraAt ps i = p := by
  rw [paraAt, getD_eq_getElem?_getD, h]
  rfl

theorem locate_le_of_getElem? {ps : List Para} {offset : Nat} {p : Para} (h : ps[(locate ps offset).1]? = some p) :
    (locate ps offset).2 ≤ p.text.length := by
  have := locate_le ps offset
  rwa [paraAt_of_getElem? h] at this

section
variable {P : Para → Prop} (hP : ParaInv P)
include hP

theorem ParaInv.removeLoop (dflt : PWCharFormat) (base : Nat) {k : Nat} (rest : List Para) {p : Para} (left : Nat)
    (saved : ImageTable) (hp : P p) (hrest : ∀ q ∈ rest, P q) (hk : k ≤ p.text.length) :
    P (removeLoop dflt base k rest p left saved).1.1 ∧ ∀ q ∈ (removeLoop dflt base k rest p left saved).1.2, P q := by
  have erased : ∀ {p : Para}, P p → k ≤ p.text.length → P (p.eraseRest dflt k) := fun hp hk =>
    eraseRest_of hp (fun take h0 hk => hP.eraseText dflt hp h0 hk) hk
  induction rest, p, left, saved, hk using removeLoop_induct dflt base with
  | done rest p saved hk =>
    rw [removeLoop_done]
    exact ⟨hp, hrest⟩
  | within rest p left saved hk h0 hin =>
    rw [removeLoop_within dflt base h0 hin]
    exact ⟨hP.eraseText dflt hp h0 hin, hrest⟩
  | crosses next rest p left saved hk hk' hc ih =>
    rw [removeLoop_crosses dflt base hk hc]
    exact ih (hP.mergeNext (erased hp hk) (hrest next mem_cons_self)) (fun q hq => hrest q (mem_cons_of_mem next hq))
  | past p left saved hk hc =>
    rw [removeLoop_past dflt base hk hc]
    exact ⟨erased hp hk, hrest⟩

theorem ParaInv.formatLoop (dflt fmt : PWCharFormat) (fuel : Nat) {ps : List Para} (at' stop : Nat)
    (h : ∀ p ∈ ps, P p) : ∀ q ∈ formatLoop dflt fmt fuel ps at' stop, P q := by
  have hloop := forall₂_formatLoop (R := fun p q => P p → P q) (fun _ h => h) (fun _ _ _ h h' hp => h' (h hp))
    dflt fmt (fun p k take h0 hp => hP.restyle dflt fmt (k := k) hp h0) fuel ps at' stop
  generalize Writer.formatLoop dflt fmt fuel ps at' stop = qs at hloop
  induction hloop with
  | nil => exact h
  | @cons p q ps qs hpq _ ih =>
    intro x hx
    rcases mem_cons.1 hx with rfl | hx
    · exact hpq (h p mem_cons_self)
    · exact ih (fun y hy => h y (mem_cons_of_mem p hy)) x hx

/-- **A predicate the operations on a paragraph keep is kept by every change.** -/
theorem ParaInv.step {c c' : List Para × Nat} (hs : ParasStep c c') (h : ∀ p ∈ c.1, P p) : ∀ p ∈ c'.1, P p := by
  cases hs with
  | insert dflt ps n offset fmt ht hn =>
    intro p hp
    rcases mem_modify hp with hp | ⟨q, hq, rfl⟩
    · exact h p hp
    · exact hP.insertText dflt _ (h q (mem_of_getElem? hq)) (locate_le_of_getElem? hq) ht hn
  | split dflt ps n offset =>
    intro p hp
    dsimp only at h hp
    unfold splitParas at hp
    split at hp
    · exact h p hp
    rename_i q post hq
    have hqi : ps[(locate ps offset).1]? = some q := by
      have := congrArg (·[0]?) hq
      simpa using this
    have hk := locate_le_of_getElem? hqi
    have hmem : ∀ x ∈ q :: post, x ∈ ps := fun x hx => mem_of_mem_drop (hq ▸ hx)
    rcases mem_append.1 hp with hp | hp
    · exact h p (mem_of_mem_take hp)
    rcases mem_cons.1 hp with rfl | hp
    · exact hP.splitHead dflt (h q (hmem q mem_cons_self)) hk
    · rcases mem_cons.1 hp with rfl | hp
      · exact hP.splitTail dflt n (h q (hmem q mem_cons_self)) hk
      · exact h p (hmem p (mem_cons_of_mem q hp))
  | @remove dflt ps n offset length h0 hr =>
    intro p hp
    dsimp only at h hp
    unfold removeParas at hp
    split at hp
    · exact h p hp
    rename_i q rest hq
    have hqi : ps[(locate ps offset).1]? = some q := by
      have := congrArg (·[0]?) hq
      simpa using this
    have hmem : ∀ x ∈ q :: rest, x ∈ ps := fun x hx => mem_of_mem_drop (hq ▸ hx)
    obtain ⟨h1, h2⟩ := hP.removeLoop dflt (paraStart ps (locate ps offset).1) rest length SortedMap.empty
      (h q (hmem q mem_cons_self)) (fun x hx => h x (hmem x (mem_cons_of_mem q hx)))
      (locate_le_of_getElem? hqi)
    rcases mem_append.1 hp with hp | hp
    · exact h p (mem_of_mem_take hp)
    · rcases mem_cons.1 hp with rfl | hp
      · exact h1
      · exact h2 p hp
  | format dflt fmt ps n offset length => exact hP.formatLoop dflt fmt length offset (offset + length) h
  | setFormat ps n para fmt =>
    intro p hp
    rcases mem_modify hp with hp | ⟨q, hq, rfl⟩
    · exact h p hp
    · exact hP.setFormat fmt (h q (mem_of_getElem? hq))
  | setImage ps n i img hk =>
    intro p hp
    rcases mem_modify hp with hp | ⟨q, hq, rfl⟩
    · exact h p hp
    · rw [paraAt_of_getElem? hq] at hk
      exact hP.setImage img (h q (mem_of_getElem? hq)) hk

theorem ParaInv.evolves {c c' : List Para × Nat} (hs : Evolves c c') (h : ∀ p ∈ c.1, P p) : ∀ p ∈ c'.1, P p := by
  induction hs with
  | refl => exact h
  | tail _ hs ih => exact hP.step hs ih

end

theorem paraInv_tiled : ParaInv Para.Tiled where
  insertText dflt f h hk ht _ := (h.insertText dflt f hk ht).1
  eraseText dflt h h0 hk := (h.eraseText dflt _ _ h0 hk).1
  mergeNext h h' := (h.mergeNext h').1
  restyle dflt fmt h h0 := (h.restyle dflt fmt h0).1
  splitHead dflt h hk := (h.splitHead dflt hk).1
  splitTail dflt id h hk := (h.splitTail dflt id hk).1
  setFormat _ h := h
  setImage _ h _ := h

def Para.OneLine (p : Para) : Prop := newline ∉ p.text

theorem paraInv_oneLine : ParaInv Para.OneLine where
  insertText dflt f h hk ht hn := by
    intro hm
    simp only [Para.insertText, insertAt, mem_append] at hm
    rcases hm with (hm | hm) | hm
    · exact h (mem_of_mem_take hm)
    · exact hn hm
    · exact h (mem_of_mem_drop hm)
  eraseText dflt h h0 hk := by
    intro hm
    simp only [Para.eraseText, cut, mem_append] at hm
    rcases hm with hm | hm
    · exact h (mem_of_mem_take hm)
    · exact h (mem_of_mem_drop hm)
  mergeNext h h' := by
    intro hm
    rcases mem_append.1 hm with hm | hm
    · exact h hm
    · exact h' hm
  restyle _ _ h _ := h
  splitHead _ h _ := fun hm => h (mem_of_mem_take hm)
  splitTail _ _ h _ := fun hm => h (mem_of_mem_drop hm)
  setFormat _ h := h
  setImage _ h _ := h

theorem normalizeRuns_ne_nil (dflt : PWCharFormat) (textSize : Nat) (rs : List PWRun) :
    normalizeRuns dflt textSize rs ≠ [] := by
  unfold normalizeRuns
  split
  · exact cons_ne_nil _ _
  · assumption

theorem paraInv_runs : ParaInv (fun p => p.runs ≠ []) where
  insertText _ _ _ _ _ _ := normalizeRuns_ne_nil _ _ _
  eraseText _ _ _ _ := normalizeRuns_ne_nil _ _ _
  mergeNext h _ := append_ne_nil_of_left_ne_nil h _
  restyle _ _ _ _ := normalizeRuns_ne_nil _ _ _
  splitHead _ _ _ := normalizeRuns_ne_nil _ _ _
  splitTail _ _ _ _ := normalizeRuns_ne_nil _ _ _
  setFormat _ h := h
  setImage _ h _ := h

/-- The images of a paragraph stand in its text, or right behind it. -/
def Para.Keyed (p : Para) : Prop := ∀ k v, p.images.get? k = some v → 0 ≤ k ∧ k ≤ p.text.length

theorem paraInv_keyed : ParaInv Para.Keyed where
  insertText {p k t} dflt f h hk ht _ := by
    intro j v hj
    simp only [Para.insertText] at hj ⊢
    rw [length_insertAt]
    rcases SortedMap.get?_put_cases hj with ⟨j₀, hj₀, hf⟩ | hj
    · have := h j₀ v hj₀
      have hj' := Option.some.inj hf
      split at hj' <;> omega
    · cases hj
  eraseText {p k take} dflt h h0 hk := by
    intro j v hj
    simp only [Para.eraseText] at hj ⊢
    rw [length_cut (by omega) hk]
    rcases SortedMap.get?_put_cases hj with ⟨j₀, hj₀, hf⟩ | hj
    · have := h j₀ v hj₀
      split at hf
      · have := Option.some.inj hf
        omega
      split at hf
      · have := Option.some.inj hf
        omega
      · cases hf
    · cases hj
  mergeNext {p q} h h' := by
    intro j v hj
    simp only [Para.mergeNext, length_append] at hj ⊢
    rcases SortedMap.get?_put_cases hj with ⟨j₀, hj₀, hf⟩ | hj
    · have := h' j₀ v hj₀
      have := Option.some.inj hf
      omega
    · have := h j v hj
      omega
  restyle _ _ h _ := h
  splitHead {p k} dflt h hk := by
    intro j v hj
    simp only [Para.splitHead, SortedMap.get?_filter] at hj
    split at hj
    · rename_i hlt
      have := h j v hj
      have := of_decide_eq_true hlt
      simp only [Para.splitHead, length_take]
      omega
    · cases hj
  splitTail {p k} dflt id h hk := by
    intro j v hj
    simp only [Para.splitTail, length_drop] at hj ⊢
    rcases SortedMap.get?_put_cases hj with ⟨j₀, hj₀, hf⟩ | hj
    · have := h j₀ v hj₀
      split at hf
      · have := Option.some.inj hf
        omega
      · cases hf
    · cases hj
  setFormat _ h := h
  setImage {p k} img h hk := by
    intro j v hj
    rw [SortedMap.get?_set] at hj
    split at hj
    · dsimp only
      omega
    · exact h j v hj

/-! ## Reachable documents -/

abbrev Calls : PWDocument → PWDocument → Prop := ReflTransGen (fun d d' => ∃ c, d.call c = some d')

def Reachable (plain : FontFamily) (d : PWDocument) : Prop := Calls (PWDocument.new plain) d

def callAll : PWDocument → List Call → Option PWDocument
  | d, []      => some d
  | d, c :: cs => (d.call c).bind (callAll · cs)

theorem Calls.of_callAll : ∀ (cs : List Call) {d d' : PWDocument}, callAll d cs = some d' → Calls d d'
  | [], _, _, h => by
    cases h
    exact ReflTransGen.refl
  | c :: cs, d, d', h => by
    obtain ⟨d₁, h1, h2⟩ := Option.bind_eq_some_iff.1 h
    exact ReflTransGen.head ⟨c, h1⟩ (Calls.of_callAll cs h2)

theorem Calls.evolves {d d' : PWDocument} (h : Calls d d') : Evolves d.content d'.content := by
  induction h with
  | refl => exact ReflTransGen.refl
  | tail _ hc ih =>
    obtain ⟨c, hc⟩ := hc
    exact ih.trans (call_evolves hc)

theorem call_user {d d' : PWDocument} {c : Call} (h : d.call c = some d') (hu : d.fInternalEdit = false) :
    d'.fInternalEdit = false := by
  cases c with
  | edit e => exact (Edits.settings (edit_edits h)).internal.trans hu
  | undo =>
    have h : d.undo = some d' := h
    unfold PWDocument.undo at h
    split at h
    · cases h
      exact hu
    · obtain ⟨d₁, -, rfl⟩ := Option.map_eq_some_iff.1 h
      rfl
  | redo =>
    have h : d.redo = some d' := h
    unfold PWDocument.redo at h
    split at h
    · cases h
      exact hu
    · obtain ⟨d₁, -, rfl⟩ := Option.map_eq_some_iff.1 h
      rfl
  | addStyle name chr para =>
    cases h
    unfold PWDocument.addStyle
    split <;> exact hu
  | removeStyle i =>
    cases h
    unfold PWDocument.removeStyle
    split <;> exact hu
  | _ =>
    cases h
    exact hu

theorem Reachable.user {plain : FontFamily} {d : PWDocument} (h : Reachable plain d) : d.fInternalEdit = false := by
  unfold Reachable at h
  induction h with
  | refl => rfl
  | tail _ hc ih =>
    obtain ⟨c, hc⟩ := hc
    exact call_user hc ih

theorem Reachable.paraInv {P : Para → Prop} (hP : ParaInv P) {plain : FontFamily} {d : PWDocument}
    (h : Reachable plain d) (h0 : ∀ p ∈ (PWDocument.new plain).fParas, P p) : ∀ p ∈ d.fParas, P p :=
  hP.evolves (Calls.evolves h) h0

theorem Reachable.tiled {plain : FontFamily} {d : PWDocument} (h : Reachable plain d) : Tiled d.fParas := by
  refine h.paraInv paraInv_tiled (fun p hp => ?_)
  cases mem_singleton.1 hp
  exact ⟨rfl, Int.le_refl 0, rfl⟩

theorem Reachable.oneLine {plain : FontFamily} {d : PWDocument} (h : Reachable plain d) : ∀ p ∈ d.fParas, p.OneLine := by
  refine h.paraInv paraInv_oneLine (fun p hp => ?_)
  cases mem_singleton.1 hp
  exact not_mem_nil

theorem Reachable.runs {plain : FontFamily} {d : PWDocument} (h : Reachable plain d) : ∀ p ∈ d.fParas, p.runs ≠ [] := by
  refine h.paraInv paraInv_runs (fun p hp => ?_)
  cases mem_singleton.1 hp
  exact cons_ne_nil _ _

theorem Reachable.keyed {plain : FontFamily} {d : PWDocument} (h : Reachable plain d) : ∀ p ∈ d.fParas, p.Keyed := by
  refine h.paraInv paraInv_keyed (fun p hp => ?_)
  cases mem_singleton.1 hp
  intro k v hk
  cases hk

theorem ParasStep.ne_nil {c c' : List Para × Nat} (h : ParasStep c c') (hne : c.1 ≠ []) : c'.1 ≠ [] := by
  have modify_ne : ∀ {ps : List Para} (i : Nat) (f : Para → Para), ps ≠ [] → ps.modify i f ≠ [] := by
    intro ps i f hps hn
    have := congrArg List.length hn
    rw [length_modify, length_nil] at this
    exact hps (length_eq_zero_iff.1 this)
  cases h with
  | insert dflt ps n offset fmt ht hn => exact modify_ne _ _ hne
  | split dflt ps n offset =>
    dsimp only
    unfold splitParas
    split
    · exact hne
    · exact append_ne_nil_of_right_ne_nil _ (cons_ne_nil _ _)
  | @remove dflt ps n offset length h0 hr =>
    dsimp only
    unfold removeParas
    split
    · exact hne
    · exact append_ne_nil_of_right_ne_nil _ (cons_ne_nil _ _)
  | format dflt fmt ps n offset length =>
    have hlen := (forall₂_formatLoop (R := fun _ _ => True) (fun _ => trivial) (fun _ _ _ _ _ => trivial) dflt
      fmt (fun _ _ _ _ => trivial) length ps offset (offset + length)).length_eq
    exact fun hn => hne (length_eq_zero_iff.1 (hlen.trans (congrArg List.length hn)))
  | setFormat ps n para fmt => exact modify_ne _ _ hne
  | setImage ps n i img hk => exact modify_ne _ _ hne

theorem Evolves.ne_nil {c c' : List Para × Nat} (h : Evolves c c') (hc : c.1 ≠ []) : c'.1 ≠ [] := by
  induction h with
  | refl => exact hc
  | tail _ hs ih => exact hs.ne_nil ih

theorem Reachable.ne_nil {plain : FontFamily} {d : PWDocument} (h : Reachable plain d) : d.fParas ≠ [] :=
  Evolves.ne_nil (Calls.evolves h) (cons_ne_nil _ _)

/-- What every document has: a paragraph, and paragraphs of one line whose runs tile their text. -/
structure PWDocument.WellFormed (d : PWDocument) : Prop where
  ne_nil : d.fParas ≠ []
  oneLine : ∀ p ∈ d.fParas, p.OneLine
  tiled : Tiled d.fParas
  runs : ∀ p ∈ d.fParas, p.runs ≠ []

theorem Reachable.wellFormed {plain : FontFamily} {d : PWDocument} (h : Reachable plain d) : d.WellFormed :=
  ⟨h.ne_nil, h.oneLine, h.tiled, h.runs⟩

/-! ## Runs -/

theorem Tiles.filter : ∀ {a b : Int} {rs : List PWRun}, Tiles a rs b → Tiles a (rs.filter (fun r => 0 < r.length)) b
  | a, b, [], h => h
  | a, b, r :: rs, ⟨hs, hl, h⟩ => by
    have ih := h.filter
    by_cases h0 : 0 < r.length
    · rw [filter_cons_of_pos (by simpa using h0)]
      exact ⟨hs, hl, ih⟩
    have he : r.rEnd = a := by
      unfold PWRun.rEnd
      omega
    rw [filter_cons_of_neg (by simpa using h0), ← he]
    exact ih

/-- **The non-empty runs of every paragraph tile its text**: they start at 0, each where the one before ends, and the last
one ends with the text. -/
theorem nonEmptyRuns_tile {plain : FontFamily} {d : PWDocument} (h : Reachable plain d) :
    ∀ p ∈ d.fParas, Tiles 0 (p.runs.filter (fun r => 0 < r.length)) p.text.length :=
  fun p hp => Tiles.filter (h.tiled p hp)

def mergedBold : List Call :=
  [.edit (.insert 0 [byteA, newline, byteB] none),
    .edit (.applyFormat 0 1 { makeDefaultFormat noFamily with bold := true }), .edit (.remove 1 1)]

theorem nonEmptyRuns_tile_mergedBold : ∃ d, callAll (PWDocument.new noFamily) mergedBold = some d ∧
    ∀ p ∈ d.fParas, Tiles 0 (p.runs.filter (fun r => 0 < r.length)) p.text.length :=
  ⟨_, rfl, nonEmptyRuns_tile (Calls.of_callAll mergedBold rfl)⟩

end Writer
end Prose
