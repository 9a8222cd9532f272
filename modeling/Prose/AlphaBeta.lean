import Mathlib.Algebra.Order.Group.Defs
import Mathlib.Algebra.Order.Group.Unbundled.Basic
import Mathlib.Data.List.MinMax
/-!
# AlphaBeta — a search with a window

A search asked for a value `v` with a window from `α` to `β` may answer inexactly outside the window: `Answers α β v r`
says that `r` bounds `v` from above when it lies below `β`, and from below when it lies above `α`.  An answer turns with
the window when the side changes, and a loop over the choices that narrows its window and stops when that is empty answers
for the greatest of their values, unless the searcher is stopped.
-/
namespace AlphaBeta

open List

variable {V ι σ : Type*} [LinearOrder V]

def Answers (α β v r : V) : Prop := (r < β → v ≤ r) ∧ (α < r → r ≤ v)

theorem Answers.rfl {α β v : V} : Answers α β v v := ⟨fun _ => le_refl v, fun _ => le_refl v⟩

theorem Answers.eq {α β v r : V} (h : Answers α β v r) (h1 : α < r) (h2 : r < β) : r = v := le_antisymm (h.2 h1) (h.1 h2)

section
variable {α β v r : V} (h : Answers α β v r) (ha : α < β) (hv : v < β)
include h ha hv

theorem Answers.lt_of_lt : r < β := by
  by_contra hr
  rw [not_lt] at hr
  exact absurd (lt_of_le_of_lt (h.2 (lt_of_lt_of_le ha hr)) hv) (not_lt.2 hr)

/-- A value that does not reach `β` exceeds `α` if and only if the answer does, which then is exact. -/
theorem Answers.lt_iff : α < r ↔ α < v := by
  have hr := h.lt_of_lt ha hv
  exact ⟨fun h1 => lt_of_lt_of_le h1 (h.2 h1), fun h1 => lt_of_lt_of_le h1 (h.1 hr)⟩

theorem Answers.eq_of_lt (h1 : α < r) : r = v := h.eq h1 (h.lt_of_lt ha hv)

end

theorem Answers.eq_of_mem {α β v r : V} (h : Answers α β v r) (h1 : α < v) (h2 : v < β) : r = v := by
  have ha := lt_trans h1 h2
  exact h.eq_of_lt ha h2 ((h.lt_iff ha h2).2 h1)

theorem Answers.neg [AddCommGroup V] [IsOrderedAddMonoid V] {α β v r : V} (h : Answers (-β) (-α) v r) :
    Answers α β (-v) (-r) :=
  ⟨fun hr => neg_le_neg (h.2 (neg_lt.1 hr)), fun hr => neg_le_neg (h.1 (lt_neg.1 hr))⟩

/-- The choices one after the other: the best answer so far, the window from the greater of it and `α`.  The searcher's
state says when it is stopped. -/
def loop (stop : σ → Bool) (score : ι → V → V → σ → V × σ) (β : V) : List ι → V → V → σ → V × σ
  | [], _, best, st      => (best, st)
  | i :: is, α, best, st =>
    if stop st then (best, st)
    else
      let (s, st) := score i α β st
      let best' := if s > best then s else best
      let α' := if best' > α then best' else α
      if α' ≥ β then (best', st) else loop stop score β is α' best' st

/-- The greatest of some values and `b`. -/
def greatest (b : V) (vs : List V) : V := vs.foldl max b

theorem le_greatest : ∀ (vs : List V) (b : V), b ≤ greatest b vs
  | [], b => le_refl b
  | v :: vs, b => le_trans (le_max_left b v) (le_greatest vs (max b v))

theorem le_greatest_of_mem : ∀ (vs : List V) (b : V) {v : V}, v ∈ b :: vs → v ≤ greatest b vs
  | vs, b, v, h => by
    rcases mem_cons.1 h with rfl | h
    · exact le_greatest vs v
    cases vs with
    | nil => cases h
    | cons w vs =>
      rcases mem_cons.1 h with rfl | h
      · exact le_trans (le_max_right b v) (le_greatest vs (max b v))
      · exact le_greatest_of_mem vs (max b w) (mem_cons_of_mem _ h)

def Finds (stop : σ → Bool) (α β v : V) (r : V × σ) : Prop := Answers α β v r.1 ∧ stop r.2 = false

theorem Answers.max_left {α₀ β best m v s : V} (hm : Answers α₀ β m best) (hs : Answers (max α₀ best) β v s) :
    Answers α₀ β (max m v) (max best s) := by
  refine ⟨fun hr => ?_, fun hr => ?_⟩
  · obtain ⟨h1, h2⟩ := max_lt_iff.1 hr
    exact max_le_max (hm.1 h1) (hs.1 h2)
  · rcases le_or_gt s best with hle | hgt
    · rw [max_eq_left hle] at hr ⊢
      exact le_trans (hm.2 hr) (le_max_left _ _)
    · rw [max_eq_right hgt.le] at hr ⊢
      exact le_trans (hs.2 (max_lt hr hgt)) (le_max_right _ _)

/-- **The loop finds the greatest value**, whatever part of the choices it has still in front of it. -/
theorem loop_finds {stop : σ → Bool} {score : ι → V → V → σ → V × σ} {value : ι → V} {α₀ β : V} :
    ∀ {is : List ι} {α best m : V} {st : σ},
    (∀ i ∈ is, ∀ a st, α₀ ≤ a → a < β → stop st = false → Finds stop a β (value i) (score i a β st)) →
    α = max α₀ best → α < β → Answers α₀ β m best → stop st = false →
    Finds stop α₀ β (greatest m (is.map value)) (loop stop score β is α best st)
  | [], _, _, _, _, _, _, _, hm, hst => ⟨hm, hst⟩
  | i :: is, α, best, m, st, h, hα, hlt, hm, hst => by
    have hi := h i mem_cons_self α st (le_of_le_of_eq (le_max_left α₀ best) hα.symm) hlt hst
    unfold loop
    rw [if_neg (by rw [hst]; exact Bool.false_ne_true)]
    dsimp only
    generalize score i α β st = r at hi ⊢
    obtain ⟨s, st'⟩ := r
    obtain ⟨hi, hst'⟩ := hi
    dsimp only at hi hst' ⊢
    rw [hα] at hi
    have hm' := hm.max_left hi
    have hbest : (if s > best then s else best) = max best s := (max_def_lt best s).symm
    have hmax : max α (max best s) = max α₀ (max best s) := by
      rw [hα, max_assoc, ← max_assoc best, max_self]
    have hwindow : (if max best s > α then max best s else α) = max α₀ (max best s) :=
      (max_def_lt α (max best s)).symm.trans hmax
    rw [hbest, hwindow]
    split
    · rename_i hcut
      -- the window is empty: the answer has reached `β`
      have hreach : β ≤ max best s := by
        rcases le_max_iff.1 hcut with h0 | h0
        · rw [hα] at hlt
          exact absurd (le_trans h0 (le_max_left α₀ best)) (not_le.2 hlt)
        · exact h0
      exact ⟨⟨fun hr => absurd hr (not_lt.2 hreach), fun hr => le_trans (hm'.2 hr) (le_greatest _ _)⟩, hst'⟩
    · rename_i hcut
      exact loop_finds (fun j hj => h j (mem_cons_of_mem i hj)) rfl (not_le.1 hcut) hm' hst'

/-! ## The choice -/

/-- The choices one after the other, the first one of the best answer kept; a stopped search does not count. -/
def choose (stop : σ → Bool) (score : ι → V → σ → V × σ) : List ι → ι × V → σ → (ι × V) × σ
  | [], best, st      => (best, st)
  | i :: is, best, st =>
    let (s, st) := score i best.2 st
    if stop st then (best, st) else choose stop score is (if s > best.2 then (i, s) else best) st

/-- An answer that says whether the value is above `b`, and if so what it is. -/
def Beats (stop : σ → Bool) (b v : V) (r : V × σ) : Prop := ((b < r.1 ↔ b < v) ∧ (b < r.1 → r.1 = v)) ∧ stop r.2 = false

theorem Finds.beats {stop : σ → Bool} {b top v : V} {r : V × σ} (h : Finds stop b top v r) (hb : b < top) (hv : v < top) :
    Beats stop b v r := ⟨⟨h.1.lt_iff hb hv, h.1.eq_of_lt hb hv⟩, h.2⟩

theorem Finds.beats_of_mem {stop : σ → Bool} {bot b top v : V} {r : V × σ} (h : Finds stop bot top v r) (hbot : bot < v)
    (htop : v < top) : Beats stop b v r := by
  have heq := h.1.eq_of_mem hbot htop
  exact ⟨⟨by rw [heq], fun _ => heq⟩, h.2⟩

/-- **The choice is the greatest value**, and where that is more than there was, one of the choices that have it. -/
theorem choose_greatest {stop : σ → Bool} {score : ι → V → σ → V × σ} {value : ι → V} {bot top : V} :
    ∀ {is : List ι} {best : ι × V} {st : σ},
    (∀ i ∈ is, value i < top ∧ ∀ b st, bot ≤ b → b < top → stop st = false → Beats stop b (value i) (score i b st)) →
    bot ≤ best.2 → best.2 < top → stop st = false →
    let r := choose stop score is best st
    r.1.2 = greatest best.2 (is.map value) ∧ (r.1 = best ∨ r.1.1 ∈ is ∧ value r.1.1 = r.1.2) ∧ stop r.2 = false
  | [], _, _, _, _, _, hst => ⟨rfl, Or.inl rfl, hst⟩
  | i :: is, best, st, h, hbot, hb, hst => by
    obtain ⟨hv, hi⟩ := h i mem_cons_self
    replace hi := hi best.2 st hbot hb hst
    unfold choose
    dsimp only
    generalize score i best.2 st = r at hi ⊢
    obtain ⟨s, st'⟩ := r
    obtain ⟨⟨hlt, heq⟩, hst'⟩ := hi
    dsimp only at hlt heq hst' ⊢
    rw [if_neg (by rw [hst']; exact Bool.false_ne_true)]
    have hrest : ∀ j ∈ is, value j < top ∧ ∀ b st, bot ≤ b → b < top → stop st = false →
        Beats stop b (value j) (score j b st) := fun j hj => h j (mem_cons_of_mem i hj)
    by_cases hs : best.2 < s
    · have hsv := heq hs
      rw [if_pos hs]
      obtain ⟨h1, h2, h3⟩ := @choose_greatest stop score value bot top is (i, s) st' hrest
        (le_trans hbot hs.le) (by rw [hsv]; exact hv) hst'
      refine ⟨h1.trans ?_, Or.inr ?_, h3⟩
      · show greatest s (is.map value) = greatest (max best.2 (value i)) (is.map value)
        rw [← hsv, max_eq_right hs.le]
      · rcases h2 with h2 | ⟨h2, h2'⟩
        · rw [h2]
          exact ⟨mem_cons_self, hsv.symm⟩
        · exact ⟨mem_cons_of_mem i h2, h2'⟩
    · rw [if_neg hs]
      obtain ⟨h1, h2, h3⟩ := @choose_greatest stop score value bot top is best st' hrest hbot hb hst'
      refine ⟨h1.trans ?_, h2.imp_right (fun h2 => ⟨mem_cons_of_mem i h2.1, h2.2⟩), h3⟩
      show greatest best.2 (is.map value) = greatest (max best.2 (value i)) (is.map value)
      rw [max_eq_left (not_lt.1 (mt hlt.2 hs))]

/-- Whatever the scores are and wherever the search stops, the choice is one of the choices or what there was. -/
theorem choose_mem (stop : σ → Bool) (score : ι → V → σ → V × σ) : ∀ (is : List ι) (best : ι × V) (st : σ),
    (choose stop score is best st).1.1 ∈ best.1 :: is
  | [], _, _ => mem_cons_self
  | i :: is, best, st => by
    unfold choose
    dsimp only
    split
    · exact mem_cons_self
    have ih := choose_mem stop score is (if (score i best.2 st).1 > best.2 then (i, (score i best.2 st).1) else best) (score i best.2 st).2
    rcases mem_cons.1 ih with h | h
    · rw [h]
      split
      · exact mem_cons_of_mem _ mem_cons_self
      · exact mem_cons_self
    · exact mem_cons_of_mem _ (mem_cons_of_mem _ h)

theorem choose_stop {stop : σ → Bool} {score : ι → V → σ → V × σ} : ∀ {is : List ι} {best : ι × V} {st : σ},
    (∀ i ∈ is, ∀ b st, stop (score i b st).2 = stop st) → stop (choose stop score is best st).2 = stop st
  | [], _, _, _ => rfl
  | i :: is, best, st, h => by
    unfold choose
    dsimp only
    split
    · exact h i mem_cons_self best.2 st
    · exact (choose_stop fun j hj => h j (mem_cons_of_mem i hj)).trans (h i mem_cons_self best.2 st)

end AlphaBeta
