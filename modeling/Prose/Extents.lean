import Mathlib.Algebra.BigOperators.Intervals
import Mathlib.Data.List.Count
/-!
# Extents — runs of addresses, and how often each address is covered

A list of extents partitions some memory when every address in it is covered once.  Cutting an extent in two changes no
cover, taking a range out of a list changes it inside the range only, and the sizes of a list are the sum of what it covers.
-/

/-- The addresses from `start` on, `size` of them. -/
structure Extent where
  start : Nat
  size : Nat
  deriving DecidableEq

namespace Extent

def stop (e : Extent) : Nat := e.start + e.size

def Has (e : Extent) (a : Nat) : Prop := e.start ≤ a ∧ a < e.stop

instance (e : Extent) (a : Nat) : Decidable (e.Has a) := inferInstanceAs (Decidable (_ ∧ _))

def Apart (e f : Extent) : Prop := e.stop ≤ f.start ∨ f.stop ≤ e.start ∨ e.size = 0 ∨ f.size = 0

instance (e f : Extent) : Decidable (e.Apart f) := inferInstanceAs (Decidable (_ ∨ _))

/-- What is left of `e` on either side of `r`. -/
def without (e r : Extent) : List Extent :=
  [⟨e.start, min e.stop r.start - e.start⟩, ⟨max e.start r.stop, e.stop - max e.start r.stop⟩].filter fun p => 0 < p.size

theorem has_def {e : Extent} {a : Nat} : e.Has a ↔ e.start ≤ a ∧ a < e.start + e.size := Iff.rfl

theorem has_mk {s n a : Nat} : (⟨s, n⟩ : Extent).Has a ↔ s ≤ a ∧ a < s + n := Iff.rfl

theorem apart_iff {e f : Extent} : e.Apart f ↔ ∀ a, e.Has a → ¬ f.Has a := by
  unfold Apart Has stop
  constructor
  · rintro h a ⟨h1, h2⟩ ⟨h3, h4⟩
    omega
  · intro h
    have h1 := h e.start
    have h2 := h f.start
    omega

end Extent

namespace Extents

def cover (l : List Extent) (a : Nat) : Nat := l.countP fun e => e.Has a

def total (l : List Extent) : Nat := (l.map Extent.size).sum

def minus (l : List Extent) (r : Extent) : List Extent := l.flatMap (·.without r)

/-- Every address of `r` lies in one of the list. -/
def Within (r : Extent) (l : List Extent) : Prop := l.foldl minus [r] = []

instance (r : Extent) (l : List Extent) : Decidable (Within r l) := inferInstanceAs (Decidable (_ = _))

variable {l l' : List Extent} {e r : Extent} {a : Nat}

@[simp] theorem cover_nil : cover [] a = 0 := rfl

theorem cover_cons : cover (e :: l) a = cover l a + if e.Has a then 1 else 0 := by
  unfold cover
  rw [List.countP_cons]
  simp only [decide_eq_true_eq]

theorem cover_append : cover (l ++ l') a = cover l a + cover l' a := List.countP_append

theorem cover_perm (h : l.Perm l') : cover l a = cover l' a := h.countP_eq _

theorem cover_eq_zero : cover l a = 0 ↔ ∀ e ∈ l, ¬ e.Has a := by
  unfold cover
  rw [List.countP_eq_zero]
  simp only [decide_eq_true_eq]

theorem cover_pos : 0 < cover l a ↔ ∃ e ∈ l, e.Has a := by
  unfold cover
  rw [List.countP_pos_iff]
  simp only [decide_eq_true_eq]

theorem cover_cut {s m n : Nat} : cover (⟨s, m + n⟩ :: l) a = cover (⟨s, m⟩ :: ⟨s + m, n⟩ :: l) a := by
  simp only [cover_cons, Extent.has_mk]
  split <;> split <;> split <;> omega

theorem cover_erase (h : e ∈ l) : cover l a = cover (l.erase e) a + if e.Has a then 1 else 0 := by
  rw [cover_perm (List.perm_cons_erase h), cover_cons]

theorem cover_filter_size : ∀ {l : List Extent}, cover (l.filter fun p => 0 < p.size) a = cover l a
  | []     => rfl
  | e :: l => by
    have ih := cover_filter_size (l := l)
    rw [List.filter_cons]
    split
    · rw [cover_cons, cover_cons, ih]
    · rename_i h
      have hsize : ¬ 0 < e.size := fun h' => h (decide_eq_true h')
      rw [ih, cover_cons, if_neg fun ha => by have := ha.1; have := ha.2; unfold Extent.stop at this; omega, Nat.add_zero]

theorem cover_without : cover (e.without r) a = if r.Has a then 0 else if e.Has a then 1 else 0 := by
  have hl : (⟨e.start, min e.stop r.start - e.start⟩ : Extent).Has a ↔ e.Has a ∧ a < r.start := by
    simp only [Extent.has_def, Extent.stop]
    omega
  have hr : (⟨max e.start r.stop, e.stop - max e.start r.stop⟩ : Extent).Has a ↔ e.Has a ∧ r.stop ≤ a := by
    simp only [Extent.has_def, Extent.stop]
    omega
  have hin : r.Has a ↔ ¬ a < r.start ∧ ¬ r.stop ≤ a := by
    unfold Extent.Has
    omega
  unfold Extent.without
  rw [cover_filter_size, cover_cons, cover_cons, cover_nil]
  simp only [hl, hr, hin]
  by_cases h1 : a < r.start <;> by_cases h2 : r.stop ≤ a <;> simp only [h1, h2, and_true, and_false, not_true, not_false_iff,
    if_false, if_true, Nat.add_zero, Nat.zero_add]
  have : r.start ≤ r.stop := Nat.le_add_right _ _
  omega

theorem cover_minus : ∀ {l : List Extent}, cover (minus l r) a = if r.Has a then 0 else cover l a
  | []     => by simp [minus]
  | e :: l => by
    have ih := cover_minus (l := l)
    unfold minus at ih ⊢
    rw [List.flatMap_cons, cover_append, ih, cover_without, cover_cons]
    split <;> omega

theorem cover_foldl_minus : ∀ {l : List Extent} {rest : List Extent},
    cover (l.foldl minus rest) a = if 0 < cover l a then 0 else cover rest a
  | [], rest     => by simp
  | e :: l, rest => by
    rw [List.foldl_cons, cover_foldl_minus, cover_minus, cover_cons]
    split <;> split <;> split <;> omega

theorem Within.pos (h : Within r l) (ha : r.Has a) : 0 < cover l a := by
  refine Nat.pos_of_ne_zero fun h0 => ?_
  have hc : cover (l.foldl minus [r]) a = _ := cover_foldl_minus
  unfold Within at h
  rw [h, h0, cover_cons, if_pos ha] at hc
  simp at hc

/-! ## Sizes -/

theorem size_eq_sum {n : Nat} (h : e.stop ≤ n) : e.size = ∑ a ∈ Finset.range n, if e.Has a then 1 else 0 := by
  have hs : (Finset.range n).filter (fun a => e.Has a) = Finset.Ico e.start e.stop := by
    ext a
    rw [Finset.mem_filter, Finset.mem_range, Finset.mem_Ico]
    exact ⟨fun ha => ha.2, fun ha => ⟨Nat.lt_of_lt_of_le ha.2 h, ha⟩⟩
  rw [← Finset.card_filter, hs, Nat.card_Ico]
  unfold Extent.stop
  omega

theorem total_eq_sum {n : Nat} : ∀ {l : List Extent}, (∀ e ∈ l, e.stop ≤ n) → total l = ∑ a ∈ Finset.range n, cover l a
  | [], _     => by simp [total]
  | e :: l, h => by
    have ih := total_eq_sum (l := l) fun f hf => h f (List.mem_cons_of_mem e hf)
    unfold total at ih ⊢
    rw [List.map_cons, List.sum_cons, ih, size_eq_sum (h e List.mem_cons_self), Nat.add_comm, ← Finset.sum_add_distrib]
    exact Finset.sum_congr rfl fun a _ => cover_cons.symm

theorem exists_stop_le : ∀ (l : List Extent), ∃ n, ∀ e ∈ l, e.stop ≤ n
  | []     => ⟨0, fun _ h => nomatch h⟩
  | e :: l => by
    obtain ⟨n, hn⟩ := exists_stop_le l
    refine ⟨max e.stop n, fun f hf => ?_⟩
    rcases List.mem_cons.1 hf with rfl | hf
    · exact Nat.le_max_left _ _
    · exact Nat.le_trans (hn f hf) (Nat.le_max_right _ _)

/-- **Lists that cover the same are of the same size.** -/
theorem total_congr (h : ∀ a, cover l a = cover l' a) : total l = total l' := by
  obtain ⟨n, hn⟩ := exists_stop_le (l ++ l')
  rw [total_eq_sum fun e he => hn e (List.mem_append_left _ he),
    total_eq_sum fun e he => hn e (List.mem_append_right _ he)]
  exact Finset.sum_congr rfl fun a _ => h a

@[simp] theorem total_cons : total (e :: l) = e.size + total l := by simp [total]

/-- **A range taken out of a list that holds every address of it once makes the list smaller by its size.** -/
theorem total_minus (h : ∀ a, cover l a ≤ 1) (hr : Within r l) : total l = total (minus l r) + r.size := by
  have hcover : ∀ a, cover l a = cover (r :: minus l r) a := by
    intro a
    rw [cover_cons, cover_minus]
    split
    · rename_i ha
      have := hr.pos ha
      have := h a
      omega
    · omega
  rw [total_congr hcover, total_cons, Nat.add_comm]

/-! ## Lists that hold no address twice -/

/-- **Two extents that share an address are one.** -/
theorem eq_of_has {f : Extent} (h : ∀ a, cover l a ≤ 1) (he : e ∈ l) (hf : f ∈ l) (hea : e.Has a) (hfa : f.Has a) :
    e = f := by
  refine Decidable.byContradiction fun hne => ?_
  have h1 := h a
  rw [cover_erase he, if_pos hea, cover_erase ((List.mem_erase_of_ne fun h => hne h.symm).2 hf), if_pos hfa] at h1
  omega

end Extents
