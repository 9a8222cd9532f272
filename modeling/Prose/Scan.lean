import Mathlib.Logic.Relation
/-!
# Scan — a loop that eats its input

A state and the input still to read; each turn of the loop eats some of it.  `run` is the loop
`while (going && input left) step`, with as many turns as there are symbols.  `Reads r s r'` says that the loop, standing
in `r` in front of `s`, gets behind `s` in the state `r'`, whatever follows.
-/
namespace Prose
namespace Scan

open List

open Relation (ReflTransGen)

variable {σ α : Type*} (going : σ → Bool) (step : σ → List α → σ × List α)

def loop : Nat → σ → List α → σ
  | 0, r, _        => r
  | fuel + 1, r, s =>
    if s.isEmpty || !going r then r else loop fuel (step r s).1 (step r s).2

def run (r : σ) (s : List α) : σ := loop going step s.length r s

def Eats : Prop := ∀ r s, s ≠ [] → (step r s).2.length < s.length

def Turn (c c' : σ × List α) : Prop := c.2 ≠ [] ∧ going c.1 = true ∧ step c.1 c.2 = c'

abbrev Turns : σ × List α → σ × List α → Prop := ReflTransGen (Turn going step)

def Reads (r : σ) (s : List α) (r' : σ) : Prop := ∀ rest, run going step r (s ++ rest) = run going step r' rest

variable {going step}

theorem loop_stop {r : σ} {s : List α} (h : s = [] ∨ going r = false) : ∀ fuel, loop going step fuel r s = r
  | 0 => rfl
  | fuel + 1 => by
    unfold loop
    rcases h with rfl | h
    · rw [isEmpty_nil, Bool.true_or, if_pos rfl]
    · rw [h, Bool.not_false, Bool.or_true, if_pos rfl]

theorem run_stop {r : σ} (h : going r = false) (s : List α) : run going step r s = r := loop_stop (Or.inr h) _

theorem loop_succ {r : σ} {s : List α} (hs : s ≠ []) (h : going r = true) (fuel : Nat) :
    loop going step (fuel + 1) r s = loop going step fuel (step r s).1 (step r s).2 := by
  rw [loop, if_neg]
  rw [h, Bool.not_true, Bool.or_false, List.isEmpty_iff]
  exact hs

section
variable (he : Eats step)
include he

theorem loop_fuel : ∀ (fuel fuel' : Nat) (r : σ) (s : List α), s.length ≤ fuel → s.length ≤ fuel' →
    loop going step fuel r s = loop going step fuel' r s
  | 0, fuel', r, s, h, _ => by
    have hs : s = [] := length_eq_zero_iff.1 (Nat.le_zero.1 h)
    rw [loop_stop (Or.inl hs), loop_stop (Or.inl hs)]
  | fuel + 1, 0, r, s, _, h => by
    have hs : s = [] := length_eq_zero_iff.1 (Nat.le_zero.1 h)
    rw [loop_stop (Or.inl hs), loop_stop (Or.inl hs)]
  | fuel + 1, fuel' + 1, r, s, h, h' => by
    by_cases hs : s = []
    · rw [loop_stop (Or.inl hs), loop_stop (Or.inl hs)]
    cases hg : going r with
    | false => rw [loop_stop (Or.inr hg), loop_stop (Or.inr hg)]
    | true =>
      have hlt := he r s hs
      rw [loop_succ hs hg, loop_succ hs hg]
      exact loop_fuel fuel fuel' _ _ (by omega) (by omega)

/-- **One turn.** -/
theorem run_step {r : σ} {s : List α} (hs : s ≠ []) (h : going r = true) :
    run going step r s = run going step (step r s).1 (step r s).2 := by
  have hlt := he r s hs
  unfold run
  cases s with
  | nil => exact absurd rfl hs
  | cons a s =>
    rw [length_cons, loop_succ hs h]
    exact loop_fuel he _ _ _ _ (Nat.le_of_lt_succ hlt) (Nat.le_refl _)

theorem Turn.run_eq {c c' : σ × List α} (h : Turn going step c c') : run going step c.1 c.2 = run going step c'.1 c'.2 := by
  obtain ⟨hs, hg, rfl⟩ := h
  exact run_step he hs hg

/-- **The loop ends in the same state from every place it passes.** -/
theorem Turns.run_eq {c c' : σ × List α} (h : Turns going step c c') :
    run going step c.1 c.2 = run going step c'.1 c'.2 := by
  induction h with
  | refl => rfl
  | tail _ ht ih => exact ih.trans (ht.run_eq he)

theorem Reads.of_step {r r' : σ} {s : List α} (hs : s ≠ []) (hg : going r = true)
    (h : ∀ rest, step r (s ++ rest) = (r', rest)) : Reads going step r s r' := by
  intro rest
  rw [run_step he (by simp [hs]) hg, h]

/-- **Two runs in lockstep**: the relation `R` between the two states and the text that both still have to read holds
from turn to turn, until it gives `Q` for the two ends. -/
theorem run_lockstep {R : σ → σ → List α → Prop} {Q : σ → σ → Prop}
    (hturn : ∀ r r' s, R r r' s → Q (run going step r s) (run going step r' s) ∨
      (s ≠ [] ∧ going r = true ∧ going r' = true ∧ (step r s).2 = (step r' s).2 ∧
        R (step r s).1 (step r' s).1 (step r s).2)) :
    ∀ {s : List α} {r r' : σ}, R r r' s → Q (run going step r s) (run going step r' s) := by
  intro s
  induction hlen : s.length using Nat.strongRecOn generalizing s with
  | ind len ih =>
    intro r r' h
    rcases hturn r r' s h with hend | ⟨hs, hg, hg', heq, hR⟩
    · exact hend
    · rw [run_step he hs hg, run_step he hs hg', ← heq]
      exact ih _ (hlen ▸ he r s hs) rfl hR

end

theorem Reads.nil (r : σ) : Reads going step r [] r := fun _ => rfl

theorem Reads.append {r r₁ r₂ : σ} {s t : List α} (h : Reads going step r s r₁) (h' : Reads going step r₁ t r₂) :
    Reads going step r (s ++ t) r₂ := by
  intro rest
  rw [append_assoc, h, h']

/-! ## Maximal runs -/

theorem span_append {p : α → Bool} {w x : List α} (hw : ∀ c ∈ w, p c) (hx : ∀ c ∈ x.head?, p c = false) :
    (w ++ x).takeWhile p = w ∧ (w ++ x).dropWhile p = x := by
  rw [takeWhile_append_of_pos hw, dropWhile_append_of_pos hw]
  cases x with
  | nil => exact ⟨append_nil w, rfl⟩
  | cons c x =>
    have hc : ¬ p c := by
      rw [hx c rfl]
      exact Bool.false_ne_true
    rw [takeWhile_cons_of_neg hc, dropWhile_cons_of_neg hc, append_nil]
    exact ⟨rfl, rfl⟩

theorem span_unique {p : α → Bool} {w w' x x' : List α} (hw : ∀ c ∈ w, p c) (hw' : ∀ c ∈ w', p c)
    (hx : ∀ c ∈ x.head?, p c = false) (hx' : ∀ c ∈ x'.head?, p c = false) (h : w ++ x = w' ++ x') : w = w' ∧ x = x' := by
  obtain ⟨h1, h2⟩ := span_append hw hx
  obtain ⟨h1', h2'⟩ := span_append hw' hx'
  rw [h] at h1 h2
  exact ⟨h1.symm.trans h1', h2.symm.trans h2'⟩

end Scan
end Prose
