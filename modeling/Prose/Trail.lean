import Mathlib.Data.List.Basic
import Mathlib.Logic.Function.Iterate
/-!
# Trail — a stack of steps that leads back to where it started

`undoes s v v'` says that taking the step `s` back at `v` gives `v'`.  `LeadsBack` is a stack whose steps, taken back
from the top, lead to a given start; pushing a step that takes the last change back keeps it, and a machine that pops
its stack and takes the step back drains to that start.  A machine with a second stack, for the steps it took back, walks
the trail back and forth.
-/
namespace Trail

open List

variable {S V D : Type*}

/-- `while (more) step`, at most `fuel` turns; `none` when they do not do. -/
def drain (more : D → Bool) (step : D → Option D) : Nat → D → Option D
  | 0, d        => if more d then none else some d
  | fuel + 1, d => if more d then (step d).bind (drain more step fuel) else some d

theorem drain_mono {more : D → Bool} {step : D → Option D} : ∀ {n m : Nat} {d d' : D}, n ≤ m →
    drain more step n d = some d' → drain more step m d = some d'
  | 0, 0, _, _, _, h => h
  | 0, m + 1, d, d', _, h => by
    unfold drain at h ⊢
    split at h
    · cases h
    · rename_i hm
      rw [if_neg hm]
      exact h
  | n + 1, m + 1, d, d', hnm, h => by
    unfold drain at h ⊢
    split at h
    · rename_i hm
      rw [if_pos hm]
      cases hs : step d with
      | none =>
        rw [hs] at h
        cases h
      | some d₁ =>
        rw [hs] at h
        exact drain_mono (Nat.le_of_succ_le_succ hnm) h
    · rename_i hm
      rw [if_neg hm]
      exact h

def LeadsBack (undoes : S → V → V → Prop) : List S → V → V → Prop
  | [], v, v₀      => v = v₀
  | s :: ss, v, v₀ => ∃ v', undoes s v v' ∧ LeadsBack undoes ss v' v₀

variable {undoes : S → V → V → Prop}

theorem LeadsBack.push {s : S} {ss : List S} {v v' v₀ : V} (h : LeadsBack undoes ss v v₀) (hs : undoes s v' v) :
    LeadsBack undoes (s :: ss) v' v₀ := ⟨v, hs, h⟩

theorem LeadsBack.extend {s t : S} {ss : List S} {v v' v₀ : V} (h : LeadsBack undoes (s :: ss) v v₀)
    (hs : ∀ w, undoes s v w → undoes t v' w) : LeadsBack undoes (t :: ss) v' v₀ := by
  obtain ⟨w, hw, hss⟩ := h
  exact ⟨w, hs w hw, hss⟩

/-- **A machine that pops its stack drains to the start.** -/
theorem LeadsBack.drain {more : D → Bool} {step : D → Option D} (stack : D → List S) (view : D → V) (ok : D → Prop)
    (hmore : ∀ d, more d = true ↔ stack d ≠ [])
    (hstep : ∀ d s ss, ok d → stack d = s :: ss → ∀ v', undoes s (view d) v' →
      ∃ d', step d = some d' ∧ ok d' ∧ stack d' = ss ∧ view d' = v') :
    ∀ (fuel : Nat) (d : D) {v₀ : V}, ok d → LeadsBack undoes (stack d) (view d) v₀ → (stack d).length ≤ fuel →
      ∃ d', Trail.drain more step fuel d = some d' ∧ more d' = false ∧ ok d' ∧ view d' = v₀ := by
  intro fuel
  induction fuel with
  | zero =>
    intro d v₀ hok hl hf
    have hs : stack d = [] := length_eq_zero_iff.1 (Nat.le_zero.1 hf)
    have hm : more d = false := Bool.eq_false_iff.2 (fun h => (hmore d).1 h hs)
    rw [hs] at hl
    exact ⟨d, by rw [Trail.drain, hm]; rfl, hm, hok, hl⟩
  | succ fuel ih =>
    intro d v₀ hok hl hf
    cases hs : stack d with
    | nil =>
      have hm : more d = false := Bool.eq_false_iff.2 (fun h => (hmore d).1 h hs)
      rw [hs] at hl
      exact ⟨d, by rw [Trail.drain, hm]; rfl, hm, hok, hl⟩
    | cons s ss =>
      rw [hs] at hl hf
      obtain ⟨v', hv, hl'⟩ := hl
      obtain ⟨d₁, hd, hok₁, hs₁, hv₁⟩ := hstep d s ss hok hs v' hv
      obtain ⟨d', hd', h⟩ := ih d₁ hok₁ (by rw [hs₁, hv₁]; exact hl') (by
        rw [hs₁]
        exact Nat.le_of_succ_le_succ hf)
      have hm : more d = true := (hmore d).2 (by rw [hs]; exact cons_ne_nil s ss)
      exact ⟨d', by rw [Trail.drain, hm, if_pos rfl, hd]; exact hd', h⟩

/-! ## Back and forth -/

section
variable {undo redo : D → D} (past future : D → List S) (view : D → V)
  (hundo : ∀ d s ss v, past d = s :: ss → undoes s (view d) v →
    view (undo d) = v ∧ past (undo d) = ss ∧ future (undo d) = s :: future d)
  (hredo : ∀ d s ss v, future d = s :: ss → undoes s v (view d) →
    view (redo d) = v ∧ future (redo d) = ss ∧ past (redo d) = s :: past d)
include hundo

theorem LeadsBack.walk_back : ∀ (ss : List S) {d : D} {rest : List S} {v₀ : V}, past d = ss ++ rest →
    LeadsBack undoes ss (view d) v₀ → view (undo^[ss.length] d) = v₀
  | [], _, _, _, _, h => h
  | s :: ss, d, rest, v₀, hp, h => by
    obtain ⟨v, hv, hss⟩ := h
    obtain ⟨h1, h2, -⟩ := hundo d s (ss ++ rest) v hp hv
    rw [length_cons, Function.iterate_succ_apply]
    exact walk_back ss h2 (by rw [h1]; exact hss)

include hredo

/-- **A trail walked back and forth ends where it began.** -/
theorem LeadsBack.walk_forth : ∀ (ss : List S) {d : D} {rest : List S} {v₀ : V}, past d = ss ++ rest →
    LeadsBack undoes ss (view d) v₀ →
    view (redo^[ss.length] (undo^[ss.length] d)) = view d ∧
      future (redo^[ss.length] (undo^[ss.length] d)) = future d
  | [], _, _, _, _, _ => ⟨rfl, rfl⟩
  | s :: ss, d, rest, v₀, hp, h => by
    obtain ⟨v, hv, hss⟩ := h
    obtain ⟨h1, h2, h3⟩ := hundo d s (ss ++ rest) v hp hv
    obtain ⟨h4, h5⟩ := walk_forth ss h2 (by rw [h1]; exact hss)
    rw [length_cons, Function.iterate_succ_apply undo, Function.iterate_succ_apply' redo]
    generalize redo^[ss.length] (undo^[ss.length] (undo d)) = e at h4 h5
    rw [h3] at h5
    obtain ⟨h6, h7, -⟩ := hredo e s (future d) (view d) h5 (by rw [h4, h1]; exact hv)
    exact ⟨h6, h7⟩

end

end Trail
