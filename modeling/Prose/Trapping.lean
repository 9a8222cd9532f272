import Mathlib.Data.Int.Order.Lemmas
import Mathlib.Tactic.Ring
/-!
# Trapping — 64-bit arithmetic that stops at an overflow

The operators of a language whose `Int` is a signed 64-bit number and whose arithmetic has no outcome, a trap, where the
result is not one, and where a divisor is 0.  A number is an integer, and `none` is the trap.  `when p x` is a computation
that does nothing but trap unless `p`: what an operation comes to is said as one `when`.
-/
namespace Trapping

open List

/-- `Int.min` and `Int.max` are the bounds. -/
def Fits (x : Int) : Prop := -9223372036854775808 ≤ x ∧ x ≤ 9223372036854775807

instance : DecidablePred Fits := fun _ => inferInstanceAs (Decidable (_ ∧ _))

/-- `x` if `p`, a trap otherwise. -/
def when {α : Type} (p : Prop) [Decidable p] (x : α) : Option α := if p then some x else none

def fit (x : Int) : Option Int := when (Fits x) x

def add (a b : Int) : Option Int := fit (a + b)

def sub (a b : Int) : Option Int := fit (a - b)

def mul (a b : Int) : Option Int := fit (a * b)

/-- `/`, which cuts towards 0. -/
def quot (a b : Int) : Option Int := if b = 0 then none else fit (a.tdiv b)

/-- `%`; the overflow of the quotient traps here too. -/
def rem (a b : Int) : Option Int := if b = 0 then none else when (Fits (a.tdiv b)) (a.tmod b)

section

variable {α β : Type} {p q : Prop} [Decidable p] [Decidable q]

theorem when_eq_some {x y : α} : when p x = some y ↔ p ∧ x = y := by
  unfold when
  split <;> simp [*]

theorem when_of {x : α} (h : p) : when p x = some x := if_pos h

theorem when_not {x : α} (h : ¬ p) : when p x = none := if_neg h

theorem eq_when {o : Option α} {x : α} (hp : p → o = some x) (hn : ¬ p → o = none) : o = when p x := by
  by_cases h : p
  · rw [hp h, when_of h]
  · rw [hn h, when_not h]

theorem when_bind {x : α} (f : α → Option β) : (when p x >>= f) = if p then f x else none := by
  unfold when
  split <;> rfl

theorem when_bind_when {x : α} (f : α → Option β) {y : β} (hf : f x = when q y) :
    (when p x >>= f) = when (p ∧ q) y := by
  rw [when_bind, hf]
  unfold when
  split <;> split <;> simp_all

theorem mapM_when {P : α → Prop} [DecidablePred P] {f : α → Option β} {g : α → β} : ∀ {l : List α},
    (∀ x ∈ l, f x = when (P x) (g x)) → l.mapM f = when (∀ x ∈ l, P x) (l.map g)
  | [], _     => (when_of (fun _ h => absurd h not_mem_nil)).symm
  | x :: l, h => by
    rw [mapM_cons, h x mem_cons_self, mapM_when (fun y hy => h y (mem_cons_of_mem x hy))]
    refine eq_when (fun hp => ?_) (fun hp => ?_)
    · rw [when_of (hp x mem_cons_self), when_of (fun y hy => hp y (mem_cons_of_mem x hy))]
      rfl
    · rw [forall_mem_cons, not_and_or] at hp
      rcases hp with hp | hp
      · rw [when_not hp]
        rfl
      · rw [when_not hp]
        cases when (P x) (g x) <;> rfl

end

theorem add_eq_some {a b c : Int} : add a b = some c ↔ Fits (a + b) ∧ a + b = c := when_eq_some

theorem sub_eq_some {a b c : Int} : sub a b = some c ↔ Fits (a - b) ∧ a - b = c := when_eq_some

theorem mul_eq_some {a b c : Int} : mul a b = some c ↔ Fits (a * b) ∧ a * b = c := when_eq_some

theorem Fits.tdiv {a b : Int} (ha : Fits a) (hb : 0 < b) : Fits (a.tdiv b) := by
  have habs := Int.natAbs_tdiv_le_natAbs a b
  have hneg : a ≤ 0 → a.tdiv b ≤ 0 := fun h => by
    have hq : 0 ≤ (-a).tdiv b := Int.tdiv_nonneg (by omega) hb.le
    rw [Int.neg_tdiv] at hq
    omega
  have hpos : 0 ≤ a → 0 ≤ a.tdiv b := fun h => Int.tdiv_nonneg h hb.le
  obtain ⟨hlo, hhi⟩ := ha
  refine ⟨?_, ?_⟩ <;> omega

theorem quot_of_pos {a b : Int} (ha : Fits a) (hb : 0 < b) : quot a b = some (a.tdiv b) := by
  unfold quot
  rw [if_neg hb.ne']
  exact when_of (ha.tdiv hb)

theorem mul_quot {a b d : Int} (hd : 0 < d) : (mul a b >>= fun x => quot x d) = when (Fits (a * b)) ((a * b).tdiv d) := by
  unfold mul fit
  rw [when_bind]
  unfold when
  split
  · rename_i h
    exact quot_of_pos h hd
  · rfl

theorem mul_quot_map {α : Type} {a b d : Int} (hd : 0 < d) (f : Int → α) :
    (do let x ← mul a b; let y ← quot x d; some (f y)) = when (Fits (a * b)) (f ((a * b).tdiv d)) := by
  unfold mul fit
  rw [when_bind]
  unfold when
  split
  · rename_i h
    rw [quot_of_pos h hd]
    rfl
  · rfl

/-! ## Numbers that are not negative -/

/-- `Int.max`. -/
def top : Nat := 9223372036854775807

def word (n : Nat) : Option Nat := when (n ≤ top) n

def plus (a b : Nat) : Option Nat := word (a + b)

def times (a b : Nat) : Option Nat := word (a * b)

end Trapping
