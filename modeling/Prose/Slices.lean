import Mathlib.Data.Set.Function
/-!
# Slices — a run, and the same run with some of its actions left out

A state gives each field a value.  An action says which fields' values go into a field's new value.  Leaving an action out leaves the
fields stale that it would have changed; a field whose new value depends on no stale one is not stale any more.
-/
namespace Slices

variable {φ ν : Type*}

/-- What an action does, and the fields whose values go into a field's new one, in a given state. -/
structure Action (φ ν : Type*) where
  run : (φ → ν) → φ → ν
  deps : (φ → ν) → φ → Set φ
  law : ∀ s t f, Set.EqOn s t (deps s f) → run s f = run t f

namespace Action

def id : Action φ ν := ⟨fun s => s, fun _ f => {f}, fun _ _ _ h => h rfl⟩

def comp (a b : Action φ ν) : Action φ ν where
  run s := b.run (a.run s)
  deps s f := {g | ∃ k ∈ b.deps (a.run s) f, g ∈ a.deps s k}
  law s t f h := b.law _ _ f fun k hk => a.law s t k fun _ hg => h ⟨k, hk, hg⟩

variable [DecidableEq φ]

def assign (p : φ → Option ν) : Action φ ν where
  run s f := (p f).getD (s f)
  deps _ f := {g | p f = none ∧ g = f}
  law s t f h := by
    cases hp : p f with
    | none => exact h ⟨hp, rfl⟩
    | some v => rfl

def set (f : φ) (v : ν) : Action φ ν := assign fun g => if g = f then some v else none

@[simp] theorem run_set (f : φ) (v : ν) (s : φ → ν) : (set f v).run s = Function.update s f v := by
  funext g
  by_cases hg : g = f
  · simp [set, assign, hg]
  · simp [set, assign, hg]

def copy (f g : φ) : Action φ ν where
  run s k := if k = f then s g else s k
  deps _ k := {j | j = if k = f then g else k}
  law s t k h := by
    have := h rfl
    split
    · next hk => rwa [if_pos hk] at this
    · next hk => rwa [if_neg hk] at this

def update (f : φ) (g : ν → ν) : Action φ ν where
  run s k := if k = f then g (s k) else s k
  deps _ k := {k}
  law s t k h := by rw [h rfl]

omit [DecidableEq φ] in
def choose {κ : Type*} (sel : (φ → ν) → κ) (reads : Set φ) (hsel : ∀ s t, Set.EqOn s t reads → sel s = sel t)
    (a : κ → Action φ ν) : Action φ ν where
  run s := (a (sel s)).run s
  deps s f := reads ∪ (a (sel s)).deps s f
  law s t f h := by
    rw [← hsel s t (h.mono Set.subset_union_left)]
    exact (a (sel s)).law s t f (h.mono Set.subset_union_right)

end Action

def Action.onPart {ι : Type*} [DecidableEq ι] (a : Action φ ν) (i : ι) : Action (ι × φ) ν where
  run s x := if x.1 = i then a.run (fun f => s (i, f)) x.2 else s x
  deps s x := if x.1 = i then {y | y.1 = i ∧ y.2 ∈ a.deps (fun f => s (i, f)) x.2} else {x}
  law s t x h := by
    split
    · next hx =>
      rw [if_pos hx] at h
      exact a.law _ _ _ fun f hf => h ⟨rfl, hf⟩
    · next hx =>
      rw [if_neg hx] at h
      exact h rfl

theorem Action.run_onPart {ι : Type*} [DecidableEq ι] (i : ι) (a : Action φ ν) (s : ι × φ → ν) (f : φ) :
    (a.onPart i).run s (i, f) = a.run (fun g => s (i, g)) f := if_pos rfl

/-! ## Runs -/

def runAll : List (Action φ ν × Bool) → (φ → ν) → φ → ν
  | [], s           => s
  | (a, _) :: as, s => runAll as (a.run s)

def runKept : List (Action φ ν × Bool) → (φ → ν) → φ → ν
  | [], s               => s
  | (a, true) :: as, s  => runKept as (a.run s)
  | (_, false) :: as, s => runKept as s

/-- The fields that are stale in the end, when these are in the beginning. -/
def stale : List (Action φ ν × Bool) → (φ → ν) → Set φ → Set φ
  | [], _, T               => T
  | (a, true) :: as, s, T  => stale as (a.run s) {f | ∃ g ∈ a.deps s f, g ∈ T}
  | (a, false) :: as, s, T => stale as (a.run s) {f | f ∈ T ∨ a.run s f ≠ s f}

theorem stale_of_kept : ∀ {as : List (Action φ ν × Bool)} (s : φ → ν), (∀ a ∈ as, a.2 = true) → stale as s ∅ = ∅
  | [], _, _                => rfl
  | (a, true) :: as, s, h   => by
    have hnone : {f | ∃ g ∈ a.deps s f, g ∈ (∅ : Set φ)} = ∅ := by
      ext f
      simp
    rw [stale, hnone]
    exact stale_of_kept _ fun b hb => h b (.tail _ hb)
  | (a, false) :: _, _, h   => absurd (h (a, false) (.head _)) (by simp)

/-- **What is not stale is as if nothing had been left out.** -/
theorem eqOn_of_stale : ∀ {as : List (Action φ ν × Bool)} {s t : φ → ν} {T : Set φ}, Set.EqOn s t Tᶜ →
    Set.EqOn (runAll as s) (runKept as t) (stale as s T)ᶜ
  | [], _, _, _, h => h
  | (a, true) :: as, s, t, T, h => by
    refine @eqOn_of_stale as _ _ _ fun f hf => a.law s t f fun g hg => h fun hT => hf ⟨g, hg, hT⟩
  | (a, false) :: as, s, t, T, h => by
    refine @eqOn_of_stale as _ _ _ fun f hf => ?_
    have hsame : a.run s f = s f := by
      by_contra hne
      exact hf (.inr hne)
    rw [hsame]
    exact h fun hT => hf (.inl hT)

end Slices
