import Mathlib.Algebra.BigOperators.Group.List.Basic
/-!
# Tasks — programs of actions, and what they owe

A program is a tree of actions, each with an answer.  Every thread has a debt: what it holds of the state they share, and has
to give back.  `Settles` says of one program that it does no action it has no right to, and what it owes in the end; `Owes`
says it of a pool of them that end owing nothing.  Whoever does an action changes no debt but his own, so an invariant that
ties the state to the debts is kept by any order of steps (`Owes.step`), and a sum over them changes in one part only.
-/
namespace Tasks

open List

inductive Prog (A : Type) (R : A → Type) (α : Type)
  | pure (x : α)
  | act (a : A) (k : R a → Prog A R α)

variable {A : Type} {R : A → Type} {α β : Type}

namespace Prog

def bind : Prog A R α → (α → Prog A R β) → Prog A R β
  | pure x, f  => f x
  | act a k, f => act a fun r => (k r).bind f

instance : Monad (Prog A R) where
  pure := Prog.pure
  bind := Prog.bind

def one (a : A) : Prog A R (R a) := act a Prog.pure

def done : Prog A R Unit → Bool
  | pure _  => true
  | act _ _ => false

end Prog

section

variable {G : Type} (ready : A → G → Prop) (after : (a : A) → R a → G → G) (may : (a : A) → R a → Prop)

/-- **With a debt of `g`, every action is one the debt gives a right to**, whatever the answers that may come, and `Q` holds
of the result and of the debt then. -/
def Settles : Prog A R α → G → (α → G → Prop) → Prop
  | .pure x, g, Q  => Q x g
  | .act a k, g, Q => ready a g ∧ ∀ r, may a r → Settles (k r) (after a r g) Q

variable {ready after may}

theorem settles_one {a : A} {g : G} {Q : R a → G → Prop} :
    Settles ready after may (Prog.one a) g Q ↔ ready a g ∧ ∀ r, may a r → Q r (after a r g) := Iff.rfl

theorem settles_bind {f : α → Prog A R β} {Q : β → G → Prop} : ∀ {p : Prog A R α} {g : G},
    Settles ready after may (p >>= f) g Q ↔
      Settles ready after may p g fun x g => Settles ready after may (f x) g Q
  | .pure _, _  => Iff.rfl
  | .act a k, g => and_congr_right fun _ => forall_congr' fun r => imp_congr_right fun _ =>
      settles_bind (p := k r) (g := after a r g)

end

section

variable {G : Type} (ready : A → G → Prop) (after : (a : A) → R a → G → G) (may : (a : A) → R a → Prop) (clear : G → Prop)

def Honest (p : Prog A R Unit) (g : G) : Prop := Settles ready after may p g fun _ g => clear g

/-- **The threads of a pool, and what each owes.** -/
def Owes (ps : List (Prog A R Unit)) (gs : List G) : Prop := List.Forall₂ (Honest ready after may clear) ps gs

variable {ready after may clear}

theorem Owes.append {p : Prog A R Unit} {g : G} {ps : List (Prog A R Unit)} {gs : List G} (h : Owes ready after may clear ps gs)
    (hp : Honest ready after may clear p g) : Owes ready after may clear (ps ++ [p]) (gs ++ [g]) :=
  rel_append h (.cons hp .nil)

theorem Owes.done : ∀ {ps : List (Prog A R Unit)} {gs : List G}, Owes ready after may clear ps gs →
    (∀ p ∈ ps, p.done = true) → ∀ g ∈ gs, clear g
  | [], _, .nil, _, _, hg => nomatch hg
  | p :: _, _, .cons h ht, hd, g, hg => by
    rcases mem_cons.1 hg with rfl | hg
    · cases p with
      | pure x  => exact h
      | act a k => exact nomatch hd _ mem_cons_self
    · exact Owes.done ht (fun q hq => hd q (mem_cons_of_mem _ hq)) g hg

/-- **One of the threads, and the others**: whatever it goes on with takes its place, and its debt that of its own. -/
theorem Owes.step : ∀ {ps : List (Prog A R Unit)} {gs : List G} {i : Nat} {p : Prog A R Unit},
    Owes ready after may clear ps gs → ps[i]? = some p → ∃ g, gs[i]? = some g ∧ Honest ready after may clear p g ∧
      ∀ {q : Prog A R Unit} {g' : G}, Honest ready after may clear q g' → Owes ready after may clear (ps.set i q) (gs.set i g')
  | _, _, _, _, .nil, hi => nomatch hi
  | _, _, 0, _, .cons h ht, hi => by
    cases hi
    exact ⟨_, rfl, h, fun hq => .cons hq ht⟩
  | _, _, i + 1, _, .cons h ht, hi => by
    obtain ⟨g, hg, hp, hset⟩ := Owes.step (i := i) ht hi
    exact ⟨g, hg, hp, fun hq => .cons h (hset hq)⟩

/-- **What holds of each thread**: one's own part anew, the others' because it is not theirs that changes. -/
theorem each_set {H K : Nat → G → Prop} {gs : List G} {i : Nat} {g' : G} (h : ∀ j g, gs[j]? = some g → H j g) (own : K i g')
    (others : ∀ j g, j ≠ i → H j g → K j g) (j : Nat) (g : G) (hg : (gs.set i g')[j]? = some g) : K j g := by
  by_cases hj : j = i
  · subst hj
    rw [getElem?_set_self'] at hg
    obtain ⟨_, _, rfl⟩ := Option.map_eq_some_iff.1 hg
    exact own
  · rw [getElem?_set_ne (Ne.symm hj)] at hg
    exact others j g hj (h j g hg)

theorem each_append {H K : Nat → G → Prop} {gs : List G} {g' : G} (h : ∀ j g, gs[j]? = some g → H j g) (own : K gs.length g')
    (others : ∀ j g, H j g → K j g) (j : Nat) (g : G) (hg : (gs ++ [g'])[j]? = some g) : K j g := by
  rcases Nat.lt_or_ge j gs.length with hj | hj
  · rw [getElem?_append_left hj] at hg
    exact others j g (h j g hg)
  rw [getElem?_append_right hj] at hg
  rw [getElem?_singleton] at hg
  obtain ⟨hz, hg⟩ := Option.ite_none_right_eq_some.1 hg
  rw [show j = gs.length by omega, ← Option.some.inj hg]
  exact own

/-- **A sum over the debts** is one's own part and the rest, and the rest stays. -/
theorem sum_rest {M : Type} [AddCommMonoid M] (f : G → M) {g : G} : ∀ {gs : List G} {i : Nat}, gs[i]? = some g →
    ∃ rest, (gs.map f).sum = f g + rest ∧ ∀ g', ((gs.set i g').map f).sum = f g' + rest
  | [], _, h => nomatch h
  | h :: gs, 0, hi => by
    cases hi
    exact ⟨(gs.map f).sum, by rw [map_cons, sum_cons], fun g' => by
      rw [set_cons_zero, map_cons, sum_cons]⟩
  | h :: gs, i + 1, hi => by
    obtain ⟨rest, hsum, hset⟩ := sum_rest f (i := i) hi
    refine ⟨f h + rest, ?_, fun g' => ?_⟩
    · rw [map_cons, sum_cons, hsum, add_left_comm]
    · rw [set_cons_succ, map_cons, sum_cons, hset g', add_left_comm]

theorem sum_append {M : Type} [AddCommMonoid M] (f : G → M) (gs : List G) (g : G) :
    ((gs ++ [g]).map f).sum = (gs.map f).sum + f g := by
  rw [map_append, List.sum_append]
  simp

end

end Tasks
