import Mathlib.Data.List.TakeWhile
/-!
# Pieces — a list in pieces, and a symbol that is a piece of its own

What is done to the pieces is done to the list, as far as the symbol it goes by never shares a piece.
-/
namespace Pieces

open List

variable {α : Type*} {d : α}

/-- **A symbol that stands alone is where the pieces can be cut.** -/
theorem cut_at : ∀ {cs : List (List α)} {a b : List α}, (∀ c ∈ cs, d ∈ c → c = [d]) → cs.flatten = a ++ d :: b →
    ∃ before behind, cs = before ++ [d] :: behind ∧ before.flatten = a ∧ behind.flatten = b
  | [], a, b, _, h => absurd h.symm (append_ne_nil_of_right_ne_nil a (cons_ne_nil d b))
  | c :: cs, a, b, hstand, h => by
    rw [flatten_cons] at h
    obtain ⟨a', rfl, hrest⟩ | ⟨x, rfl, hrest⟩ := append_eq_append_iff.1 h
    · obtain ⟨before, behind, rfl, rfl, rfl⟩ := cut_at (fun x hx => hstand x (mem_cons_of_mem _ hx)) hrest
      exact ⟨c :: before, behind, rfl, rfl, rfl⟩
    cases x with
    | nil =>
      obtain ⟨before, behind, rfl, hbefore, rfl⟩ :=
        cut_at (a := []) (b := b) (fun x hx => hstand x (mem_cons_of_mem _ hx)) hrest.symm
      refine ⟨(a ++ []) :: before, behind, rfl, ?_, rfl⟩
      rw [flatten_cons, hbefore, append_nil, append_nil]
    | cons y x =>
      obtain ⟨rfl, rfl⟩ := List.cons.inj hrest
      have hc := hstand _ mem_cons_self (mem_append_right a mem_cons_self)
      obtain ⟨rfl, hx⟩ | ⟨-, hx⟩ := append_eq_singleton_iff.1 hc
      · obtain ⟨-, rfl⟩ := List.cons.inj hx
        exact ⟨[], cs, rfl, rfl, rfl⟩
      · exact absurd hx (cons_ne_nil _ _)

variable [DecidableEq α]

theorem takeWhile_flatten : ∀ {cs : List (List α)}, (∀ c ∈ cs, d ∈ c → c = [d]) →
    (cs.takeWhile (· ≠ [d])).flatten = cs.flatten.takeWhile (· ≠ d)
  | [], _ => rfl
  | c :: cs, h => by
    by_cases hc : d ∈ c
    · obtain rfl := h c mem_cons_self hc
      rw [takeWhile_cons_of_neg (by simp), flatten_cons, singleton_append, takeWhile_cons_of_neg (by simp)]
      rfl
    have hne : decide (c ≠ [d]) = true := decide_eq_true fun he => hc (he ▸ mem_singleton_self d)
    have hall : ∀ x ∈ c, decide (x ≠ d) = true := fun x hx => decide_eq_true fun he => hc (he ▸ hx)
    rw [takeWhile_cons_of_pos (by exact hne), flatten_cons, flatten_cons,
      takeWhile_flatten (fun x hx => h x (mem_cons_of_mem _ hx)), takeWhile_append_of_pos hall]

theorem dropWhile_flatten : ∀ {cs : List (List α)}, (∀ c ∈ cs, d ∈ c → c = [d]) →
    (cs.dropWhile (· ≠ [d])).flatten = cs.flatten.dropWhile (· ≠ d)
  | [], _ => rfl
  | c :: cs, h => by
    by_cases hc : d ∈ c
    · obtain rfl := h c mem_cons_self hc
      rw [dropWhile_cons_of_neg (by simp), flatten_cons, singleton_append, dropWhile_cons_of_neg (by simp)]
    have hne : decide (c ≠ [d]) = true := decide_eq_true fun he => hc (he ▸ mem_singleton_self d)
    have hall : ∀ x ∈ c, decide (x ≠ d) = true := fun x hx => decide_eq_true fun he => hc (he ▸ hx)
    rw [dropWhile_cons_of_pos (by exact hne), flatten_cons, dropWhile_flatten (fun x hx => h x (mem_cons_of_mem _ hx)),
      dropWhile_append_of_pos hall]

end Pieces
