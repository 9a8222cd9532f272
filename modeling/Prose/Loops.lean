import Mathlib.Data.Option.Basic
/-!
# Loops — a loop whose body may have no outcome

`step` is a loop's body and its test: it goes on with a state, is done with a result, or has no outcome.  `loop` runs it so
many times at most.  Where the body makes something smaller the loop comes to its end, and what is left to say of it is
said of the states it passes (`Reaches`).
-/
namespace Loops

open List

variable {σ ρ : Type} (step : σ → Option (σ ⊕ ρ))

def loop : Nat → σ → Option ρ
  | 0, _     => none
  | n + 1, s =>
    match step s with
    | none          => none
    | some (.inl s) => loop n s
    | some (.inr r) => some r

/-- The states the loop passes from `s` on, `s` among them. -/
inductive Reaches : σ → σ → Prop
  | here (s : σ) : Reaches s s
  | next {s t u : σ} : step s = some (.inl t) → Reaches t u → Reaches s u

variable {step} {Inv Ok : σ → Prop} {size : σ → Nat}

theorem Reaches.inv (hstep : ∀ s t, Inv s → step s = some (.inl t) → Inv t) {s t : σ} (hr : Reaches step s t)
    (hs : Inv s) : Inv t := by
  induction hr with
  | here => exact hs
  | next h _ ih => exact ih (hstep _ _ hs h)

theorem loop_inv (hstep : ∀ s t, Inv s → step s = some (.inl t) → Inv t) {r : ρ} :
    ∀ {n : Nat} {s : σ}, Inv s → loop step n s = some r → ∃ t, Inv t ∧ step t = some (.inr r)
  | 0, s, _, h     => nomatch h
  | n + 1, s, hs, h => by
    unfold loop at h
    split at h
    · exact nomatch h
    · rename_i t ht
      exact loop_inv hstep (hstep _ _ hs ht) h
    · rename_i r' ht
      exact ⟨s, hs, by rw [ht, ← Option.some.inj h]⟩

/-- **A loop that makes something smaller has an outcome exactly if every state it passes has one.** -/
theorem isSome_loop (hsize : ∀ s t, Inv s → step s = some (.inl t) → size t < size s)
    (hstep : ∀ s t, Inv s → step s = some (.inl t) → Inv t) :
    ∀ {n : Nat} {s : σ}, size s < n → Inv s → ((loop step n s).isSome ↔ ∀ t, Reaches step s t → (step t).isSome)
  | 0, s, h, _      => absurd h (Nat.not_lt_zero _)
  | n + 1, s, h, hi => by
    unfold loop
    split
    · rename_i hs
      refine ⟨fun h => absurd h (by simp), fun h => ?_⟩
      have := h s (.here s)
      rw [hs] at this
      exact this
    · rename_i t ht
      rw [isSome_loop hsize hstep (by have := hsize _ _ hi ht; omega) (hstep _ _ hi ht)]
      refine ⟨fun h u hu => ?_, fun h u hu => h u (.next ht hu)⟩
      cases hu with
      | here => rw [ht]; rfl
      | next hs' hu =>
        rw [ht] at hs'
        cases hs'
        exact h u hu
    · rename_i r hr
      refine ⟨fun _ u hu => ?_, fun _ => rfl⟩
      cases hu with
      | here => rw [hr]; rfl
      | next hs' _ =>
        rw [hr] at hs'
        exact absurd (Option.some.inj hs') Sum.inr_ne_inl

/-- A loop that keeps an invariant whose states have outcomes, and makes something smaller, has a result. -/
theorem loop_isSome (hstep : ∀ s t, Inv s → step s = some (.inl t) → Inv t ∧ size t < size s) (hsome : ∀ s, Inv s → (step s).isSome)
    {n : Nat} {s : σ} (hn : size s < n) (hs : Inv s) : (loop step n s).isSome :=
  (isSome_loop (fun s t hs ht => (hstep s t hs ht).2) (fun s t hs ht => (hstep s t hs ht).1) hn hs).2
    fun t ht => hsome t (ht.inv (fun s t hs ht => (hstep s t hs ht).1) hs)

/-- **A loop whose body always has an outcome, and makes something smaller when it goes on, has a result.** -/
theorem loop_total {Q : ρ → Prop}
    (hstep : ∀ s, Inv s → (∃ t, step s = some (.inl t) ∧ Inv t ∧ size t < size s) ∨ ∃ r, step s = some (.inr r) ∧ Q r) :
    ∀ {n : Nat} {s : σ}, size s < n → Inv s → ∃ r, loop step n s = some r ∧ Q r
  | 0, _, h, _      => absurd h (Nat.not_lt_zero _)
  | n + 1, s, h, hs => by
    obtain ⟨t, ht, htinv, hsize⟩ | ⟨r, hr, hq⟩ := hstep s hs
    · obtain ⟨r, hr, hq⟩ := loop_total hstep (Nat.lt_of_lt_of_le hsize (Nat.le_of_lt_succ h)) htinv
      exact ⟨r, by rw [loop, ht]; exact hr, hq⟩
    · exact ⟨r, by rw [loop, hr], hq⟩

theorem loop_endless (hstep : ∀ s, Inv s → step s = none ∨ ∃ t, step s = some (.inl t) ∧ Inv t) :
    ∀ (n : Nat) {s : σ}, Inv s → loop step n s = none
  | 0, _, _      => rfl
  | n + 1, s, hs => by
    obtain h | ⟨t, ht, htinv⟩ := hstep s hs
    · rw [loop, h]
    · rw [loop, ht]
      exact loop_endless hstep n htinv

/-! ## `while` -/

/-- One turn of `while (test) body`. -/
def turn (test : σ → Bool) (body : σ → Option σ) (s : σ) : Option (σ ⊕ σ) :=
  if test s then (body s).map .inl else some (.inr s)

def whileDo (test : σ → Bool) (body : σ → Option σ) : Nat → σ → Option σ := loop (turn test body)

variable {test : σ → Bool} {body : σ → Option σ}

/-- **A body that keeps the invariant and makes something smaller brings the loop to its end.** -/
theorem whileDo_total (Inv : σ → Prop) (size : σ → Nat)
    (hbody : ∀ s, Inv s → test s = true → ∃ t, body s = some t ∧ Inv t ∧ size t < size s) {n : Nat} {s : σ}
    (hn : size s < n) (hs : Inv s) : ∃ r, whileDo test body n s = some r ∧ Inv r ∧ test r = false := by
  refine loop_total (fun s hs => ?_) hn hs
  unfold turn
  by_cases ht : test s = true
  · obtain ⟨t, hb, hinv, hlt⟩ := hbody s hs ht
    exact .inl ⟨t, by rw [if_pos ht, hb, Option.map_some], hinv, hlt⟩
  · exact .inr ⟨s, by rw [if_neg ht], hs, Bool.eq_false_iff.2 ht⟩

theorem whileDo_inv (Inv : σ → Prop) (hbody : ∀ s t, Inv s → test s = true → body s = some t → Inv t) {n : Nat} {s r : σ}
    (hs : Inv s) (h : whileDo test body n s = some r) : Inv r ∧ test r = false := by
  obtain ⟨t, ht, hend⟩ := loop_inv (fun s t (hs : Inv s) ht => by
    unfold turn at ht
    split at ht
    · rename_i htest
      obtain ⟨u, hu, hut⟩ := Option.map_eq_some_iff.1 ht
      rw [← Sum.inl.inj hut]
      exact hbody s u hs htest hu
    · exact absurd (Option.some.inj ht) Sum.inr_ne_inl) hs h
  unfold turn at hend
  split at hend
  · obtain ⟨u, -, hut⟩ := Option.map_eq_some_iff.1 hend
    exact absurd hut Sum.inl_ne_inr
  · rename_i htest
    rw [← Sum.inr.inj (Option.some.inj hend)]
    exact ⟨ht, Bool.eq_false_iff.2 htest⟩

theorem whileDo_endless (Inv : σ → Prop) (hbody : ∀ s, Inv s → test s = true ∧ (body s = none ∨ ∃ t, body s = some t ∧ Inv t)) (n : Nat) {s : σ}
    (hs : Inv s) : whileDo test body n s = none := by
  refine loop_endless (fun s hs => ?_) n hs
  obtain ⟨ht, hb | ⟨t, hb, hinv⟩⟩ := hbody s hs
  · exact .inl (by rw [turn, if_pos ht, hb, Option.map_none])
  · exact .inr ⟨t, by rw [turn, if_pos ht, hb, Option.map_some], hinv⟩

/-! ## A loop over `0`, …, `n - 1` -/

section
variable {α : Type} {f : α → Nat → Option α} (P : Nat → α → Prop)

theorem forRange_inv : ∀ {n : Nat}, (∀ k a b, k < n → P k a → f a k = some b → P (k + 1) b) → ∀ {a b : α}, P 0 a →
    (List.range n).foldlM f a = some b → P n b
  | 0, _, a, b, ha, h => by rwa [← Option.some.inj h]
  | n + 1, hstep, a, b, ha, h => by
    rw [range_succ, foldlM_append] at h
    obtain ⟨c, hc, h⟩ := Option.bind_eq_some_iff.1 h
    obtain ⟨d, hd, h⟩ := Option.bind_eq_some_iff.1 h
    rw [← Option.some.inj h]
    exact hstep n c d (Nat.lt_succ_self n) (forRange_inv (fun k a b hk => hstep k a b (Nat.lt_succ_of_lt hk)) ha hc) hd

theorem forRange_isSome : ∀ {n : Nat}, (∀ k a b, k < n → P k a → f a k = some b → P (k + 1) b) →
    (∀ k a, k < n → P k a → (f a k).isSome) → ∀ {a : α}, P 0 a → ((List.range n).foldlM f a).isSome
  | 0, _, _, _, _ => rfl
  | n + 1, hstep, hsome, a, ha => by
    have hstep' : ∀ k a b, k < n → P k a → f a k = some b → P (k + 1) b := fun k a b hk => hstep k a b (Nat.lt_succ_of_lt hk)
    obtain ⟨b, hb⟩ := Option.isSome_iff_exists.1 (forRange_isSome hstep' (fun k a hk => hsome k a (Nat.lt_succ_of_lt hk)) ha)
    obtain ⟨c, hc⟩ := Option.isSome_iff_exists.1 (hsome n b (Nat.lt_succ_self n) (forRange_inv P hstep' ha hb))
    rw [range_succ, foldlM_append, hb]
    show (List.foldlM f b [n]).isSome
    rw [foldlM_cons, hc]
    rfl

end

end Loops
