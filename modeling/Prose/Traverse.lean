import Mathlib.Data.List.Forall2
/-!
# Traverse — a fallible function along a list

What `mapM` gives in `Option`, and the first element of a list that answers to a key no other has.
-/
namespace Traverse

open List

variable {α β : Type*}

theorem forall₂_of_mapM {f : α → Option β} : ∀ {l : List α} {ys : List β}, l.mapM f = some ys →
    List.Forall₂ (fun a b => f a = some b) l ys
  | [], _, h => by
    cases h
    exact List.Forall₂.nil
  | a :: l, ys, h => by
    rw [mapM_cons, Option.bind_eq_bind, Option.bind_eq_some_iff] at h
    obtain ⟨b, hb, h⟩ := h
    rw [Option.bind_eq_bind, Option.bind_eq_some_iff] at h
    obtain ⟨bs, hbs, h⟩ := h
    cases h
    exact List.Forall₂.cons hb (forall₂_of_mapM hbs)

theorem exists_of_mapM_none {f : α → Option β} : ∀ {l : List α}, l.mapM f = none → ∃ a ∈ l, f a = none
  | [], h => by cases h
  | a :: l, h => by
    cases ha : f a with
    | none => exact ⟨a, mem_cons_self, ha⟩
    | some b =>
      cases hl : l.mapM f with
      | none =>
        obtain ⟨c, hc, hnone⟩ := exists_of_mapM_none hl
        exact ⟨c, mem_cons_of_mem a hc, hnone⟩
      | some bs =>
        rw [mapM_cons, ha, Option.bind_eq_bind, Option.bind_some, hl] at h
        cases h

theorem getElem?_of_forall₂ {r : α → β → Prop} : ∀ {l : List α} {l' : List β}, List.Forall₂ r l l' →
    ∀ {i : Nat} {a : α}, l[i]? = some a → ∃ b, l'[i]? = some b ∧ r a b
  | _, _, List.Forall₂.cons h _, 0, _, hi => by
    cases hi
    exact ⟨_, rfl, h⟩
  | _, _, List.Forall₂.cons _ ht, i + 1, _, hi => getElem?_of_forall₂ ht hi

theorem find?_of_unique {l : List α} {p : α → Bool} {i : Nat} {a : α} (hi : l[i]? = some a) (hp : p a = true)
    (hu : ∀ j b, l[j]? = some b → p b = true → j = i) : l.find? p = some a := by
  obtain ⟨hlt, rfl⟩ := List.getElem?_eq_some_iff.1 hi
  refine find?_eq_some_iff_getElem.2 ⟨hp, i, hlt, rfl, fun j hj => ?_⟩
  rw [Bool.not_eq_true', Bool.eq_false_iff]
  exact fun hpj => absurd (hu j _ (getElem?_eq_getElem (Nat.lt_trans hj hlt)) hpj) (Nat.ne_of_lt hj)

end Traverse
