import Mathlib.Data.List.Basic
/-!
# Chunks — items written one behind the other

Items are written by `code`, each as something that is not empty.  What has come of the writing so far is the whole of
some items and a part of the next.
-/
namespace Prose
namespace Chunks

open List

variable {α β : Type*} (code : β → List α)

/-- What has come of the next item is not the whole of it; and behind the last there is nothing. -/
def Tail : List β → List α → Prop
  | [], tail     => tail = []
  | x :: _, tail => ∃ more, more ≠ [] ∧ code x = tail ++ more

variable {code}

theorem tail_nil (hcode : ∀ x, code x ≠ []) : ∀ xs : List β, Tail code xs []
  | []     => rfl
  | x :: _ => ⟨code x, hcode x, rfl⟩

/-- **What has come so far** is whole items and the tail. -/
theorem exists_split (hcode : ∀ x, code x ≠ []) : ∀ (xs : List β) (s : List α), s <+: xs.flatMap code →
    ∃ done rest tail, xs = done ++ rest ∧ s = done.flatMap code ++ tail ∧ Tail code rest tail
  | [], s, h => ⟨[], [], s, rfl, rfl, prefix_nil.1 h⟩
  | x :: xs, s, h => by
    rw [flatMap_cons] at h
    rcases prefix_or_prefix_of_prefix h (prefix_append (code x) _) with ⟨more, hmore⟩ | ⟨s', rfl⟩
    · rcases eq_or_ne more [] with rfl | hne
      · rw [append_nil] at hmore
        refine ⟨[x], xs, [], rfl, ?_, ?_⟩
        · rw [flatMap_singleton, append_nil, hmore]
        · exact tail_nil hcode xs
      · exact ⟨[], x :: xs, s, rfl, rfl, more, hne, hmore.symm⟩
    · obtain ⟨done, rest, tail, rfl, rfl, ht⟩ := exists_split hcode xs s' ((prefix_append_right_inj _).1 h)
      exact ⟨x :: done, rest, tail, rfl, by rw [flatMap_cons, append_assoc], ht⟩

theorem all_of_flatMap_eq {done rest : List β} {tail : List α} (ht : Tail code rest tail)
    (h : (done ++ rest).flatMap code = done.flatMap code ++ tail) : rest = [] ∧ tail = [] := by
  rw [flatMap_append, append_cancel_left_eq] at h
  cases rest with
  | nil => exact ⟨rfl, ht⟩
  | cons x xs =>
    obtain ⟨more, hne, hx⟩ := ht
    rw [flatMap_cons, hx, append_assoc] at h
    have hlen := congrArg List.length h
    rw [length_append, length_append] at hlen
    exact absurd (length_eq_zero_iff.1 (by omega)) hne

theorem length_le_flatMap (hcode : ∀ x, 0 < (code x).length) : ∀ xs : List β, xs.length ≤ (xs.flatMap code).length
  | []      => Nat.le_refl _
  | x :: xs => by
    have := hcode x
    have := length_le_flatMap hcode xs
    rw [flatMap_cons, length_append, length_cons]
    omega

end Chunks
end Prose
