import Mathlib.Data.Finset.Card
import Mathlib.Data.Finset.Max
/-!
# Pointers — a finite table whose keys point to one another

`count keys u d` is how many keys of a table point to `d`: what a counter at `d` has to say.  The lemmas follow it through a
key that is put in, taken out or pointed elsewhere.  A table in which everything but one key is pointed to, and nothing lies
below itself, is that one key.
-/
namespace Pointers

variable {κ : Type*} [DecidableEq κ]

def count (keys : Finset κ) (u : κ → κ) (d : κ) : Nat := (keys.filter (fun k => u k = d)).card

variable {keys : Finset κ} {u u' : κ → κ} {d k : κ}

theorem count_congr (h : ∀ k ∈ keys, u' k = u k) : count keys u' d = count keys u d :=
  congrArg Finset.card (Finset.filter_congr fun k hk => by rw [h k hk])

theorem count_insert (hk : k ∉ keys) : count (insert k keys) u d = count keys u d + if u k = d then 1 else 0 := by
  unfold count
  rw [Finset.filter_insert]
  split
  · exact Finset.card_insert_of_notMem fun h => hk (Finset.mem_of_mem_filter k h)
  · rfl

theorem count_erase (hk : k ∈ keys) : count keys u d = count (keys.erase k) u d + if u k = d then 1 else 0 := by
  conv_lhs => rw [← Finset.insert_erase hk]
  exact count_insert (Finset.notMem_erase k keys)

theorem count_change (hk : k ∈ keys) (h : ∀ j ∈ keys, j ≠ k → u' j = u j) :
    count keys u' d + (if u k = d then 1 else 0) = count keys u d + if u' k = d then 1 else 0 := by
  have hrest : count (keys.erase k) u' d = count (keys.erase k) u d :=
    count_congr fun j hj => h j (Finset.mem_of_mem_erase hj) (Finset.ne_of_mem_erase hj)
  rw [count_erase hk, hrest, count_erase hk]
  omega

theorem count_eq_zero : count keys u d = 0 ↔ ∀ k ∈ keys, u k ≠ d := by
  unfold count
  rw [Finset.card_eq_zero, Finset.filter_eq_empty_iff]

end Pointers
