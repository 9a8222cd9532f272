import Mathlib.Data.List.Basic
/-!
# Matching — the leftmost scan of a text

A match stands in front of a text or does not, and is `n` symbols long.  The scan goes from left to right and, behind a match, on with
what follows it.
-/
namespace Matching

open List

variable {α : Type*} (p : List α → Bool) (n : Nat)

def first : List α → Option Nat
  | []      => none
  | t :: ts => if p (t :: ts) then some 0 else (first ts).map (· + 1)

/-- The text with the matches of the scan replaced; the scan is inside a match for so many symbols. -/
def replaced (r : List α) : Nat → List α → List α
  | _, []          => []
  | k + 1, _ :: ts => replaced r k ts
  | 0, t :: ts     => if p (t :: ts) then r ++ replaced r (n - 1) ts else t :: replaced r 0 ts

def count : Nat → List α → Nat
  | _, []          => 0
  | k + 1, _ :: ts => count k ts
  | 0, t :: ts     => if p (t :: ts) then count (n - 1) ts + 1 else count 0 ts

theorem replaced_cons (r : List α) (t : α) (ts : List α) :
    replaced p n r 0 (t :: ts) = if p (t :: ts) then r ++ replaced p n r (n - 1) ts else t :: replaced p n r 0 ts := rfl

theorem count_cons (t : α) (ts : List α) :
    count p n 0 (t :: ts) = if p (t :: ts) then count p n (n - 1) ts + 1 else count p n 0 ts := rfl

theorem replaced_skip (r : List α) : ∀ (k : Nat) (ts : List α), replaced p n r k ts = replaced p n r 0 (ts.drop k)
  | 0, _ => rfl
  | _ + 1, [] => rfl
  | k + 1, _ :: ts => replaced_skip r k ts

theorem count_skip : ∀ (k : Nat) (ts : List α), count p n k ts = count p n 0 (ts.drop k)
  | 0, _ => rfl
  | _ + 1, [] => rfl
  | k + 1, _ :: ts => count_skip k ts

variable {p n}

/-- **No match**: the text is as it was. -/
theorem replaced_none (r : List α) : ∀ {ts : List α}, first p ts = none → replaced p n r 0 ts = ts ∧ count p n 0 ts = 0
  | [], _ => ⟨rfl, rfl⟩
  | t :: ts, h => by
    unfold first at h
    split at h
    · exact nomatch h
    rename_i ht
    obtain ⟨h1, h2⟩ := replaced_none r (Option.map_eq_none_iff.1 h)
    rw [replaced_cons, count_cons, if_neg ht, if_neg ht, h1, h2]
    exact ⟨rfl, rfl⟩

/-- **The first match is replaced**, and the scan goes on behind it. -/
theorem replaced_first (hn : 0 < n) (r : List α) : ∀ {ts : List α} {i : Nat}, first p ts = some i →
    replaced p n r 0 ts = ts.take i ++ (r ++ replaced p n r 0 (ts.drop (i + n))) ∧ count p n 0 ts = count p n 0 (ts.drop (i + n)) + 1
  | t :: ts, i, h => by
    unfold first at h
    rw [replaced_cons, count_cons]
    split at h
    · next ht =>
      cases h
      obtain ⟨m, rfl⟩ := Nat.exists_eq_add_of_lt hn
      rw [if_pos ht, if_pos ht, replaced_skip, count_skip, Nat.zero_add, Nat.zero_add, Nat.add_sub_cancel, drop_succ_cons]
      exact ⟨rfl, rfl⟩
    rename_i ht
    obtain ⟨j, hj, rfl⟩ := Option.map_eq_some_iff.1 h
    obtain ⟨h1, h2⟩ := replaced_first hn r hj
    rw [if_neg ht, if_neg ht, h1, h2, Nat.add_right_comm, drop_succ_cons]
    exact ⟨rfl, rfl⟩

theorem first_le (hp : ∀ ts, p ts = true → n ≤ ts.length) : ∀ {ts : List α} {i : Nat}, first p ts = some i → i + n ≤ ts.length
  | t :: ts, i, h => by
    unfold first at h
    split at h
    · next ht =>
      cases h
      rw [Nat.zero_add]
      exact hp _ ht
    obtain ⟨j, hj, rfl⟩ := Option.map_eq_some_iff.1 h
    have := first_le hp hj
    rw [length_cons]
    omega

theorem first_behind : ∀ {a b : List α}, (∀ i < a.length, p (a.drop i ++ b) = false) → first p (a ++ b) = (first p b).map (· + a.length)
  | [], b, _ => by
    rw [nil_append]
    exact (Option.map_id' (x := first p b)).symm
  | t :: a, b, h => by
    have hhead : p (t :: (a ++ b)) = false := h 0 (Nat.succ_pos _)
    have hrest := first_behind (a := a) (b := b) (fun i hi => h (i + 1) (Nat.succ_lt_succ hi))
    show (if p (t :: (a ++ b)) then some 0 else (first p (a ++ b)).map (· + 1)) = _
    rw [hhead, hrest, if_neg Bool.false_ne_true, Option.map_map]
    rfl

/-- **What comes behind a text changes no match in it.** -/
theorem first_append (hp : ∀ a b, n ≤ a.length → p (a ++ b) = p a) : ∀ {a : List α} (b : List α) {i : Nat}, first p a = some i →
    i + n ≤ a.length → first p (a ++ b) = some i
  | t :: a, b, i, h, hi => by
    have hsame : p (t :: (a ++ b)) = p (t :: a) := hp (t :: a) b (by omega)
    unfold first at h
    show (if p (t :: (a ++ b)) then some 0 else (first p (a ++ b)).map (· + 1)) = _
    rw [hsame]
    split at h
    · next ht => rwa [if_pos ht]
    rename_i ht
    obtain ⟨j, hj, rfl⟩ := Option.map_eq_some_iff.1 h
    rw [if_neg ht, first_append hp b hj (by rw [length_cons] at hi; omega)]
    rfl

theorem first_of_append (hp : ∀ a b, n ≤ a.length → p (a ++ b) = p a) (hn : 0 < n) : ∀ {a b : List α} {i : Nat},
    first p (a ++ b) = some i → i + n ≤ a.length → first p a = some i
  | [], b, i, h, hi => absurd hi (by rw [length_nil]; omega)
  | t :: a, b, i, h, hi => by
    have hsame : p (t :: (a ++ b)) = p (t :: a) := hp (t :: a) b (by omega)
    change (if p (t :: (a ++ b)) then some 0 else (first p (a ++ b)).map (· + 1)) = _ at h
    show (if p (t :: a) then some 0 else (first p a).map (· + 1)) = _
    rw [hsame] at h
    split at h
    · next ht => rwa [if_pos ht]
    rename_i ht
    obtain ⟨j, hj, rfl⟩ := Option.map_eq_some_iff.1 h
    rw [if_neg ht, first_of_append hp hn hj (by rw [length_cons] at hi; omega)]
    rfl

end Matching
