import Mathlib.Algebra.GroupWithZero.Nat
import Mathlib.Data.List.Nodup
import Mathlib.Data.List.Perm.Subperm
import Mathlib.Order.Basic
/-!
# Cuts — an interval cut at increasing places

`starts` cuts `[0, n)`: each start owns the numbers from itself up to the next one, the last one those up to `n`.  Every number has one
owner, and halving the list finds it.
-/
namespace Cuts

open List

variable {starts : List Nat} {n : Nat}

/-- Where what the `i`-th start owns ends. -/
def stop (starts : List Nat) (n i : Nat) : Nat := (starts[i + 1]?).getD n

/-- The `i`-th start owns `o`. -/
def Owns (starts : List Nat) (n i o : Nat) : Prop := ∃ s, starts[i]? = some s ∧ s ≤ o ∧ o < stop starts n i

structure Covers (starts : List Nat) (n : Nat) : Prop where
  head : starts.head? = some 0
  increase : starts.Pairwise (· < ·)
  within : ∀ s ∈ starts, s < n

theorem Covers.lt_length (h : Covers starts n) : 0 < starts.length := by
  cases starts with
  | nil => cases h.head
  | cons s ss => exact Nat.zero_lt_succ _

theorem Covers.length_le (h : Covers starts n) : starts.length ≤ n := by
  have hnodup : starts.Nodup := h.increase.imp Nat.ne_of_lt
  have hsub : starts ⊆ List.range n := fun s hs => mem_range.2 (h.within s hs)
  exact Nat.le_trans (hnodup.subperm hsub).length_le (Nat.le_of_eq length_range)

theorem Covers.stop_le (h : Covers starts n) {i j s : Nat} (hij : i < j) (hj : starts[j]? = some s) : stop starts n i ≤ s := by
  obtain ⟨hjlt, rfl⟩ := List.getElem?_eq_some_iff.1 hj
  unfold stop
  rw [getElem?_eq_getElem (Nat.lt_of_le_of_lt hij hjlt), Option.getD_some]
  rcases Nat.eq_or_lt_of_le hij with rfl | hlt
  · exact Nat.le_refl _
  · exact Nat.le_of_lt (pairwise_iff_getElem.1 h.increase _ _ _ _ hlt)

theorem Covers.stop_le_bound (h : Covers starts n) (i : Nat) : stop starts n i ≤ n := by
  unfold stop
  cases hs : starts[i + 1]? with
  | none => exact Nat.le_refl n
  | some s => exact Nat.le_of_lt (h.within s (mem_of_getElem? hs))

theorem Covers.owns_lt (h : Covers starts n) {i o : Nat} (ho : Owns starts n i o) : o < n := by
  obtain ⟨s, -, -, hlt⟩ := ho
  exact Nat.lt_of_lt_of_le hlt (h.stop_le_bound i)

theorem Covers.owns_unique (h : Covers starts n) {i j o : Nat} (hi : Owns starts n i o) (hj : Owns starts n j o) : i = j := by
  obtain ⟨s, hs, hso, hsn⟩ := hi
  obtain ⟨t, ht, hto, htn⟩ := hj
  rcases Nat.lt_trichotomy i j with hlt | heq | hlt
  · have := h.stop_le hlt ht
    omega
  · exact heq
  · have := h.stop_le hlt hs
    omega

/-! ## Halving -/

/-- The place in `[lo, hi]` whose interval, from its start to its end, has `o`. -/
def bisect (start ends : Nat → Nat) (o : Nat) (lo : Nat) (hi : Int) : Nat :=
  if (lo : Int) < hi then
    if o < start ((lo + hi.toNat) / 2) then bisect start ends o lo (((lo + hi.toNat) / 2 : Nat) - 1)
    else if ends ((lo + hi.toNat) / 2) ≤ o then bisect start ends o ((lo + hi.toNat) / 2 + 1) hi
    else (lo + hi.toNat) / 2
  else lo
termination_by (hi - lo).toNat
decreasing_by all_goals omega

/-- Where intervals follow each other, `lo` starts at or before `o` and `hi` ends behind it, halving finds the owner. -/
theorem bisect_spec (start ends : Nat → Nat) (o lo : Nat) (hi : Int) (hle : (lo : Int) ≤ hi)
    (hnext : ∀ i : Nat, (i : Int) < hi → ends i = start (i + 1)) (hlo : start lo ≤ o) (hhi : o < ends hi.toNat) :
    (bisect start ends o lo hi : Int) ≤ hi ∧ start (bisect start ends o lo hi) ≤ o ∧ o < ends (bisect start ends o lo hi) := by
  induction lo, hi using bisect.induct start ends o with
  | case1 lo hi hlt hbefore ih =>
    rw [bisect, if_pos hlt, if_pos hbefore]
    generalize hmid : (lo + hi.toNat) / 2 = mid at hbefore ih ⊢
    -- the middle is not the lower end, which starts at or before `o`
    have hne : lo ≠ mid := fun heq => by
      rw [heq] at hlo
      omega
    have hmid' : ((mid : Int) - 1).toNat = mid - 1 := by omega
    obtain ⟨h1, h2⟩ := ih (by omega) (fun i hi' => hnext i (by omega)) hlo (by
      rw [hmid', hnext (mid - 1) (by omega), Nat.sub_add_cancel (by omega)]
      exact hbefore)
    exact ⟨by omega, h2⟩
  | case2 lo hi hlt hbefore hbehind ih =>
    rw [bisect, if_pos hlt, if_neg hbefore, if_pos hbehind]
    generalize hmid : (lo + hi.toNat) / 2 = mid at hbefore hbehind ih ⊢
    refine ih (by omega) hnext ?_ hhi
    rw [← hnext mid (by omega)]
    exact hbehind
  | case3 lo hi hlt hbefore hbehind =>
    rw [bisect, if_pos hlt, if_neg hbefore, if_neg hbehind]
    exact ⟨by omega, by omega, by omega⟩
  | case4 lo hi hlt =>
    rw [bisect, if_neg hlt]
    have heq : hi = lo := by omega
    rw [heq, Int.toNat_natCast] at hhi
    exact ⟨hle, hlo, hhi⟩

/-- **Halving finds the owner.** -/
theorem Covers.bisect_owns (h : Covers starts n) {o : Nat} (ho : o < n) :
    Owns starts n (bisect (fun i => (starts[i]?).getD 0) (stop starts n) o 0 ((starts.length : Int) - 1)) o := by
  have hpos := h.lt_length
  have hlast : ((starts.length : Int) - 1).toNat = starts.length - 1 := by omega
  obtain ⟨h1, h2, h3⟩ := bisect_spec (fun i => (starts[i]?).getD 0) (stop starts n) o 0 ((starts.length : Int) - 1) (by omega)
    (fun i hi => by
      unfold stop
      rw [getElem?_eq_getElem (by omega)]
      rfl)
    (by
      rw [← head?_eq_getElem?, h.head]
      exact Nat.zero_le o)
    (by
      unfold stop
      rw [hlast, getElem?_eq_none (by omega)]
      exact ho)
  generalize bisect (fun i => (starts[i]?).getD 0) (stop starts n) o 0 ((starts.length : Int) - 1) = r at h1 h2 h3
  refine ⟨_, getElem?_eq_getElem (by omega), ?_, h3⟩
  rwa [getElem?_eq_getElem (by omega), Option.getD_some] at h2

/-! ## Joined cuts -/

theorem Covers.append {a b : List Nat} {m n : Nat} (h : Covers a m) (h' : Covers b n) : Covers (a ++ b.map (m + ·)) (m + n) where
  head := by
    rw [List.head?_append, h.head]
    rfl
  increase := by
    refine pairwise_append.2 ⟨h.increase, pairwise_map.2 (h'.increase.imp fun hlt => Nat.add_lt_add_left hlt m), ?_⟩
    intro s hs t ht
    obtain ⟨u, -, rfl⟩ := mem_map.1 ht
    exact Nat.lt_of_lt_of_le (h.within s hs) (Nat.le_add_right m u)
  within s hs := by
    rcases mem_append.1 hs with hs | hs
    · exact Nat.lt_of_lt_of_le (h.within s hs) (Nat.le_add_right m n)
    · obtain ⟨u, hu, rfl⟩ := mem_map.1 hs
      exact Nat.add_lt_add_left (h'.within u hu) m

/-- The cuts of one interval behind the other, each counted from its own start. -/
def joined : List (List Nat × Nat) → List Nat
  | []           => []
  | (b, n) :: bs => b ++ (joined bs).map (n + ·)

theorem covers_joined : ∀ {bs : List (List Nat × Nat)}, bs ≠ [] → (∀ x ∈ bs, Covers x.1 x.2) → Covers (joined bs) (bs.map Prod.snd).sum
  | [], hne, _ => absurd rfl hne
  | [(b, n)], _, h => by
    have hb := h (b, n) mem_cons_self
    simp only [joined, map_nil, append_nil, map_cons, sum_cons, sum_nil, Nat.add_zero]
    exact hb
  | (b, n) :: c :: bs, _, h => by
    rw [joined, map_cons, sum_cons]
    exact (h (b, n) mem_cons_self).append (covers_joined (cons_ne_nil c bs) fun x hx => h x (mem_cons_of_mem _ hx))

end Cuts
