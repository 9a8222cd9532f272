import Mathlib.Algebra.GroupWithZero.Nat
import Mathlib.Data.List.Basic
/-!
# Decimals — numbers in ASCII digits
-/
namespace Prose
namespace Decimals

open List

def isDigit (c : UInt8) : Bool := 48 ≤ c && c ≤ 57

def value (s : List UInt8) : Nat := s.foldl (fun n c => 10 * n + (c.toNat - 48)) 0

/-- `"%d"` of a number that is not negative. -/
def digits (n : Nat) : List UInt8 := (Nat.toDigits 10 n).map (fun c => UInt8.ofNat c.toNat)

theorem isDigit_iff {c : UInt8} : isDigit c ↔ 48 ≤ c.toNat ∧ c.toNat ≤ 57 := by
  unfold isDigit
  rw [Bool.and_eq_true, decide_eq_true_eq, decide_eq_true_eq, UInt8.le_iff_toNat_le, UInt8.le_iff_toNat_le]
  rfl

theorem toNat_ofChar {c : Char} (h : c.isDigit) : (UInt8.ofNat c.toNat).toNat = c.toNat ∧ 48 ≤ c.toNat ∧ c.toNat ≤ 57 := by
  have hr : 48 ≤ c.toNat ∧ c.toNat ≤ 57 := by
    rw [Char.isDigit, Bool.and_eq_true, decide_eq_true_eq, decide_eq_true_eq] at h
    exact h
  refine ⟨?_, hr⟩
  rw [UInt8.toNat_ofNat']
  omega

theorem isDigit_of_mem_toDigits {n : Nat} {c : Char} (hc : c ∈ Nat.toDigits 10 n) : c.isDigit :=
  Nat.isDigit_of_mem_toDigits (by decide) (by decide) hc

theorem isDigit_digits (n : Nat) : ∀ c ∈ digits n, isDigit c := by
  intro c hc
  obtain ⟨d, hd, rfl⟩ := mem_map.1 hc
  obtain ⟨h, hr⟩ := toNat_ofChar (isDigit_of_mem_toDigits hd)
  rw [isDigit_iff, h]
  exact hr

theorem digits_ne_nil (n : Nat) : digits n ≠ [] := by
  intro h
  exact Nat.toDigits_ne_nil (map_eq_nil_iff.1 h)

theorem foldl_ofChar : ∀ {l : List Char}, (∀ c ∈ l, c.isDigit) → ∀ n : Nat,
    (l.map (fun c => UInt8.ofNat c.toNat)).foldl (fun n c => 10 * n + (c.toNat - 48)) n = Nat.ofDigitChars 10 l n
  | [], _, n => by rw [map_nil, foldl_nil, Nat.ofDigitChars_nil]
  | c :: l, h, n => by
    rw [map_cons, foldl_cons, Nat.ofDigitChars_cons, (toNat_ofChar (h c mem_cons_self)).1,
      foldl_ofChar (fun c hc => h c (mem_cons_of_mem _ hc))]
    rfl

/-- **The digits of a number have its value.** -/
theorem value_digits (n : Nat) : value (digits n) = n := by
  unfold value digits
  rw [foldl_ofChar (fun c hc => isDigit_of_mem_toDigits hc), Nat.ofDigitChars_ten_toDigits]

theorem length_digits {n k : Nat} (hk : 0 < k) (h : n < 10 ^ k) : (digits n).length ≤ k := by
  unfold digits
  rw [length_map]
  exact (Nat.length_toDigits_le_iff (by decide) hk).2 h

end Decimals
end Prose
