import Mathlib.Algebra.GroupWithZero.Nat
import Mathlib.Data.List.Basic
/-!
# Bytes — numbers in a row of bytes

`slice` is the bytes from a position on, if they are there; `nat` is what they say, the lowest first, and `le` says it.
-/
namespace Bytes

def slice (b : List UInt8) (pos n : Nat) : Option (List UInt8) := if pos + n ≤ b.length then some ((b.drop pos).take n) else none

def nat : List UInt8 → Nat
  | []     => 0
  | x :: b => x.toNat + 256 * nat b

def le : Nat → Nat → List UInt8
  | 0, _     => []
  | k + 1, n => .ofNat n :: le k (n / 256)

def natAt (b : List UInt8) (pos n : Nat) : Option Nat := (slice b pos n).map nat

theorem le_length : ∀ k n : Nat, (le k n).length = k
  | 0, _     => rfl
  | k + 1, n => congrArg (· + 1) (le_length k (n / 256))

/-- **What is said is read.** -/
theorem nat_le : ∀ {k n : Nat}, n < 256 ^ k → nat (le k n) = n
  | 0, n, h => by
    rw [Nat.pow_zero] at h
    show 0 = n
    omega
  | k + 1, n, h => by
    have hn : n / 256 < 256 ^ k := by
      rw [Nat.pow_succ] at h
      exact Nat.div_lt_of_lt_mul (by rw [Nat.mul_comm]; exact h)
    show (UInt8.ofNat n).toNat + 256 * nat (le k (n / 256)) = n
    rw [nat_le hn, UInt8.toNat_ofNat']
    omega

theorem slice_some {b : List UInt8} {pos n : Nat} (h : pos + n ≤ b.length) : slice b pos n = some ((b.drop pos).take n) :=
  if_pos h

theorem slice_at {pre mid post : List UInt8} {pos n : Nat} (hpos : pre.length = pos) (hn : mid.length = n) :
    slice (pre ++ (mid ++ post)) pos n = some mid := by
  subst hpos hn
  rw [slice_some (by simp only [List.length_append]; omega), List.drop_left, List.take_left]

theorem natAt_le {pre post : List UInt8} {pos k n : Nat} (hpos : pre.length = pos) (hn : n < 256 ^ k) :
    natAt (pre ++ (le k n ++ post)) pos k = some n := by
  unfold natAt
  rw [slice_at hpos (le_length k n), Option.map_some, nat_le hn]

end Bytes
