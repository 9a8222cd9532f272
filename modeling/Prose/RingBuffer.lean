import Mathlib.Logic.Function.Basic
import Mathlib.Data.Nat.ModEq
/-!
# RingBuffer — an array taken round and round

Two 32-bit counters that only ever grow, and wrap, and an array of `n` slots, where `n` divides `2 ^ 32`.  `Holds` says what is in
it, the oldest first; whoever puts no more than `n` in takes them out in that order.
-/
namespace RingBuffers

open List

structure RingBuffer (α : Type*) where
  slots : Nat → α
  head : UInt32 := 0
  tail : UInt32 := 0

variable {α : Type*} {n : Nat} {r : RingBuffer α} {x : α} {xs : List α}

namespace RingBuffer

def put (n : Nat) (r : RingBuffer α) (x : α) : RingBuffer α :=
  { r with slots := Function.update r.slots (r.head.toNat % n) x, head := r.head + 1 }

def first (n : Nat) (r : RingBuffer α) : α := r.slots (r.tail.toNat % n)

def drop (r : RingBuffer α) : RingBuffer α := { r with tail := r.tail + 1 }

def count (r : RingBuffer α) : Nat := (r.head - r.tail).toNat

def contents (n : Nat) (r : RingBuffer α) : List α := (List.range r.count).map fun k => r.slots ((r.tail.toNat + k) % n)

end RingBuffer

/-- **What is in the ring**, the oldest first. -/
structure Holds (n : Nat) (r : RingBuffer α) (xs : List α) : Prop where
  head : r.head = r.tail + UInt32.ofNat xs.length
  slots : ∀ k x, xs[k]? = some x → r.slots ((r.tail.toNat + k) % n) = x

theorem toNat_add_mod (h : n ∣ 2 ^ 32) (t : UInt32) (k : Nat) : (t + UInt32.ofNat k).toNat % n = (t.toNat + k) % n := by
  rw [UInt32.toNat_add, UInt32.toNat_ofNat', Nat.mod_mod_of_dvd _ h, Nat.add_mod, Nat.mod_mod_of_dvd _ h, ← Nat.add_mod]

theorem toNat_succ_mod (h : n ∣ 2 ^ 32) (t : UInt32) (k : Nat) : ((t + 1).toNat + k) % n = (t.toNat + (k + 1)) % n := by
  have := toNat_add_mod h t 1
  rw [Nat.add_mod, show t + 1 = t + UInt32.ofNat 1 from rfl, this, ← Nat.add_mod, Nat.add_assoc, Nat.add_comm 1 k]

theorem slot_ne {t k m : Nat} (hk : k < m) (hm : m < n) : (t + k) % n ≠ (t + m) % n := fun he => by
  have hmod : k % n = m % n := Nat.ModEq.add_left_cancel' t he
  rw [Nat.mod_eq_of_lt (hk.trans hm), Nat.mod_eq_of_lt hm] at hmod
  omega

/-- **One more** is behind the others. -/
theorem Holds.put (h : Holds n r xs) (hn : n ∣ 2 ^ 32) (hlt : xs.length < n) : Holds n (r.put n x) (xs ++ [x]) where
  head := by
    show r.head + 1 = r.tail + UInt32.ofNat (xs ++ [x]).length
    rw [h.head, length_append, length_singleton, UInt32.ofNat_add, ← UInt32.add_assoc]
    rfl
  slots := fun k y hy => by
    show Function.update r.slots (r.head.toNat % n) x ((r.tail.toNat + k) % n) = y
    have hhead : r.head.toNat % n = (r.tail.toNat + xs.length) % n := by rw [h.head, toNat_add_mod hn]
    rw [hhead]
    rcases Nat.lt_or_ge k xs.length with hk | hk
    · rw [getElem?_append_left hk] at hy
      rw [Function.update_of_ne (slot_ne hk hlt)]
      exact h.slots k y hy
    · rw [getElem?_append_right hk, getElem?_singleton] at hy
      obtain ⟨hz, hy⟩ := Option.ite_none_right_eq_some.1 hy
      rw [show k = xs.length by omega, Function.update_self, Option.some.inj hy]

/-- **The oldest is the first to go.** -/
theorem Holds.drop (h : Holds n r (x :: xs)) (hn : n ∣ 2 ^ 32) : r.first n = x ∧ Holds n r.drop xs := by
  refine ⟨h.slots 0 x rfl, ⟨?_, fun k y hy => ?_⟩⟩
  · show r.head = r.tail + 1 + UInt32.ofNat xs.length
    rw [h.head, length_cons, UInt32.ofNat_add, UInt32.add_comm (UInt32.ofNat _), ← UInt32.add_assoc]
    rfl
  · show r.slots (((r.tail + 1).toNat + k) % n) = y
    rw [toNat_succ_mod hn]
    exact h.slots (k + 1) y hy

theorem Holds.count (h : Holds n r xs) (hlt : xs.length < 2 ^ 32) : r.count = xs.length := by
  unfold RingBuffer.count
  rw [h.head, UInt32.add_comm, UInt32.add_sub_cancel, UInt32.toNat_ofNat', Nat.mod_eq_of_lt hlt]

theorem Holds.contents (h : Holds n r xs) (hlt : xs.length < 2 ^ 32) : r.contents n = xs := by
  unfold RingBuffer.contents
  rw [h.count hlt]
  refine ext_getElem (by rw [length_map, length_range]) fun k hk hk' => ?_
  rw [getElem_map, getElem_range]
  exact h.slots k _ (getElem?_eq_getElem hk')

theorem holds_nil {slots : Nat → α} : Holds n { slots } [] := ⟨rfl, nofun⟩

end RingBuffers
