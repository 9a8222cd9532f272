import Mathlib.Data.List.Basic
/-!
# Sink — a file written front to back

A sink holds what has been written, its own count of it, and the offsets at which numbered parts were marked.  When part
after part is marked under the next number and then written, the marks are where the parts stand.
-/
structure Sink where
  out : List UInt8 := []
  pos : Nat := 0
  offsets : List Nat := []

namespace Sink

open List

def write (s : Sink) (bytes : List UInt8) : Sink := { s with out := s.out ++ bytes, pos := s.pos + bytes.length }

/-- Part `id` begins here; parts not marked yet are at 0. -/
def mark (s : Sink) (id : Nat) : Sink :=
  { s with offsets := (s.offsets ++ List.replicate (id - s.offsets.length) 0).set (id - 1) s.pos }

/-- Where the parts begin that stand one behind the other from `at_` on. -/
def starts : Nat → List (List UInt8) → List Nat
  | _, []      => []
  | n, p :: ps => n :: starts (n + p.length) ps

structure Holds (s : Sink) (head : List UInt8) (parts : List (List UInt8)) : Prop where
  out : s.out = head ++ parts.flatten
  pos : s.pos = s.out.length
  offsets : s.offsets = starts head.length parts

theorem write_write (s : Sink) (a b : List UInt8) : (s.write a).write b = s.write (a ++ b) := by
  unfold write
  rw [append_assoc, length_append, Nat.add_assoc]

theorem length_starts : ∀ (parts : List (List UInt8)) (n : Nat), (starts n parts).length = parts.length
  | [], _ => rfl
  | p :: ps, n => congrArg Nat.succ (length_starts ps (n + p.length))

theorem starts_append : ∀ (parts : List (List UInt8)) (p : List UInt8) (n : Nat),
    starts n (parts ++ [p]) = starts n parts ++ [n + parts.flatten.length]
  | [], _, _ => rfl
  | q :: qs, p, n => by
    rw [cons_append, starts, starts, starts_append qs p, flatten_cons, length_append, Nat.add_assoc]
    rfl

/-- **The part at an offset.** -/
theorem getElem?_starts : ∀ (parts : List (List UInt8)) (n : Nat) (rest : List UInt8) {i : Nat} {off : Nat},
    (starts n parts)[i]? = some off → ∃ p, parts[i]? = some p ∧ n ≤ off ∧ p <+: (parts.flatten ++ rest).drop (off - n)
  | [], _, _, _, _, h => by cases h
  | p :: ps, n, rest, 0, off, h => by
    cases h
    refine ⟨p, rfl, Nat.le_refl n, ?_⟩
    rw [Nat.sub_self, drop_zero, flatten_cons, append_assoc]
    exact prefix_append _ _
  | p :: ps, n, rest, i + 1, off, h => by
    obtain ⟨q, hq, hle, hpre⟩ := getElem?_starts ps (n + p.length) rest h
    refine ⟨q, hq, by omega, ?_⟩
    rw [flatten_cons, append_assoc, show off - n = p.length + (off - (n + p.length)) by omega,
      ← drop_drop, drop_left]
    exact hpre

theorem holds_head (head : List UInt8) : Holds (({} : Sink).write head) head [] :=
  ⟨by show [] ++ head = _; rw [nil_append, flatten_nil, append_nil], Nat.zero_add _, rfl⟩

/-- **The next part**, marked and written. -/
theorem Holds.part {s : Sink} {head : List UInt8} {parts : List (List UInt8)} (h : s.Holds head parts) {id : Nat}
    (hid : id = parts.length + 1) (p : List UInt8) : ((s.mark id).write p).Holds head (parts ++ [p]) := by
  refine ⟨?_, ?_, ?_⟩
  · show s.out ++ p = _
    rw [h.out, flatten_append, flatten_singleton, append_assoc]
  · show s.pos + p.length = (s.out ++ p).length
    rw [h.pos, length_append]
  · show (s.offsets ++ List.replicate (id - s.offsets.length) 0).set (id - 1) s.pos = _
    have hlen : s.offsets.length = parts.length := by rw [h.offsets, length_starts]
    rw [starts_append, hid, hlen, Nat.add_sub_cancel, Nat.add_sub_cancel_left, replicate_one, ← hlen,
      set_append_right _ _ (Nat.le_refl _), Nat.sub_self, h.offsets, h.pos, h.out, length_append]
    rfl

end Sink
