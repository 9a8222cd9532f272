import Mathlib.Data.List.Range
import Prose.TransfersDebts
/-!
# TransfersKept — every buffer in one place

A buffer moves from the ring to a call's hand, to the device, to the used ring, to a callback's hand and back to the ring; no two are
ever in one place of these, so the ring has room for each.
-/
namespace Prose
namespace Transfers

open Tasks RingBuffers List

section
variable {d : Driver} {n i : Nat} {x x' : Side} {ring ring' : List Entry} {g : Debt} {e : Entry}

theorem bufferCount_dvd : bufferCount ∣ 2 ^ 32 := ⟨2 ^ 29, rfl⟩

/-- **One queue**, with the ring from its tail on, where there are `n` threads. -/
structure Good (n : Nat) (x : Side) (ring : List Entry) : Prop where
  holds : Holds bufferCount x.ring ring
  perm : (x.spots ring).Perm (List.range bufferCount)
  counts : x.sem + x.claimed.length + x.pending.length = ring.length
  taken : x.lock = none → x.taken = none
  holder : ∀ i, x.lock = some i → i < n
  owner : ∀ y ∈ x.hands, y.1 < n

structure Has (x : Side) (i : Nat) (g : Debt) : Prop where
  lock : x.lock = some i ↔ g.lock = true
  taken : g.lock = true → x.taken = g.taken
  claimed : g.claimed = true → i ∈ x.claimed
  pending : g.pending = true → i ∈ x.pending
  back : ∀ e, g.back = some e → (i, e) ∈ x.back
  hands : ∀ e, (i, e) ∈ x.hands ↔ e ∈ g.hand

/-- What the step of thread `i` leaves the others. -/
structure Others (i : Nat) (x x' : Side) : Prop where
  lock : ∀ j, j ≠ i → (x'.lock = some j ↔ x.lock = some j)
  taken : ∀ j, j ≠ i → x.lock = some j → x'.taken = x.taken
  claimed : ∀ j, j ≠ i → j ∈ x.claimed → j ∈ x'.claimed
  pending : ∀ j, j ≠ i → j ∈ x.pending → j ∈ x'.pending
  back : ∀ j e, j ≠ i → (j, e) ∈ x.back → (j, e) ∈ x'.back
  hands : ∀ j e, j ≠ i → ((j, e) ∈ x'.hands ↔ (j, e) ∈ x.hands)

theorem Has.other {j : Nat} (h : Has x j g) (ho : Others i x x') (hj : j ≠ i) : Has x' j g where
  lock := (ho.lock j hj).trans h.lock
  taken := fun hl => (ho.taken j hj (h.lock.2 hl)).trans (h.taken hl)
  claimed := fun hc => ho.claimed j hj (h.claimed hc)
  pending := fun hp => ho.pending j hj (h.pending hp)
  back := fun e he => ho.back j e hj (h.back e he)
  hands := fun e => (ho.hands j e hj).trans (h.hands e)

/-! ## The portal's requests -/

/-- What the device has sent and no read has handed out, the oldest first. -/
def Side.unread (x : Side) (ring : List Entry) : List Entry := x.taken.toList ++ (ring ++ (x.back.map (·.2) ++ x.used))

/-- **Whole, once each and in order**, so far. -/
structure Order (size : Nat) (data : Nat → List UInt8) (completed delivered : List (List UInt8)) (x : Side) (ring : List Entry) :
    Prop where
  eq : completed = delivered ++ (x.unread ring).map fun e => data e.index
  length : ∀ e ∈ x.unread ring, e.length = (data e.index).length ∧ e.length ≤ size
  back : x.back.length ≤ 1
  taken : ∀ e, x.taken = some e → ∃ i, x.lock = some i ∧ (i, e) ∈ x.hands

section
variable {size : Nat} {data : Nat → List UInt8} {completed delivered : List (List UInt8)}

theorem Order.same (h : Order size data completed delivered x ring) (hunread : x'.unread ring' = x.unread ring)
    (hback : x'.back.length ≤ 1) (htaken : ∀ e, x'.taken = some e → ∃ i, x'.lock = some i ∧ (i, e) ∈ x'.hands) :
    Order size data completed delivered x' ring' := by
  refine ⟨?_, ?_, hback, htaken⟩
  · rw [hunread]
    exact h.eq
  · rw [hunread]
    exact h.length

end

/-! ## Moves -/

theorem count_index {l : List (Nat × Entry)} (h : (i, e) ∈ l) (a : Nat) :
    (l.map (·.2.index)).count a = ((l.erase (i, e)).map (·.2.index)).count a + if e.index = a then 1 else 0 := by
  rw [((perm_cons_erase h).map (·.2.index)).count_eq, map_cons, List.count_cons]
  simp only [beq_iff_eq]

theorem Good.nodup (h : Good n x ring) : (x.spots ring).Nodup := h.perm.nodup_iff.2 nodup_range

theorem Good.length (h : Good n x ring) :
    ring.length + x.back.length + x.hands.length + x.used.length + x.device.length = bufferCount := by
  have := h.perm.length_eq
  unfold Side.spots at this
  simp only [length_append, length_map, length_range] at this
  omega

theorem Good.index_lt (h : Good n x ring) {k : Nat} (hk : k ∈ x.spots ring) : k < bufferCount :=
  mem_range.1 (h.perm.mem_iff.1 hk)

theorem lock_good (h : Good n x ring) (hi : i < n) : Good n { x with lock := some i } ring :=
  ⟨h.holds, h.perm, h.counts, nofun, fun _ hj => Option.some.inj hj ▸ hi, h.owner⟩

theorem unlock_good (h : Good n x ring) (ht : x.taken = none) : Good n { x with lock := none } ring :=
  ⟨h.holds, h.perm, h.counts, fun _ => ht, nofun, h.owner⟩

theorem acquire_good (h : Good n x ring) (hs : x.sem ≠ 0) : Good n { x with sem := x.sem - 1, claimed := i :: x.claimed } ring := by
  refine ⟨h.holds, h.perm, ?_, h.taken, h.holder, h.owner⟩
  have := h.counts
  show x.sem - 1 + (i :: x.claimed).length + x.pending.length = ring.length
  rw [length_cons]
  omega

theorem release_good (h : Good n x ring) (hp : i ∈ x.pending) :
    Good n { x with sem := x.sem + 1, pending := x.pending.erase i } ring := by
  refine ⟨h.holds, h.perm, ?_, h.taken, h.holder, h.owner⟩
  have := h.counts
  have := length_erase_add_one hp
  show x.sem + 1 + x.claimed.length + (x.pending.erase i).length = ring.length
  omega

/-- **A claimed count is an entry of the ring**, and goes to the hand. -/
theorem take_good (h : Good n x ring) (hi : i < n) (hc : i ∈ x.claimed) (hl : x.lock = some i) :
    ∃ rest, ring = x.ring.first bufferCount :: rest ∧ Good n { x with
      ring := x.ring.drop, claimed := x.claimed.erase i, hands := (i, x.ring.first bufferCount) :: x.hands
      taken := some (x.ring.first bufferCount) } rest := by
  have hcounts := h.counts
  have hlen := length_erase_add_one hc
  cases ring with
  | nil => exact absurd (length_nil (α := Entry)) (by omega)
  | cons e rest =>
    obtain ⟨hfirst, hholds⟩ := h.holds.drop bufferCount_dvd
    rw [hfirst]
    refine ⟨rest, rfl, hholds, ?_, ?_, fun hn => absurd (hl.symm.trans hn) nofun, h.holder, fun y hy => ?_⟩
    · refine (perm_iff_count.2 fun a => ?_).trans h.perm
      simp only [Side.spots, map_cons, count_append, List.count_cons]
      omega
    · show x.sem + (x.claimed.erase i).length + x.pending.length = rest.length
      rw [length_cons] at hcounts
      omega
    · rcases mem_cons.1 hy with rfl | hy
      · exact hi
      · exact h.owner y hy

theorem put_good (h : Good n x ring) {m : Nat} (hb : (i, e) ∈ x.back) : Good n { x with
    ring := x.ring.put bufferCount ⟨e.index, m⟩, back := x.back.erase (i, e), pending := i :: x.pending } (ring ++ [⟨e.index, m⟩]) := by
  have hpos := length_pos_of_mem hb
  have hlen := h.length
  refine ⟨h.holds.put bufferCount_dvd (by omega), ?_, ?_, h.taken, h.holder, h.owner⟩
  · refine (perm_iff_count.2 fun a => ?_).trans h.perm
    have := count_index hb a
    simp only [Side.spots, map_append, map_cons, map_nil, count_append, List.count_cons, count_nil,
      beq_iff_eq]
    omega
  · have := h.counts
    show x.sem + x.claimed.length + (i :: x.pending).length = (ring ++ [_]).length
    rw [length_cons, length_append, length_singleton]
    omega

theorem copy_good (h : Good n x ring) : Good n { x with taken := none } ring :=
  ⟨h.holds, h.perm, h.counts, fun _ => rfl, h.holder, h.owner⟩

theorem queue_good (h : Good n x ring) (hh : (i, e) ∈ x.hands) :
    Good n { x with hands := x.hands.erase (i, e), device := x.device ++ [e.index] } ring := by
  refine ⟨h.holds, ?_, h.counts, h.taken, h.holder, fun y hy => h.owner y (mem_of_mem_erase hy)⟩
  refine (perm_iff_count.2 fun a => ?_).trans h.perm
  have := count_index hh a
  simp only [Side.spots, count_append, List.count_cons, count_nil, beq_iff_eq]
  omega

theorem dequeue_good (h : Good n x ring) {rest : List Entry} (hu : x.used = e :: rest) :
    Good n { x with used := rest, back := (i, e) :: x.back } ring ∧ e.index < bufferCount := by
  refine ⟨⟨h.holds, ?_, h.counts, h.taken, h.holder, h.owner⟩, h.index_lt ?_⟩
  · refine (perm_iff_count.2 fun a => ?_).trans h.perm
    simp only [Side.spots, hu, map_cons, count_append, List.count_cons]
    omega
  · unfold Side.spots
    rw [hu]
    simp

theorem putBytes_good (h : Good n x ring) (hi : i < n) (hb : (i, e) ∈ x.back) :
    Good n { x with back := x.back.erase (i, e), hands := (i, e) :: x.hands } ring := by
  refine ⟨h.holds, ?_, h.counts, h.taken, h.holder, fun y hy => ?_⟩
  · refine (perm_iff_count.2 fun a => ?_).trans h.perm
    have := count_index hb a
    simp only [Side.spots, map_cons, count_append, List.count_cons, beq_iff_eq]
    omega
  · rcases mem_cons.1 hy with rfl | hy
    · exact hi
    · exact h.owner y hy

theorem over_good (h : Good n x ring) (hn : ∀ e, (i, e) ∉ x.hands) : Good n { x with hands := x.hands.filter (·.1 ≠ i) } ring := by
  have hall : x.hands.filter (·.1 ≠ i) = x.hands := filter_eq_self.2 fun y hy => decide_eq_true fun he => hn y.2 (he ▸ hy)
  rw [hall]
  exact h

theorem completed_good (h : Good n x ring) {k m index : Nat} (hk : x.device[k]? = some index) :
    Good n { x with device := x.device.eraseIdx k, used := x.used ++ [⟨index, m⟩] } ring := by
  refine ⟨h.holds, ?_, h.counts, h.taken, h.holder, h.owner⟩
  refine (perm_iff_count.2 fun a => ?_).trans h.perm
  obtain ⟨hlt, rfl⟩ := List.getElem?_eq_some_iff.1 hk
  have := (getElem_cons_eraseIdx_perm hlt).count_eq a
  rw [List.count_cons] at this
  simp only [Side.spots, map_append, map_cons, map_nil, count_append, List.count_cons, count_nil, beq_iff_eq] at this ⊢
  omega

end

end Transfers
end Prose
