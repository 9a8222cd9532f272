import Mathlib.Data.List.Nodup
import Prose.TransfersModel
/-!
# TransfersDebts — what a call and a callback hold

A thread works on one queue: it may have the lock, a count of the semaphore, a buffer from the ring or from the used ring, and a count
the semaphore is to get.  Where user copies and queueing work, it ends with none of these.
-/
namespace Prose
namespace Transfers

open Tasks RingBuffers List

structure Debt where
  side : Q
  lock : Bool := false
  claimed : Bool := false
  pending : Bool := false
  back : Option Entry := none
  hand : List Entry := []
  taken : Option Entry := none

def after : (a : Act) → Answer a → Debt → Debt
  | .lock _, _, g => { g with lock := true }
  | .unlock _, _, g => { g with lock := false }
  | .acquire _, ok, g => { g with claimed := ok }
  | .release _, _, g => { g with pending := false }
  | .take _, e, g => { g with claimed := false, hand := e :: g.hand, taken := some e }
  | .put _ _, _, g => { g with back := none, pending := true }
  | .copy _ _ _, _, g => { g with taken := none }
  | .queue _ e, _, g => { g with hand := g.hand.erase e }
  | .dequeue _, e, g => { g with back := e }
  | .putBytes e, _, g => { g with back := none, hand := e :: g.hand }
  | _, _, g => g

def ready (d : Driver) : Act → Debt → Prop
  | .lock q, g => g.side = q ∧ g.lock = false ∧ g.taken = none
  | .unlock q, g => g.side = q ∧ g.lock = true ∧ g.taken = none
  | .acquire q, g => g.side = q ∧ g.claimed = false
  | .release q, g => g.side = q ∧ g.pending = true
  | .take q, g => g.side = q ∧ g.lock = true ∧ g.claimed = true ∧ g.taken = none ∧ (q = .rx → d = .portal)
  | .put q e, g => g.side = q ∧ g.back = some e ∧ g.pending = false ∧ (q = .rx → d = .portal)
  | .copy q e _, g => g.side = q ∧ g.lock = true ∧ g.taken = some e
  | .queue q e, g => g.side = q ∧ e ∈ g.hand ∧ g.hand.Nodup ∧ g.taken = none
  | .dequeue q, g => g.side = q ∧ g.back = none ∧ g.pending = false
  | .over q, g => g.side = q ∧ g.hand = []
  | .putBytes e, g => g.side = .rx ∧ g.back = some e ∧ d = .midi
  | .takeBytes _, _ | .acquireBytes, _ | .releaseBytes, _ | .copyBytes _, _ => True

def may : (a : Act) → Answer a → Prop
  | .copy _ _ _, ok | .queue _ _, ok => ok = true
  | .dequeue _, e => ∀ x, e = some x → x.index < bufferCount
  | _, _ => True

abbrev Owing (d : Driver) (p : Hook Unit) (g : Debt) : Prop := Honest (ready d) after may (fun _ => True) p g

section
variable {d : Driver}

theorem post_owing : ∀ {is : List Nat}, is.Nodup →
    Owing d (post is) { side := .rx, hand := is.map fun i => ⟨i, 0⟩ }
  | [], _ => ⟨⟨rfl, rfl⟩, fun _ _ => trivial⟩
  | i :: is, hnodup => by
    have hmap : ((i :: is).map fun k => (⟨k, 0⟩ : Entry)).Nodup := hnodup.map fun _ _ he => (Entry.mk.inj he).1
    refine settles_bind.2 (settles_one.2 ⟨⟨rfl, mem_cons_self, hmap, rfl⟩, fun ok _ => ?_⟩)
    show Owing d (post is) { side := .rx, hand := ((⟨i, 0⟩ : Entry) :: is.map fun k => ⟨k, 0⟩).erase ⟨i, 0⟩ }
    rw [erase_cons_head]
    exact post_owing (nodup_cons.1 hnodup).2

theorem txCallback_owing : ∀ n : Nat, Owing d (txCallback n) { side := .tx }
  | 0 => trivial
  | n + 1 => by
    refine settles_bind.2 (settles_one.2 ⟨⟨rfl, rfl, rfl⟩, fun e he => ?_⟩)
    cases e with
    | none => exact trivial
    | some e =>
      show Settles _ _ _ (if bufferCount ≤ e.index then _ else _) _ _
      rw [if_neg (Nat.not_le.2 (he e rfl))]
      refine settles_bind.2 (settles_one.2 ⟨⟨rfl, rfl, rfl, nofun⟩, fun _ _ => ?_⟩)
      exact settles_bind.2 (settles_one.2 ⟨⟨rfl, rfl⟩, fun _ _ => txCallback_owing n⟩)

theorem portalRxCallback_owing : ∀ n : Nat, Owing .portal (portalRxCallback n) { side := .rx }
  | 0 => trivial
  | n + 1 => by
    refine settles_bind.2 (settles_one.2 ⟨⟨rfl, rfl, rfl⟩, fun e he => ?_⟩)
    cases e with
    | none => exact trivial
    | some e =>
      show Settles _ _ _ (if bufferCount ≤ e.index then _ else _) _ _
      rw [if_neg (Nat.not_le.2 (he e rfl))]
      refine settles_bind.2 (settles_one.2 ⟨⟨rfl, rfl, rfl, fun _ => rfl⟩, fun _ _ => ?_⟩)
      exact settles_bind.2 (settles_one.2 ⟨⟨rfl, rfl⟩, fun _ _ => portalRxCallback_owing n⟩)

theorem erase_self (e : Entry) : [e].erase e = [] := erase_cons_head ..

theorem midiRxCallback_owing : ∀ n : Nat, Owing .midi (midiRxCallback n) { side := .rx }
  | 0 => ⟨⟨rfl, rfl⟩, fun _ _ => trivial⟩
  | n + 1 => by
    refine settles_bind.2 (settles_one.2 ⟨⟨rfl, rfl, rfl⟩, fun e he => ?_⟩)
    cases e with
    | none => exact ⟨⟨rfl, rfl⟩, fun _ _ => trivial⟩
    | some e =>
      show Settles _ _ _ (if bufferCount ≤ e.index then _ else _) _ _
      rw [if_neg (Nat.not_le.2 (he e rfl))]
      refine settles_bind.2 (settles_one.2 ⟨⟨rfl, rfl, rfl⟩, fun added _ => ?_⟩)
      refine settles_bind.2 (settles_one.2 ⟨⟨rfl, mem_singleton.2 rfl, nodup_singleton e, rfl⟩, fun _ _ => ?_⟩)
      show Settles _ _ _ (wake added >>= _) ({ side := .rx, hand := [e].erase e } : Debt) _
      rw [erase_self]
      refine settles_bind.2 ?_
      cases added
      · exact midiRxCallback_owing n
      · exact settles_one.2 ⟨trivial, fun _ _ => midiRxCallback_owing n⟩

/-- **`prpt_read`.** -/
theorem portalRead_owing (wanted : Nat) : Owing .portal (portalRead wanted) { side := .rx } := by
  refine settles_bind.2 (settles_one.2 ⟨⟨rfl, rfl⟩, fun ok _ => ?_⟩)
  cases ok
  · exact trivial
  refine settles_bind.2 (settles_one.2 ⟨⟨rfl, rfl, rfl⟩, fun _ _ => ?_⟩)
  refine settles_bind.2 (settles_one.2 ⟨⟨rfl, rfl, rfl, rfl, fun _ => rfl⟩, fun e _ => ?_⟩)
  refine settles_bind.2 (settles_one.2 ⟨⟨rfl, rfl, rfl⟩, fun _ _ => ?_⟩)
  refine settles_bind.2 (settles_one.2 ⟨⟨rfl, mem_singleton.2 rfl, nodup_singleton e, rfl⟩, fun _ _ => ?_⟩)
  refine settles_bind.2 (settles_one.2 ⟨⟨rfl, erase_self e⟩, fun _ _ => ?_⟩)
  exact settles_one.2 ⟨⟨rfl, rfl, rfl⟩, fun _ _ => trivial⟩

theorem written_owing {claimed : Bool} : Owing d written { side := .tx, lock := true, claimed } :=
  settles_bind.2 (settles_one.2 ⟨⟨rfl, rfl⟩, fun _ _ => settles_one.2 ⟨⟨rfl, rfl, rfl⟩, fun _ _ => trivial⟩⟩)

/-- **`prpt_write`.** -/
theorem portalWrite_owing (length : Nat) : Owing d (portalWrite length) { side := .tx } := by
  unfold portalWrite
  split
  · exact trivial
  refine settles_bind.2 (settles_one.2 ⟨⟨rfl, rfl, rfl⟩, fun _ _ => ?_⟩)
  refine settles_bind.2 (settles_one.2 ⟨⟨rfl, rfl⟩, fun ok _ => ?_⟩)
  cases ok
  · exact written_owing
  refine settles_bind.2 (settles_one.2 ⟨⟨rfl, rfl, rfl, rfl, nofun⟩, fun e _ => ?_⟩)
  refine settles_bind.2 (settles_one.2 ⟨⟨rfl, rfl, rfl⟩, fun ok hok => ?_⟩)
  obtain rfl : ok = true := hok
  refine settles_bind.2 (settles_one.2 ⟨⟨rfl, mem_singleton.2 rfl, nodup_singleton e, rfl⟩, fun _ _ => ?_⟩)
  show Owing d written { side := .tx, lock := true, hand := [e].erase e }
  rw [erase_self]
  exact written_owing

theorem writeFrom_owing : ∀ (n length : Nat), Owing d (writeFrom length n) { side := .tx, lock := true }
  | 0, _ => written_owing
  | n + 1, length => by
    unfold writeFrom
    split
    · exact written_owing
    refine settles_bind.2 (settles_one.2 ⟨⟨rfl, rfl⟩, fun ok _ => ?_⟩)
    cases ok
    · exact written_owing
    refine settles_bind.2 (settles_one.2 ⟨⟨rfl, rfl, rfl, rfl, nofun⟩, fun e _ => ?_⟩)
    refine settles_bind.2 (settles_one.2 ⟨⟨rfl, rfl, rfl⟩, fun ok hok => ?_⟩)
    obtain rfl : ok = true := hok
    refine settles_bind.2 (settles_one.2 ⟨⟨rfl, mem_singleton.2 rfl, nodup_singleton e, rfl⟩, fun ok hok => ?_⟩)
    obtain rfl : ok = true := hok
    show Owing d (writeFrom _ n) { side := .tx, lock := true, hand := [e].erase e }
    rw [erase_self]
    exact writeFrom_owing n _

/-- **`prmd_write`.** -/
theorem midiWrite_owing (length : Nat) : Owing d (midiWrite length) { side := .tx } :=
  settles_bind.2 (settles_one.2 ⟨⟨rfl, rfl, rfl⟩, fun _ _ => writeFrom_owing _ _⟩)

theorem midiRead_owing (wanted : Nat) : ∀ n : Nat, Owing d (midiRead wanted n) { side := .rx }
  | 0 => trivial
  | n + 1 => by
    refine settles_bind.2 (settles_one.2 ⟨trivial, fun chunk _ => ?_⟩)
    show Settles _ _ _ (if chunk ≠ [] then _ else _) _ _
    split
    · exact settles_bind.2 (settles_one.2 ⟨trivial, fun _ _ => trivial⟩)
    refine settles_bind.2 (settles_one.2 ⟨trivial, fun ok _ => ?_⟩)
    cases ok
    · exact trivial
    · exact midiRead_owing wanted n

/-- **Every call and every callback.** -/
theorem read_owing : ∀ (d : Driver) (wanted rounds : Nat), Owing d (d.read wanted rounds) { side := .rx }
  | .portal, wanted, _ => portalRead_owing wanted
  | .midi, wanted, rounds => midiRead_owing wanted rounds

theorem write_owing : ∀ (d : Driver) (length : Nat), Owing d (d.write length) { side := .tx }
  | .portal, length => portalWrite_owing length
  | .midi, length => midiWrite_owing length

theorem callback_owing : ∀ (d : Driver) (q : Q) (rounds : Nat), Owing d (d.callback q rounds) { side := q }
  | .portal, .tx, n | .midi, .tx, n => txCallback_owing n
  | .portal, .rx, n => portalRxCallback_owing n
  | .midi, .rx, n => midiRxCallback_owing n

end

end Transfers
end Prose
