import Mathlib.Data.List.Count
import Mathlib.Order.Nat
/-!
# FirstFit — the lowest place that nothing overlaps

Ranges are a start and a length.  A place is moved behind whatever overlaps it, over and over the list, until a pass leaves it where
it is.  Every pass that moves it leaves one more range behind, so as many passes as there are ranges, and one, are enough.
-/
namespace FirstFit

open List

/-- What begins at `at` and is so long overlaps that range. -/
def Overlaps (at' size : Nat) (r : Nat × Nat) : Prop := at' < r.1 + r.2 ∧ r.1 < at' + size

instance (at' size : Nat) (r : Nat × Nat) : Decidable (Overlaps at' size r) := inferInstanceAs (Decidable (_ ∧ _))

def pass (size : Nat) : List (Nat × Nat) → Nat → Nat × Bool
  | [], at' => (at', false)
  | r :: rs, at' => if Overlaps at' size r then ((pass size rs (r.1 + r.2)).1, true) else pass size rs at'

def walk (size : Nat) (rs : List (Nat × Nat)) : Nat → Nat → Nat
  | 0, at' => at'
  | n + 1, at' => if (pass size rs at').2 then walk size rs n (pass size rs at').1 else (pass size rs at').1

variable {size : Nat} {P : Nat → Prop}

/-- **What the end of every overlapping range keeps, a pass keeps**; and the walk. -/
theorem pass_inv : ∀ {rs : List (Nat × Nat)} {a : Nat}, (∀ x, P x → ∀ r ∈ rs, Overlaps x size r → P (r.1 + r.2)) → P a →
    P (pass size rs a).1
  | [], _, _, ha => ha
  | r :: rs, a, h, ha => by
    unfold pass
    split
    · next ho => exact pass_inv (fun x hx q hq => h x hx q (mem_cons_of_mem _ hq)) (h a ha r mem_cons_self ho)
    · exact pass_inv (fun x hx q hq => h x hx q (mem_cons_of_mem _ hq)) ha

theorem walk_inv {rs : List (Nat × Nat)} (h : ∀ x, P x → ∀ r ∈ rs, Overlaps x size r → P (r.1 + r.2)) : ∀ {n a : Nat}, P a →
    P (walk size rs n a)
  | 0, _, ha => ha
  | n + 1, a, ha => by
    unfold walk
    split
    · exact walk_inv h (pass_inv h ha)
    · exact pass_inv h ha

theorem le_pass {rs : List (Nat × Nat)} {a : Nat} : a ≤ (pass size rs a).1 :=
  pass_inv (P := (a ≤ ·)) (fun _ hx _ _ ho => hx.trans ho.1.le) (Nat.le_refl a)

theorem pass_unmoved : ∀ {rs : List (Nat × Nat)} {a : Nat}, (pass size rs a).2 = false →
    (pass size rs a).1 = a ∧ ∀ r ∈ rs, ¬ Overlaps a size r
  | [], _, _ => ⟨rfl, nofun⟩
  | r :: rs, a, h => by
    unfold pass at h ⊢
    split at h
    · exact nomatch h
    rename_i ho
    obtain ⟨hsame, hrest⟩ := pass_unmoved h
    rw [if_neg ho]
    exact ⟨hsame, fun q hq => (mem_cons.1 hq).elim (fun he => he ▸ ho) (hrest q)⟩

def passed (rs : List (Nat × Nat)) (a : Nat) : Nat := rs.countP fun r => r.1 + r.2 ≤ a

theorem passed_mono {rs : List (Nat × Nat)} {a b : Nat} (h : a ≤ b) : passed rs a ≤ passed rs b :=
  countP_mono_left fun _ _ hr => decide_eq_true ((of_decide_eq_true hr).trans h)

theorem passed_le {rs : List (Nat × Nat)} {a : Nat} : passed rs a ≤ rs.length := countP_le_length

theorem pass_moved : ∀ {rs : List (Nat × Nat)} {a : Nat}, (pass size rs a).2 = true → passed rs a < passed rs (pass size rs a).1
  | [], _, h => nomatch h
  | r :: rs, a, h => by
    unfold pass at h ⊢
    unfold passed
    rw [countP_cons, countP_cons]
    split at h
    · next ho =>
      rw [if_pos ho]
      have hle : r.1 + r.2 ≤ (pass size rs (r.1 + r.2)).1 := le_pass
      have hmono : passed rs a ≤ passed rs (pass size rs (r.1 + r.2)).1 := passed_mono (ho.1.le.trans hle)
      rw [if_neg (by simpa using ho.1), if_pos (by simpa using hle)]
      exact Nat.lt_succ_of_le hmono
    · next ho =>
      rw [if_neg ho]
      have hlt : passed rs a < passed rs (pass size rs a).1 := pass_moved h
      have hhead : (if decide (r.1 + r.2 ≤ a) = true then 1 else 0) ≤ (if decide (r.1 + r.2 ≤ (pass size rs a).1) = true then 1 else 0) := by
        split
        · next hr => rw [if_pos (decide_eq_true ((of_decide_eq_true hr).trans le_pass))]
        · exact Nat.zero_le _
      exact Nat.add_lt_add_of_lt_of_le hlt hhead

/-- **The place is free.** -/
theorem walk_free {rs : List (Nat × Nat)} : ∀ {n a : Nat}, rs.length < n + passed rs a →
    ∀ r ∈ rs, ¬ Overlaps (walk size rs n a) size r
  | 0, a, h => absurd h (Nat.not_lt.2 (by rw [Nat.zero_add]; exact passed_le))
  | n + 1, a, h => by
    unfold walk
    split
    · next hm =>
      have := pass_moved hm
      exact walk_free (by omega)
    rename_i hm
    obtain ⟨hsame, hfree⟩ := pass_unmoved (Bool.eq_false_iff.2 hm)
    rw [hsame]
    exact hfree

end FirstFit
