import Prose.ArenaModel
/-!
# ArenaKept — what every request keeps of the arena

The driver's walk in 64-bit arithmetic is the exact one, as the pool is far from `2 ^ 64`.  Its sums over a client's fields are not.
-/
namespace Prose
namespace Arena

open List

section
variable {pool : Pool} {s s' : State} {size at' : UInt64} {ps : List Pane} {p q : Pane}

def used (ps : List Pane) : List (Nat × Nat) := (ps.filter (·.used)).map Pane.range

theorem mem_used {r : Nat × Nat} : r ∈ used ps ↔ ∃ p ∈ ps, p.used = true ∧ p.range = r := by
  unfold used
  rw [mem_map]
  exact exists_congr fun p => by rw [mem_filter, and_assoc]

structure Placed (pool : Pool) (ps : List Pane) : Prop where
  inside : ∀ p ∈ ps, p.used = true → Inside pool.arenaOffset.toNat pool.arenaSize.toNat p.range
  aligned : ∀ p ∈ ps, p.used = true → shmAlignment.toNat ∣ p.offset.toNat ∧ shmAlignment.toNat ∣ p.size.toNat

def Pool.top (pool : Pool) : Nat := pool.arenaOffset.toNat + pool.arenaSize.toNat

theorem Placed.end_eq (h : Placed pool ps) (hp : p ∈ ps) (hu : p.used = true) :
    (p.offset + p.size).toNat = p.range.1 + p.range.2 ∧ p.range.1 + p.range.2 ≤ pool.top := by
  have hin := (h.inside p hp hu).2
  have hmapped := pool.mapped
  refine ⟨?_, hin⟩
  rw [UInt64.toNat_add]
  unfold Pane.range at hin ⊢
  dsimp only at hin ⊢
  omega

/-- **One pass**, and the whole walk, is the exact one. -/
theorem stepOver_eq : ∀ {ps : List Pane} {at' : UInt64}, Placed pool ps → size.toNat < 2 ^ 63 → at'.toNat ≤ pool.top →
    (stepOver size ps at').1.toNat = (FirstFit.pass size.toNat (used ps) at'.toNat).1 ∧
      (stepOver size ps at').2 = (FirstFit.pass size.toNat (used ps) at'.toNat).2
  | [], _, _, _, _ => ⟨rfl, rfl⟩
  | p :: ps, at', h, hsize, hat => by
    have hrest : Placed pool ps :=
      ⟨fun q hq => h.inside q (mem_cons_of_mem _ hq), fun q hq => h.aligned q (mem_cons_of_mem _ hq)⟩
    unfold stepOver
    cases hu : p.used with
    | false =>
      have hskip : used (p :: ps) = used ps := by
        unfold used
        rw [filter_cons_of_neg (by rw [hu]; exact Bool.false_ne_true)]
      rw [hskip]
      exact stepOver_eq hrest hsize hat
    | true =>
      have hcons : used (p :: ps) = p.range :: used ps := by
        unfold used
        rw [filter_cons_of_pos hu, map_cons]
      obtain ⟨hend, hle⟩ := h.end_eq mem_cons_self hu
      have hmapped := pool.mapped
      have hsum : (at' + size).toNat = at'.toNat + size.toNat := by
        rw [UInt64.toNat_add]
        unfold Pool.top at hat
        omega
      have hiff : (at' < p.offset + p.size ∧ at' + size > p.offset) ↔ FirstFit.Overlaps at'.toNat size.toNat p.range := by
        unfold FirstFit.Overlaps
        rw [gt_iff_lt, UInt64.lt_iff_toNat_lt, UInt64.lt_iff_toNat_lt, hend, hsum]
        rfl
      rw [hcons]
      unfold FirstFit.pass
      rw [if_neg (by decide)]
      by_cases ho : FirstFit.Overlaps at'.toNat size.toNat p.range
      · rw [if_pos (hiff.2 ho), if_pos ho, ← hend]
        exact ⟨(stepOver_eq hrest hsize (hend.le.trans hle)).1, rfl⟩
      · rw [if_neg (fun hn => ho (hiff.1 hn)), if_neg ho]
        exact stepOver_eq hrest hsize hat

theorem pass_le_top (h : Placed pool ps) {n a : Nat} (ha : a ≤ pool.top) : (FirstFit.pass n (used ps) a).1 ≤ pool.top := by
  refine FirstFit.pass_inv (P := (· ≤ pool.top)) (fun x _ r hr _ => ?_) ha
  obtain ⟨p, hp, hu, rfl⟩ := mem_used.1 hr
  exact (h.end_eq hp hu).2

theorem walk_eq (h : Placed pool ps) (hsize : size.toNat < 2 ^ 63) : ∀ {n : Nat} {at' : UInt64}, at'.toNat ≤ pool.top →
    (walk size ps n at').toNat = FirstFit.walk size.toNat (used ps) n at'.toNat
  | 0, _, _ => rfl
  | n + 1, at', hat => by
    obtain ⟨hfst, hsnd⟩ := stepOver_eq h hsize hat
    unfold walk FirstFit.walk
    rw [hsnd]
    split
    · rw [walk_eq h hsize (by rw [hfst]; exact pass_le_top h hat), hfst]
    · exact hfst

/-! ## The place of an allocation -/

/-- **Rounding up**: what is asked for, and less than one piece more. -/
theorem alignUp_spec {x : UInt64} (h : x.toNat < 2 ^ 62) : shmAlignment.toNat ∣ (alignUp x).toNat ∧ x.toNat ≤ (alignUp x).toNat ∧
    (alignUp x).toNat < x.toNat + shmAlignment.toNat := by
  have hsum : (x + shmAlignment - 1).toNat = x.toNat + 16383 := by
    have hadd : (x + shmAlignment).toNat = x.toNat + 16384 := by
      rw [UInt64.toNat_add]
      show (x.toNat + 16384) % 2 ^ 64 = _
      omega
    rw [UInt64.toNat_sub_of_le _ _ (by rw [UInt64.le_iff_toNat_le, hadd]; show 1 ≤ _; omega), hadd]
    show x.toNat + 16384 - 1 = _
    omega
  have heq : (alignUp x).toNat = (x.toNat + 16383) / 16384 * 16384 := by
    unfold alignUp
    rw [UInt64.toNat_mul, UInt64.toNat_div, hsum]
    show (x.toNat + 16383) / 16384 * 16384 % 2 ^ 64 = _
    omega
  rw [heq, show shmAlignment.toNat = 16384 from rfl]
  exact ⟨Nat.dvd_mul_left .., by omega, by omega⟩

theorem size_le_of_dvd {k asked size d : Nat} (hsize : k ∣ size) (hlt : size < asked + k) (hd : k ∣ d) (h : asked ≤ d) :
    size ≤ d := by
  obtain ⟨a, rfl⟩ := hsize
  obtain ⟨b, rfl⟩ := hd
  refine Nat.mul_le_mul_left k (Nat.lt_succ_iff.1 (Nat.lt_of_mul_lt_mul_left (a := k) ?_))
  rw [Nat.mul_succ]
  omega

/-- **All the panes**: each in the arena, and no two in one place. -/
structure Panes (pool : Pool) (ps : List Pane) : Prop extends Placed pool ps where
  disjoint : ∀ (i j : Nat) (p q : Pane), i ≠ j → ps[i]? = some p → ps[j]? = some q → p.used = true → q.used = true →
    ¬ FirstFit.Overlaps p.range.1 p.range.2 q.range
  length : ps.length = maxPanes

theorem Panes.shrink {qs : List Pane} (h : Panes pool ps) (hlen : qs.length = ps.length)
    (hold : ∀ (i : Nat) (p : Pane), qs[i]? = some p → p.used = true → ps[i]? = some p) : Panes pool qs := by
  have hmem (p : Pane) (hp : p ∈ qs) (hu : p.used = true) : p ∈ ps := by
    obtain ⟨i, hi⟩ := mem_iff_getElem?.1 hp
    exact mem_of_getElem? (hold i p hi hu)
  exact ⟨⟨fun p hp hu => h.inside p (hmem p hp hu) hu, fun p hp hu => h.aligned p (hmem p hp hu) hu⟩,
    fun i j p q hij hp hq hpu hqu => h.disjoint i j p q hij (hold i p hp hpu) (hold j q hq hqu) hpu hqu, hlen.trans h.length⟩

/-- **One more**, where nothing is. -/
theorem Panes.add (h : Panes pool ps) {i : Nat} (hin : Inside pool.arenaOffset.toNat pool.arenaSize.toNat p.range)
    (haligned : shmAlignment.toNat ∣ p.offset.toNat ∧ shmAlignment.toNat ∣ p.size.toNat)
    (hfree : ∀ q ∈ ps, q.used = true → ¬ FirstFit.Overlaps p.range.1 p.range.2 q.range) : Panes pool (ps.set i p) := by
  have hfree' (q : Pane) (hq : q ∈ ps) (hu : q.used = true) : ¬ FirstFit.Overlaps q.range.1 q.range.2 p.range := fun ho =>
    hfree q hq hu ⟨ho.2, ho.1⟩
  refine ⟨⟨fun q hq hu => ?_, fun q hq hu => ?_⟩, fun a b x y hab hx hy hxu hyu => ?_, (length_set ..).trans h.length⟩
  · rcases mem_or_eq_of_mem_set hq with hq | rfl
    · exact h.inside q hq hu
    · exact hin
  · rcases mem_or_eq_of_mem_set hq with hq | rfl
    · exact h.aligned q hq hu
    · exact haligned
  · rw [getElem?_set] at hx hy
    split at hx <;> split at hy
    · omega
    · split at hx
      · rw [← Option.some.inj hx]
        exact hfree y (mem_of_getElem? hy) hyu
      · exact nomatch hx
    · split at hy
      · rw [← Option.some.inj hy]
        exact hfree' x (mem_of_getElem? hx) hxu
      · exact nomatch hy
    · exact h.disjoint a b x y hab hx hy hxu hyu

def place (pool : Pool) (size : UInt64) (ps : List Pane) : UInt64 := walk size ps (maxPanes + 1) pool.arenaOffset

/-- **It is free, and in the arena or at its top**; and no lower place has room. -/
theorem place_spec (h : Panes pool ps) {asked : UInt64} (hasked : asked.toNat < 2 ^ 62) :
    (pool.arenaOffset.toNat ≤ (place pool (alignUp asked) ps).toNat ∧ (place pool (alignUp asked) ps).toNat ≤ pool.top ∧
      shmAlignment.toNat ∣ (place pool (alignUp asked) ps).toNat) ∧
    (∀ p ∈ ps, p.used = true →
      ¬ FirstFit.Overlaps (place pool (alignUp asked) ps).toNat (alignUp asked).toNat p.range) ∧
    ∀ g, pool.arenaOffset.toNat ≤ g → (∀ p ∈ ps, p.used = true → ¬ FirstFit.Overlaps g asked.toNat p.range) →
      (place pool (alignUp asked) ps).toNat ≤ g := by
  obtain ⟨hdvd, hle, hlt⟩ := alignUp_spec hasked
  have hk : shmAlignment.toNat = 16384 := rfl
  have heq : (place pool (alignUp asked) ps).toNat =
      FirstFit.walk (alignUp asked).toNat (used ps) (maxPanes + 1) pool.arenaOffset.toNat :=
    walk_eq h.toPlaced (by omega) (Nat.le_add_right _ _)
  have hended (p : Pane) (hp : p ∈ ps) (hu : p.used = true) : shmAlignment.toNat ∣ p.range.1 + p.range.2 :=
    Nat.dvd_add (h.aligned p hp hu).1 (h.aligned p hp hu).2
  rw [heq]
  refine ⟨?_, fun p hp hu => ?_, fun g hg hfree => ?_⟩
  · refine FirstFit.walk_inv (P := fun x => pool.arenaOffset.toNat ≤ x ∧ x ≤ pool.top ∧ shmAlignment.toNat ∣ x)
      (fun x hx r hr ho => ?_) ⟨Nat.le_refl _, Nat.le_add_right _ _, pool.offset_dvd⟩
    obtain ⟨p, hp, hu, rfl⟩ := mem_used.1 hr
    exact ⟨hx.1.trans ho.1.le, (h.end_eq hp hu).2, hended p hp hu⟩
  · refine FirstFit.walk_free ?_ _ (mem_used.2 ⟨p, hp, hu, rfl⟩)
    have hlen : (used ps).length ≤ maxPanes := by
      unfold used
      rw [length_map, ← h.length]
      exact length_filter_le ..
    omega
  · refine (FirstFit.walk_inv (P := fun x => x ≤ g ∧ shmAlignment.toNat ∣ x) (fun x hx r hr ho => ?_) ⟨hg, pool.offset_dvd⟩).1
    obtain ⟨p, hp, hu, rfl⟩ := mem_used.1 hr
    refine ⟨Nat.not_lt.1 fun hgt => ?_, hended p hp hu⟩
    -- a pane behind the gap is behind the rounded size too
    have hbehind : g + asked.toNat ≤ p.range.1 := Nat.not_lt.1 fun hlt' => hfree p hp hu ⟨hgt, hlt'⟩
    have hxp : x ≤ p.range.1 := by omega
    have hdist := size_le_of_dvd hdvd hlt (Nat.dvd_sub (h.aligned p hp hu).1 hx.2)
      (show asked.toNat ≤ p.offset.toNat - x by
        have : p.range.1 = p.offset.toNat := rfl
        omega)
    have hfirst : p.range.1 < x + (alignUp asked).toNat := ho.2
    have : p.range.1 = p.offset.toNat := rfl
    omega

/-- **Room is refused only where there is none.** -/
theorem place_refused (h : Panes pool ps) {asked : UInt64} (hasked : asked.toNat < 2 ^ 62)
    (hno : pool.top < (place pool (alignUp asked) ps).toNat + (alignUp asked).toNat) {g : Nat}
    (hg : Inside pool.arenaOffset.toNat pool.arenaSize.toNat (g, asked.toNat)) :
    ∃ p ∈ ps, p.used = true ∧ FirstFit.Overlaps g asked.toNat p.range := by
  by_contra hnone
  obtain ⟨⟨-, htop, hat⟩, -, hleast⟩ := place_spec h hasked
  obtain ⟨hdvd, -, hlt⟩ := alignUp_spec hasked
  have hle := hleast g hg.1 fun p hp hu ho => hnone ⟨p, hp, hu, ho⟩
  have hdist : (alignUp asked).toNat ≤ pool.top - (place pool (alignUp asked) ps).toNat := by
    refine size_le_of_dvd hdvd hlt (Nat.dvd_sub (Nat.dvd_add pool.offset_dvd pool.size_dvd) hat) ?_
    have := hg.2
    unfold Pool.top
    omega
  omega

end

end Arena
end Prose
