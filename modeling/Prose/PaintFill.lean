import Mathlib.Data.Finset.Prod
import Mathlib.Data.Set.Card
import Mathlib.Order.Interval.Finset.Nat
import Prose.Explore
import Prose.PaintStroke
/-!
# PaintFill — what `FillAt` fills

The fill marks pixels run by run and keeps the seeds of the rows above and below on a stack.  What it has marked it has
recoloured, and what it has not is as it was, so that the test against the seed's colour reads the layer as it was.
-/
namespace Prose
namespace Paint

open Explore Splice List

/-! ## The component of the seed -/

def Adjacent (p q : Nat × Nat) : Prop :=
  p.2 = q.2 ∧ (p.1 + 1 = q.1 ∨ q.1 + 1 = p.1) ∨ p.1 = q.1 ∧ (p.2 + 1 = q.2 ∨ q.2 + 1 = p.2)

def Alike (tolerance : UInt8) (seed p : Pixel) : Prop :=
  absDiff p.b seed.b ≤ tolerance.toNat ∧ absDiff p.g seed.g ≤ tolerance.toNat ∧ absDiff p.r seed.r ≤ tolerance.toNat ∧
    absDiff p.a seed.a ≤ tolerance.toNat

def Spreads (width height : Nat) (alike : Pixel → Prop) (m : BBitmap) (p q : Nat × Nat) : Prop :=
  Adjacent p q ∧ q.1 < width ∧ q.2 < height ∧ alike (m.pixel q.1 q.2)

/-- The 4-connected component of the seed among the pixels alike.  It is empty when no layer is active or the seed is off the
canvas. -/
def PPDocument.component (d : PPDocument) (x y : Int) (tolerance : UInt8) : Set (Nat × Nat) :=
  match d.activeLayer with
  | none   => ∅
  | some l =>
    if x < 0 ∨ x ≥ d.fWidth ∨ y < 0 ∨ y ≥ d.fHeight then ∅
    else Reached (Spreads d.fWidth d.fHeight (Alike tolerance (l.bits.pixel x.toNat y.toNat)) l.bits) (x.toNat, y.toNat)

theorem absDiff_le_zero {x y : UInt8} : absDiff x y ≤ 0 ↔ x = y := by
  unfold absDiff
  rw [← UInt8.toNat_inj]
  omega

theorem near_iff (seed : Pixel) (tolerance : UInt8) (p : Pixel) : near seed tolerance p = true ↔ Alike tolerance seed p := by
  unfold near Alike
  split_ifs with h
  · subst h
    simp only [UInt8.toNat_zero, absDiff_le_zero, decide_eq_true_eq]
  · simp only [Bool.and_eq_true, Bool.not_eq_true', decide_eq_false_iff_not, not_lt, and_assoc, gt_iff_lt]

/-! ## A run of a row -/

theorem walkLeft_spec (ok : Nat → Bool) : ∀ n, (∀ x, walkLeft ok n ≤ x → x < n → ok x = true) ∧
    ∀ x, x + 1 = walkLeft ok n → ok x = false
  | 0 => ⟨fun x _ hx => absurd hx (Nat.not_lt_zero x), fun x hx => by simp [walkLeft] at hx⟩
  | n + 1 => by
    obtain ⟨hin, hend⟩ := walkLeft_spec ok n
    unfold walkLeft
    cases hn : ok n with
    | true =>
      rw [if_pos rfl]
      refine ⟨fun x hx hlt => ?_, hend⟩
      rcases Nat.lt_succ_iff_lt_or_eq.1 hlt with hlt | rfl
      · exact hin x hx hlt
      · exact hn
    | false =>
      rw [if_neg Bool.false_ne_true]
      refine ⟨fun x hx hlt => absurd hlt (Nat.not_lt.2 hx), fun x hx => ?_⟩
      rw [Nat.succ_inj.1 hx]
      exact hn

theorem walkRight_spec (ok : Nat → Bool) : ∀ n right, (∀ x, right < x → x ≤ walkRight ok n right → ok x = true) ∧
    (walkRight ok n right < right + n → ok (walkRight ok n right + 1) = false)
  | 0, right => ⟨fun x hx hle => absurd hle (Nat.not_le.2 hx), fun h => absurd h (Nat.lt_irrefl _)⟩
  | n + 1, right => by
    obtain ⟨hin, hend⟩ := walkRight_spec ok n (right + 1)
    unfold walkRight
    cases hn : ok (right + 1) with
    | true =>
      rw [if_pos rfl]
      refine ⟨fun x hx hle => ?_, fun h => hend (by omega)⟩
      rcases Nat.lt_or_eq_of_le (Nat.succ_le_of_lt hx) with hlt | rfl
      · exact hin x hlt hle
      · exact hn
    | false =>
      rw [if_neg Bool.false_ne_true]
      exact ⟨fun x hx hle => absurd hle (Nat.not_le.2 hx), fun _ => hn⟩

theorem index_in_span {width x y py left right : Nat} (hx : x < width) (hright : right < width) :
    py * width + left ≤ y * width + x ∧ y * width + x < py * width + right + 1 ↔ y = py ∧ left ≤ x ∧ x ≤ right := by
  rcases Nat.lt_trichotomy y py with h | rfl | h
  · have hrow : (y + 1) * width ≤ py * width := Nat.mul_le_mul_right width h
    rw [Nat.add_mul, Nat.one_mul] at hrow
    omega
  · omega
  · have hrow : (py + 1) * width ≤ y * width := Nat.mul_le_mul_right width h
    rw [Nat.add_mul, Nat.one_mul] at hrow
    omega

theorem mem_foldl_push {α β : Type} (push : List β → α → List β) (p : α → β → Prop)
    (h : ∀ stack a b, b ∈ push stack a ↔ b ∈ stack ∨ p a b) : ∀ (as : List α) (stack : List β) (b : β),
    b ∈ as.foldl push stack ↔ b ∈ stack ∨ ∃ a ∈ as, p a b
  | [], stack, b => by simp
  | a :: as, stack, b => by
    rw [foldl_cons, mem_foldl_push push p h as, h, or_assoc, exists_mem_cons_iff]

theorem index_inj {width x y x' y' : Nat} (hx : x < width) (hx' : x' < width) (h : y * width + x = y' * width + x') :
    x = x' ∧ y = y' := by
  obtain ⟨hy, hle, hge⟩ := (@index_in_span width x y y' x' x' hx hx').1 (by omega)
  exact ⟨Nat.le_antisymm hge hle, hy⟩

/-! ## The fill under way -/

def markedPoints (width height : Nat) (visited : List Bool) : Finset (Nat × Nat) :=
  (Finset.range width ×ˢ Finset.range height).filter (fun q => visited.getD (q.2 * width + q.1) true = true)

def waitingPoints (width : Nat) (stack : List Nat) : Set (Nat × Nat) := {q | q.1 < width ∧ q.2 * width + q.1 ∈ stack}

theorem mem_markedPoints {width height : Nat} {visited : List Bool} {q : Nat × Nat} :
    q ∈ markedPoints width height visited ↔ (q.1 < width ∧ q.2 < height) ∧ visited.getD (q.2 * width + q.1) true = true := by
  unfold markedPoints
  rw [Finset.mem_filter, Finset.mem_product, Finset.mem_range, Finset.mem_range]

section
variable (width height : Nat) (alike : Pixel → Prop) (colour : Pixel) (m : BBitmap) (seed : Nat × Nat)

/-- What is marked is recoloured and counted, and the rest is as it was. -/
structure Filling (s : FillState) : Prop where
  length : s.visited.length = width * height
  filled : s.filled = (markedPoints width height s.visited).card
  painted : ∀ q ∈ markedPoints width height s.visited, s.bits.pixel q.1 q.2 = colour
  spared : ∀ q ∉ markedPoints width height s.visited, s.bits.pixel q.1 q.2 = m.pixel q.1 q.2
  exploring : Exploring (Spreads width height alike m) seed (markedPoints width height s.visited) (waitingPoints width s.stack)

structure Run (s : FillState) (px py left right : Nat) : Prop where
  left_le : left ≤ px
  le_right : px ≤ right
  right_lt : right < width
  unmarked : ∀ x, left ≤ x → x ≤ right → s.visited.getD (py * width + x) true = false
  similar : ∀ x, left ≤ x → x ≤ right → x ≠ px → alike (s.bits.pixel x py)
  left_end : ∀ x, x + 1 = left → alike (s.bits.pixel x py) → s.visited.getD (py * width + x) true = true
  right_end : right + 1 < width → alike (s.bits.pixel (right + 1) py) → s.visited.getD (py * width + (right + 1)) true = true

end

/-- `FillAt`'s test of a pixel that is not marked. -/
def unfilled (width : Nat) (nearSeed : Pixel → Bool) (visited : List Bool) (bits : BBitmap) (x y : Nat) : Bool :=
  !visited.getD (y * width + x) true && nearSeed (bits.pixel x y)

section
variable {width height : Nat} {alike : Pixel → Prop} {nearSeed : Pixel → Bool} (hnear : ∀ p, nearSeed p = true ↔ alike p)
include hnear

theorem unfilled_iff {visited : List Bool} {bits : BBitmap} {x y : Nat} :
    unfilled width nearSeed visited bits x y = true ↔ visited.getD (y * width + x) true = false ∧ alike (bits.pixel x y) := by
  unfold unfilled
  rw [Bool.and_eq_true, Bool.not_eq_true', hnear]

theorem run_of_walk {s : FillState} {px py : Nat} (hpx : px < width) (hv : s.visited.getD (py * width + px) true = false) :
    Run width alike s px py (walkLeft (fun x => unfilled width nearSeed s.visited s.bits x py) px)
      (walkRight (fun x => unfilled width nearSeed s.visited s.bits x py) (width - 1 - px) px) := by
  obtain ⟨hleft, hleftEnd⟩ := walkLeft_spec (fun x => unfilled width nearSeed s.visited s.bits x py) px
  obtain ⟨hright, hrightEnd⟩ := walkRight_spec (fun x => unfilled width nearSeed s.visited s.bits x py) (width - 1 - px) px
  have hle := walkLeft_le (fun x => unfilled width nearSeed s.visited s.bits x py) px
  have hge := le_walkRight (fun x => unfilled width nearSeed s.visited s.bits x py) (width - 1 - px) px
  have hlt := walkRight_le (fun x => unfilled width nearSeed s.visited s.bits x py) (width - 1 - px) px
  generalize walkLeft (fun x => unfilled width nearSeed s.visited s.bits x py) px = left at *
  generalize walkRight (fun x => unfilled width nearSeed s.visited s.bits x py) (width - 1 - px) px = right at *
  have hunfilled : ∀ x, left ≤ x → x ≤ right → x ≠ px → unfilled width nearSeed s.visited s.bits x py = true := by
    intro x hl hr hne
    rcases Nat.lt_or_gt_of_ne hne with h | h
    · exact hleft x hl h
    · exact hright x h hr
  -- a pixel alike that ends a run has been marked
  have hend {x : Nat} (hx : unfilled width nearSeed s.visited s.bits x py = false) (ha : alike (s.bits.pixel x py)) :
      s.visited.getD (py * width + x) true = true := by
    by_contra hno
    rw [(unfilled_iff hnear).2 ⟨Bool.eq_false_of_not_eq_true hno, ha⟩] at hx
    cases hx
  refine ⟨hle, hge, by omega, fun x hl hr => ?_, fun x hl hr hne => ((unfilled_iff hnear).1 (hunfilled x hl hr hne)).2,
    fun x hx ha => hend (hleftEnd x hx) ha, fun hr ha => hend (hrightEnd (by omega)) ha⟩
  by_cases hne : x = px
  · rw [hne]
    exact hv
  · exact ((unfilled_iff hnear).1 (hunfilled x hl hr hne)).1

end

def pushSeeds (width height : Nat) (nearSeed : Pixel → Bool) (py : Nat) (visited : List Bool) (bits : BBitmap) (stack : List Nat)
    (x : Nat) : List Nat :=
  let stack := if py > 0 ∧ unfilled width nearSeed visited bits x (py - 1) then ((py - 1) * width + x) :: stack else stack
  if py + 1 < height ∧ unfilled width nearSeed visited bits x (py + 1) then ((py + 1) * width + x) :: stack else stack

def fillSpan (width height : Nat) (nearSeed : Pixel → Bool) (colour : Pixel) (s : FillState) (py left right : Nat) : FillState :=
  let visited := mapSpan (py * width + left) (py * width + right + 1) (fun _ => true) s.visited
  let bits := { s.bits with pixel := fun x y => if y = py ∧ left ≤ x ∧ x ≤ right then colour else s.bits.pixel x y }
  { bits := bits, visited := visited
    stack := (List.range' left (right + 1 - left)).foldl (pushSeeds width height nearSeed py visited bits) s.stack
    filled := s.filled + (right + 1 - left) }

theorem fillRun_eq (width height : Nat) (nearSeed : Pixel → Bool) (colour : Pixel) (s : FillState) (idx : Nat) :
    fillRun width height nearSeed colour s idx = fillSpan width height nearSeed colour s (idx / width)
      (walkLeft (fun x => unfilled width nearSeed s.visited s.bits x (idx / width)) (idx % width))
      (walkRight (fun x => unfilled width nearSeed s.visited s.bits x (idx / width)) (width - 1 - idx % width) (idx % width)) := rfl

def IsSeed (width height : Nat) (nearSeed : Pixel → Bool) (py : Nat) (visited : List Bool) (bits : BBitmap) (x y : Nat) : Prop :=
  (y + 1 = py ∨ y = py + 1 ∧ y < height) ∧ unfilled width nearSeed visited bits x y = true

theorem mem_pushSeeds (width height : Nat) (nearSeed : Pixel → Bool) (py : Nat) (visited : List Bool) (bits : BBitmap)
    (stack : List Nat) (x b : Nat) : b ∈ pushSeeds width height nearSeed py visited bits stack x ↔
      b ∈ stack ∨ ∃ y, IsSeed width height nearSeed py visited bits x y ∧ b = y * width + x := by
  have habove : (∃ y, (y + 1 = py ∧ unfilled width nearSeed visited bits x y = true) ∧ b = y * width + x) ↔
      (py > 0 ∧ unfilled width nearSeed visited bits x (py - 1) = true) ∧ b = (py - 1) * width + x := by
    constructor
    · rintro ⟨y, ⟨rfl, h⟩, hb⟩
      exact ⟨⟨Nat.succ_pos y, h⟩, hb⟩
    · rintro ⟨⟨h0, h⟩, hb⟩
      exact ⟨py - 1, ⟨by omega, h⟩, hb⟩
  have hbelow : (∃ y, ((y = py + 1 ∧ y < height) ∧ unfilled width nearSeed visited bits x y = true) ∧ b = y * width + x) ↔
      (py + 1 < height ∧ unfilled width nearSeed visited bits x (py + 1) = true) ∧ b = (py + 1) * width + x := by
    constructor
    · rintro ⟨y, ⟨⟨rfl, hy⟩, h⟩, hb⟩
      exact ⟨⟨hy, h⟩, hb⟩
    · rintro ⟨⟨hy, h⟩, hb⟩
      exact ⟨py + 1, ⟨⟨rfl, hy⟩, h⟩, hb⟩
  have hpush (c : Prop) [Decidable c] (i : Nat) (l : List Nat) : b ∈ (if c then i :: l else l) ↔ b ∈ l ∨ c ∧ b = i := by
    split_ifs with hc
    · rw [mem_cons, or_comm]
      simp only [hc, true_and]
    · simp only [hc, false_and, or_false]
  unfold pushSeeds IsSeed
  rw [hpush, hpush, ← habove, ← hbelow, or_assoc, ← exists_or]
  simp only [or_and_right]

theorem mem_fillSpan_stack {width height : Nat} {nearSeed : Pixel → Bool} {colour : Pixel} {s : FillState} {py left right b : Nat} :
    b ∈ (fillSpan width height nearSeed colour s py left right).stack ↔ b ∈ s.stack ∨ ∃ x, (left ≤ x ∧ x ≤ right) ∧
      ∃ y, IsSeed width height nearSeed py (fillSpan width height nearSeed colour s py left right).visited
        (fillSpan width height nearSeed colour s py left right).bits x y ∧ b = y * width + x := by
  have hrange (x : Nat) : x ∈ List.range' left (right + 1 - left) ↔ left ≤ x ∧ x ≤ right := by
    rw [mem_range'_1]
    omega
  refine (mem_foldl_push _ _ (mem_pushSeeds width height nearSeed py _ _) _ _ b).trans (or_congr_right ?_)
  simp only [hrange]
  rfl

/-! ## One run more -/

theorem reached_onCanvas {width height : Nat} {alike : Pixel → Prop} {m : BBitmap} {seed : Nat × Nat}
    (hseed : seed.1 < width ∧ seed.2 < height) :
    Reached (Spreads width height alike m) seed ⊆ {q | q.1 < width ∧ q.2 < height} :=
  Reached.subset hseed (fun _ _ h => ⟨h.2.1, h.2.2.1⟩)

section
variable {width height : Nat} {alike : Pixel → Prop} {nearSeed : Pixel → Bool} {colour : Pixel} {m : BBitmap} {seed : Nat × Nat}
variable {s : FillState} {px py left right : Nat} (hrun : Run width alike s px py left right)
include hrun

theorem Run.mem_marked (hlength : s.visited.length = width * height) (hpy : py < height) {q : Nat × Nat} :
    q ∈ markedPoints width height (fillSpan width height nearSeed colour s py left right).visited ↔
      q ∈ markedPoints width height s.visited ∨ q.2 = py ∧ left ≤ q.1 ∧ q.1 ≤ right := by
  rw [mem_markedPoints, mem_markedPoints]
  have hrow : q.2 = py ∧ left ≤ q.1 ∧ q.1 ≤ right → q.1 < width ∧ q.2 < height := by
    rintro ⟨h2, -, hle⟩
    exact ⟨Nat.lt_of_le_of_lt hle hrun.right_lt, h2 ▸ hpy⟩
  by_cases hq : q.1 < width ∧ q.2 < height
  · have hrows : (q.2 + 1) * width ≤ height * width := Nat.mul_le_mul_right width hq.2
    rw [Nat.add_mul, Nat.one_mul, Nat.mul_comm height] at hrows
    have hlt : q.2 * width + q.1 < s.visited.length := by omega
    show _ ∧ (mapSpan _ _ _ _).getD _ _ = true ↔ _
    rw [getD_eq_getElem?_getD, getD_eq_getElem?_getD, mapSpan_getElem?, getElem?_eq_getElem hlt, Option.map_some,
      Option.getD_some, Option.getD_some]
    simp only [index_in_span hq.1 hrun.right_lt]
    by_cases hin : q.2 = py ∧ left ≤ q.1 ∧ q.1 ≤ right
    · rw [if_pos hin]
      exact iff_of_true ⟨hq, rfl⟩ (.inr hin)
    · rw [if_neg hin]
      exact (or_iff_left hin).symm
  · exact iff_of_false (fun h => hq h.1) (fun h => hq (h.elim (·.1) hrow))

theorem Run.not_marked {q : Nat × Nat} (hq : q.2 = py ∧ left ≤ q.1 ∧ q.1 ≤ right) : q ∉ markedPoints width height s.visited := by
  intro hmarked
  obtain ⟨rfl, hl, hr⟩ := hq
  have h := (mem_markedPoints.1 hmarked).2
  rw [hrun.unmarked q.1 hl hr] at h
  cases h

theorem Run.card (hlength : s.visited.length = width * height) (hpy : py < height) :
    (markedPoints width height (fillSpan width height nearSeed colour s py left right).visited).card =
      (markedPoints width height s.visited).card + (right + 1 - left) := by
  have hunion : markedPoints width height (fillSpan width height nearSeed colour s py left right).visited =
      markedPoints width height s.visited ∪ Finset.Icc left right ×ˢ {py} := by
    ext q
    rw [hrun.mem_marked hlength hpy, Finset.mem_union, Finset.mem_product, Finset.mem_Icc, Finset.mem_singleton, and_comm]
  have hdisjoint : Disjoint (markedPoints width height s.visited) (Finset.Icc left right ×ˢ {py}) := by
    rw [Finset.disjoint_right]
    intro q hq
    rw [Finset.mem_product, Finset.mem_Icc, Finset.mem_singleton] at hq
    exact hrun.not_marked ⟨hq.2, hq.1⟩
  rw [hunion, Finset.card_union_of_disjoint hdisjoint, Finset.card_product, Nat.card_Icc, Finset.card_singleton, Nat.mul_one]

/-- **The whole run is reached once its middle is.** -/
theorem Run.reached (hspared : ∀ q ∉ markedPoints width height s.visited, s.bits.pixel q.1 q.2 = m.pixel q.1 q.2) (hpy : py < height)
    (h : (px, py) ∈ Reached (Spreads width height alike m) seed) {x : Nat} (hl : left ≤ x) (hr : x ≤ right) :
    (x, py) ∈ Reached (Spreads width height alike m) seed := by
  have hspread : ∀ x', left ≤ x' → x' ≤ right → x' ≠ px → ∀ x'', (x'' + 1 = x' ∨ x' + 1 = x'') →
      Spreads width height alike m (x'', py) (x', py) := by
    intro x' hl' hr' hne x'' hbeside
    have hsame := hspared (x', py) (hrun.not_marked ⟨rfl, hl', hr'⟩)
    refine ⟨.inl ⟨rfl, hbeside⟩, Nat.lt_of_le_of_lt hr' hrun.right_lt, hpy, ?_⟩
    rw [← hsame]
    exact hrun.similar x' hl' hr' hne
  have hleft : ∀ k, left ≤ px - k → (px - k, py) ∈ Reached (Spreads width height alike m) seed := by
    intro k
    induction k with
    | zero => exact fun _ => h
    | succ k ih =>
      intro hk
      by_cases hzero : px ≤ k
      · rw [show px - (k + 1) = px - k by omega]
        exact ih (by omega)
      · exact Reached.next (ih (by omega)) (hspread _ hk (by have := hrun.le_right; omega) (by omega) _ (.inr (by omega)))
  have hright : ∀ k, px + k ≤ right → (px + k, py) ∈ Reached (Spreads width height alike m) seed := by
    intro k
    induction k with
    | zero => exact fun _ => h
    | succ k ih =>
      intro hk
      exact Reached.next (ih (by omega)) (hspread _ (by have := hrun.left_le; omega) hk (by omega) _ (.inl (by omega)))
  rcases Nat.le_total x px with hx | hx
  · have hk := hleft (px - x)
    rw [Nat.sub_sub_self hx] at hk
    exact hk hl
  · have hk := hright (x - px)
    rw [Nat.add_sub_cancel' hx] at hk
    exact hk hr

end

section
variable {width height : Nat} {alike : Pixel → Prop} {nearSeed : Pixel → Bool} (hnear : ∀ p, nearSeed p = true ↔ alike p)
variable {colour : Pixel} {m : BBitmap} {seed : Nat × Nat} (hseed : seed.1 < width ∧ seed.2 < height)
variable {s : FillState} (h : Filling width height alike colour m seed s)

include hseed h

theorem Filling.pop {idx : Nat} {stack : List Nat} (hs : s.stack = idx :: stack) (hv : s.visited.getD idx true = true) :
    Filling width height alike colour m seed { s with stack := stack } := by
  have hwaiting : waitingPoints width stack ⊆ waitingPoints width s.stack := fun q hq => by
    rw [hs]
    exact ⟨hq.1, mem_cons_of_mem _ hq.2⟩
  refine ⟨h.length, h.filled, h.painted, h.spared, h.exploring.turn Set.Subset.rfl (fun q hq => ?_) ?_ (fun a ha hna => absurd ha hna)⟩
  · have hcanvas := reached_onCanvas hseed (h.exploring.sound (.inr hq))
    rw [hs] at hq
    rcases mem_cons.1 hq.2 with heq | hmem
    · exact .inl (mem_markedPoints.2 ⟨hcanvas, heq ▸ hv⟩)
    · exact .inr ⟨hq.1, hmem⟩
  · exact (Set.union_subset_union_right _ hwaiting).trans h.exploring.sound

include hnear

/-- **A run more**: its pixels are marked and recoloured, and the pixels above and below it are seen to. -/
theorem Filling.span {idx : Nat} {stack : List Nat} (hs : s.stack = idx :: stack) {left right : Nat}
    (hrun : Run width alike s (idx % width) (idx / width) left right) :
    Filling width height alike colour m seed (fillSpan width height nearSeed colour { s with stack := stack } (idx / width) left right) := by
  have hw : 0 < width := Nat.lt_of_le_of_lt (Nat.zero_le _) hrun.right_lt
  have hidx : idx / width * width + idx % width = idx := Nat.div_add_mod' idx width
  have hmiddle : (idx % width, idx / width) ∈ Reached (Spreads width height alike m) seed := by
    refine h.exploring.sound (.inr ⟨Nat.mod_lt idx hw, ?_⟩)
    rw [hs, hidx]
    exact mem_cons_self
  have hpy : idx / width < height := (reached_onCanvas hseed hmiddle).2
  generalize idx % width = px at *
  generalize idx / width = py at *
  have hrun' : Run width alike { s with stack := stack } px py left right := ⟨hrun.left_le, hrun.le_right, hrun.right_lt,
    hrun.unmarked, hrun.similar, hrun.left_end, hrun.right_end⟩
  have hmarked (q : Nat × Nat) := @Run.mem_marked width height alike nearSeed colour _ px py left right hrun' h.length hpy q
  have hreached {x : Nat} (hl : left ≤ x) (hr : x ≤ right) := hrun.reached h.spared hpy hmiddle hl hr
  generalize hspan : fillSpan width height nearSeed colour { s with stack := stack } py left right = s' at *
  have hpixel (x y : Nat) : s'.bits.pixel x y = if y = py ∧ left ≤ x ∧ x ≤ right then colour else s.bits.pixel x y := by
    rw [← hspan]
    rfl
  have hspared : ∀ q ∉ markedPoints width height s'.visited, s'.bits.pixel q.1 q.2 = m.pixel q.1 q.2 := by
    intro q hq
    rw [hmarked, not_or] at hq
    rw [hpixel, if_neg hq.2]
    exact h.spared q hq.1
  have hstack (b : Nat) : b ∈ s'.stack ↔ b ∈ stack ∨ ∃ x, (left ≤ x ∧ x ≤ right) ∧
      ∃ y, IsSeed width height nearSeed py s'.visited s'.bits x y ∧ b = y * width + x := by
    rw [← hspan]
    exact mem_fillSpan_stack
  have hlength : s'.visited.length = width * height := by
    rw [← hspan]
    exact (Splice.length_mapSpan _ _ _ _).trans h.length
  have hcard : s'.filled = (markedPoints width height s'.visited).card := by
    have hcount := @Run.card width height alike nearSeed colour _ px py left right hrun' h.length hpy
    rw [hspan] at hcount
    rw [hcount, ← h.filled, ← hspan]
    rfl
  -- a seed is a pixel alike beside the run
  have hseeds {x y : Nat} (hx : left ≤ x ∧ x ≤ right) (hy : IsSeed width height nearSeed py s'.visited s'.bits x y) :
      Spreads width height alike m (x, py) (x, y) := by
    obtain ⟨hbeside, hopen⟩ := hy
    obtain ⟨hun, halike⟩ := (unfilled_iff hnear).1 hopen
    have hnot : (x, y) ∉ markedPoints width height s'.visited := fun hm => by
      have := (mem_markedPoints.1 hm).2
      rw [hun] at this
      cases this
    rw [hspared (x, y) hnot] at halike
    refine ⟨.inr ⟨rfl, hbeside.symm.imp (·.1.symm) id⟩, Nat.lt_of_le_of_lt hx.2 hrun.right_lt, ?_, halike⟩
    rcases hbeside with hab | hbe
    · show y < height
      omega
    · exact hbe.2
  refine ⟨hlength, hcard, fun q hq => ?_, hspared, h.exploring.turn (fun q hq => (hmarked q).2 (.inl hq)) (fun q hq => ?_) ?_ ?_⟩
  · rw [hpixel]
    split_ifs with hin
    · rfl
    · exact h.painted q (((hmarked q).1 hq).resolve_right hin)
  · -- what waited is in the run, or still waits
    rw [hs] at hq
    rcases mem_cons.1 hq.2 with heq | hmem
    · obtain ⟨h1, h2⟩ := index_inj hq.1 (Nat.lt_of_le_of_lt hrun.le_right hrun.right_lt) (heq.trans hidx.symm)
      refine .inl ((hmarked q).2 (.inr ⟨h2, ?_, ?_⟩))
      · rw [h1]
        exact hrun.left_le
      · rw [h1]
        exact hrun.le_right
    · exact .inr ⟨hq.1, (hstack _).2 (.inl hmem)⟩
  · rintro q (hq | hq)
    · rcases (hmarked q).1 hq with hold | ⟨rfl, hl, hr⟩
      · exact h.exploring.sound (.inl hold)
      · exact hreached hl hr
    · rcases (hstack _).1 hq.2 with hold | ⟨x, hx, y, hy, heq⟩
      · refine h.exploring.sound (.inr ⟨hq.1, ?_⟩)
        rw [hs]
        exact mem_cons_of_mem _ hold
      obtain ⟨h1, h2⟩ := index_inj hq.1 (Nat.lt_of_le_of_lt hx.2 hrun.right_lt) heq
      have hnext := Reached.next (hreached hx.1 hx.2) (hseeds hx hy)
      rw [← h1, ← h2] at hnext
      exact hnext
  · -- beside the run: its ends are marked or not alike, its seeds are pushed
    intro a ha hna b hab
    obtain ⟨rfl, hl, hr⟩ := ((hmarked a).1 ha).resolve_left hna
    by_cases hb : b ∈ markedPoints width height s'.visited
    · exact .inl hb
    obtain ⟨hbold, hbrun⟩ := not_or.1 (fun hor => hb ((hmarked b).2 hor))
    have hcanvas : b.1 < width ∧ b.2 < height := ⟨hab.2.1, hab.2.2.1⟩
    have hunmarked : ∀ v, ¬ b ∈ markedPoints width height v → v.getD (b.2 * width + b.1) true = false := fun v hnot =>
      Bool.eq_false_of_not_eq_true (fun hm => hnot (mem_markedPoints.2 ⟨hcanvas, hm⟩))
    have halike : alike (s.bits.pixel b.1 b.2) := by
      rw [h.spared b hbold]
      exact hab.2.2.2
    rcases hab.1 with ⟨hrow, hcol⟩ | ⟨hcol, hrow⟩
    · have hfalse := hunmarked s.visited hbold
      rw [← hrow] at hfalse halike hbrun
      rcases hcol with hcol | hcol
      · have hend : b.1 = right + 1 := by
          by_contra hne
          exact hbrun ⟨rfl, by omega, by omega⟩
        rw [hend] at hfalse halike
        rw [hrun.right_end (hend ▸ hcanvas.1) halike] at hfalse
        cases hfalse
      · have hend : b.1 + 1 = left := by
          by_contra hne
          exact hbrun ⟨rfl, by omega, by omega⟩
        rw [hrun.left_end b.1 hend halike] at hfalse
        cases hfalse
    · refine .inr ⟨hcanvas.1, (hstack _).2 (.inr ⟨a.1, ⟨hl, hr⟩, b.2, ⟨?_, ?_⟩, by rw [hcol]⟩)⟩
      · rcases hrow with hrow | hrow
        · exact .inr ⟨hrow.symm, hcanvas.2⟩
        · exact .inl hrow
      · refine (unfilled_iff hnear).2 ?_
        rw [hcol]
        refine ⟨hunmarked s'.visited hb, ?_⟩
        rw [hspared b hb]
        exact hab.2.2.2

end

/-! ## The fill -/

theorem filling_begun {width height : Nat} (alike : Pixel → Prop) (colour : Pixel) (m : BBitmap) {x y : Nat}
    (hx : x < width) : Filling width height alike colour m (x, y)
      { bits := m, visited := List.replicate (width * height) false, stack := [y * width + x] } := by
  have hnone : markedPoints width height (List.replicate (width * height) false) = ∅ := by
    refine Finset.eq_empty_of_forall_notMem (fun q hq => ?_)
    obtain ⟨⟨h1, h2⟩, hm⟩ := mem_markedPoints.1 hq
    have hrows : (q.2 + 1) * width ≤ height * width := Nat.mul_le_mul_right width h2
    rw [Nat.add_mul, Nat.one_mul, Nat.mul_comm height] at hrows
    rw [getD_eq_getElem?_getD, getElem?_replicate, if_pos (by omega)] at hm
    cases hm
  have hwaiting : waitingPoints width [y * width + x] = {(x, y)} := by
    ext q
    constructor
    · rintro ⟨h1, h2⟩
      obtain ⟨hqx, hqy⟩ := index_inj h1 hx (mem_singleton.1 h2)
      exact Prod.ext hqx hqy
    · rintro rfl
      exact ⟨hx, mem_cons_self⟩
  refine ⟨length_replicate, ?_, ?_, fun _ _ => rfl, ?_⟩
  · show 0 = (markedPoints _ _ (List.replicate _ _)).card
    rw [hnone]
    rfl
  · intro q hq
    rw [hnone] at hq
    exact absurd hq (Finset.notMem_empty q)
  · show Exploring _ _ ↑(markedPoints _ _ (List.replicate _ _)) (waitingPoints _ _)
    rw [hnone, hwaiting, Finset.coe_empty]
    refine ⟨.inr rfl, ?_, fun a ha => absurd ha (Set.notMem_empty a)⟩
    rw [Set.empty_union, Set.singleton_subset_iff]
    exact source_mem _ _

/-- **The loop fills the component**, and counts it. -/
theorem fillLoop_fills {width height : Nat} {alike : Pixel → Prop} {nearSeed : Pixel → Bool}
    (hnear : ∀ p, nearSeed p = true ↔ alike p) (colour : Pixel) (m : BBitmap) {x y : Nat} (hx : x < width) (hy : y < height) :
    let s := fillLoop width height nearSeed colour
      { bits := m, visited := List.replicate (width * height) false, stack := [y * width + x] }
    let component := Reached (Spreads width height alike m) (x, y)
    (∀ q ∈ component, s.bits.pixel q.1 q.2 = colour) ∧ (∀ q ∉ component, s.bits.pixel q.1 q.2 = m.pixel q.1 q.2) ∧
      component.Finite ∧ s.filled = component.ncard := by
  have hrun : ∀ s idx stack, s.stack = idx :: stack → ¬ s.visited.getD idx true = true → Filling width height alike colour m (x, y) s →
      Filling width height alike colour m (x, y) (fillRun width height nearSeed colour { s with stack := stack } idx) := by
    intro s idx stack hs hv h
    have hmod : idx % width < width := Nat.mod_lt idx (Nat.lt_of_le_of_lt (Nat.zero_le x) hx)
    have hun : s.visited.getD (idx / width * width + idx % width) true = false := by
      rw [Nat.div_add_mod' idx width]
      exact Bool.eq_false_of_not_eq_true hv
    rw [fillRun_eq]
    exact h.span hnear ⟨hx, hy⟩ hs (run_of_walk hnear hmod hun)
  obtain ⟨h, hstack⟩ := fillLoop_spec (fun s idx stack hs hv h => h.pop ⟨hx, hy⟩ hs hv) hrun _ (filling_begun alike colour m hx)
  have hdone := h.exploring
  have hempty : waitingPoints width [] = ∅ := Set.eq_empty_of_forall_notMem (fun q hq => nomatch hq.2)
  rw [hstack, hempty] at hdone
  dsimp only
  rw [← hdone.done]
  exact ⟨h.painted, h.spared, Finset.finite_toSet _, by rw [Set.ncard_coe_finset, h.filled]⟩

theorem growStep_fLayers (d : PPDocument) (r : Rect) : (d.growStep r).fLayers = d.fLayers := by
  unfold PPDocument.growStep
  split <;> rfl

/-- **`FillAt` recolours the component of the seed**, leaves every other pixel, and returns how many there are. -/
theorem fillAt_component (d : PPDocument) (x y : Int) (colour : RgbColor) (tolerance : UInt8) :
    let C := d.component x y tolerance
    C.Finite ∧ (d.fillAt x y colour tolerance).2 = C.ncard ∧
    ((d.activeLayer = none → (d.fillAt x y colour tolerance).1.fLayers = d.fLayers) ∧
      ∀ l, d.activeLayer = some l → ∃ bits : BBitmap,
        (d.fillAt x y colour tolerance).1.fLayers = setBits d.fActiveId bits d.fLayers ∧
        bits.width = l.bits.width ∧ bits.height = l.bits.height ∧
        (∀ q ∈ C, bits.pixel q.1 q.2 = ⟨colour.blue, colour.green, colour.red, 255⟩) ∧
        ∀ q ∉ C, bits.pixel q.1 q.2 = l.bits.pixel q.1 q.2) := by
  unfold PPDocument.component PPDocument.fillAt
  cases hl : d.activeLayer with
  | none => exact ⟨Set.finite_empty, Set.ncard_empty _ |>.symm, fun _ => rfl, fun l h => (nomatch h)⟩
  | some l =>
    dsimp only
    by_cases hoff : x < 0 ∨ x ≥ d.fWidth ∨ y < 0 ∨ y ≥ d.fHeight
    · rw [if_pos hoff, if_pos hoff]
      refine ⟨Set.finite_empty, Set.ncard_empty _ |>.symm, fun h => (nomatch h), fun l' h => ⟨l.bits, ?_, ?_⟩⟩
      · exact (setBits_self (activeLayer_eq_some hl)).symm
      · cases h
        exact ⟨rfl, rfl, fun q hq => absurd hq (Set.notMem_empty q), fun _ _ => rfl⟩
    rw [if_neg hoff, if_neg hoff]
    have hx : x.toNat < d.fWidth := by omega
    have hy : y.toNat < d.fHeight := by omega
    obtain ⟨hin, hout, hfinite, hcount⟩ := fillLoop_fills (near_iff (l.bits.pixel x.toNat y.toNat) tolerance)
      ⟨colour.blue, colour.green, colour.red, 255⟩ l.bits hx hy
    obtain ⟨hw, hh, -⟩ := @fillLoop_outside d.fWidth d.fHeight (near (l.bits.pixel x.toNat y.toNat) tolerance)
      ⟨colour.blue, colour.green, colour.red, 255⟩
      { bits := l.bits, visited := List.replicate (d.fWidth * d.fHeight) false, stack := [y.toNat * d.fWidth + x.toNat] }
      length_replicate
    generalize fillLoop d.fWidth d.fHeight (near (l.bits.pixel x.toNat y.toNat) tolerance)
      ⟨colour.blue, colour.green, colour.red, 255⟩
      { bits := l.bits, visited := List.replicate (d.fWidth * d.fHeight) false, stack := [y.toNat * d.fWidth + x.toNat] } = s at *
    refine ⟨hfinite, hcount, fun h => (nomatch h), fun l' h => ⟨s.bits, ?_, ?_⟩⟩
    · exact (growStep_fLayers _ _).trans (markDirty_fLayers _ _)
    · cases h
      exact ⟨hw, hh, hin, hout⟩

end Paint
end Prose
