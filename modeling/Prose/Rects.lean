import Mathlib.Order.Defs.LinearOrder
import Mathlib.Data.Int.Order.Basic
/-!
# Rects — rectangles of integer points

A rectangle holds its four edges.  One whose edges cross holds no point; the union of two rectangles holds the points
of both, the intersection those they share.
-/
structure Rect where
  left : Int
  top : Int
  right : Int
  bottom : Int
deriving DecidableEq

namespace Rect

def Valid (r : Rect) : Prop := r.left ≤ r.right ∧ r.top ≤ r.bottom

instance (r : Rect) : Decidable r.Valid := inferInstanceAs (Decidable (_ ∧ _))

def Contains (r : Rect) (x y : Int) : Prop := r.left ≤ x ∧ x ≤ r.right ∧ r.top ≤ y ∧ y ≤ r.bottom

instance (r : Rect) (x y : Int) : Decidable (r.Contains x y) := inferInstanceAs (Decidable (_ ∧ _))

def inter (r s : Rect) : Rect := ⟨max r.left s.left, max r.top s.top, min r.right s.right, min r.bottom s.bottom⟩

def union (r s : Rect) : Rect := ⟨min r.left s.left, min r.top s.top, max r.right s.right, max r.bottom s.bottom⟩

/-- The points of `r` are points of `s`. -/
def Within (r s : Rect) : Prop := s.left ≤ r.left ∧ s.top ≤ r.top ∧ r.right ≤ s.right ∧ r.bottom ≤ s.bottom

instance (r s : Rect) : Decidable (r.Within s) := inferInstanceAs (Decidable (_ ∧ _))

theorem Contains.valid {r : Rect} {x y : Int} (h : r.Contains x y) : r.Valid :=
  ⟨Int.le_trans h.1 h.2.1, Int.le_trans h.2.2.1 h.2.2.2⟩

theorem contains_inter {r s : Rect} {x y : Int} : (r.inter s).Contains x y ↔ r.Contains x y ∧ s.Contains x y := by
  unfold Contains inter
  rw [Int.max_le, Int.le_min, Int.max_le, Int.le_min]
  constructor
  · rintro ⟨⟨h1, h2⟩, ⟨h3, h4⟩, ⟨h5, h6⟩, h7, h8⟩
    exact ⟨⟨h1, h3, h5, h7⟩, h2, h4, h6, h8⟩
  · rintro ⟨⟨h1, h3, h5, h7⟩, h2, h4, h6, h8⟩
    exact ⟨⟨h1, h2⟩, ⟨h3, h4⟩, ⟨h5, h6⟩, h7, h8⟩

theorem Contains.union_left {r : Rect} {x y : Int} (h : r.Contains x y) (s : Rect) : (r.union s).Contains x y := by
  unfold Contains union at *
  dsimp only
  omega

theorem Contains.union_right {s : Rect} {x y : Int} (h : s.Contains x y) (r : Rect) : (r.union s).Contains x y := by
  unfold Contains union at *
  dsimp only
  omega

theorem Within.contains {r s : Rect} (h : r.Within s) {x y : Int} (hr : r.Contains x y) : s.Contains x y := by
  unfold Within Contains at *
  omega

theorem Within.refl (r : Rect) : r.Within r := by
  unfold Within
  omega

theorem Within.trans {r s t : Rect} (h : r.Within s) (h' : s.Within t) : r.Within t := by
  unfold Within at *
  omega

theorem inter_self (r : Rect) : r.inter r = r := by
  unfold inter
  rw [max_self, max_self, min_self, min_self]

theorem inter_within_right (r s : Rect) : (r.inter s).Within s := by
  unfold Within inter
  dsimp only
  omega

theorem within_union_left (r s : Rect) : r.Within (r.union s) := by
  unfold Within union
  dsimp only
  omega

theorem within_union_right (r s : Rect) : s.Within (r.union s) := by
  unfold Within union
  dsimp only
  omega

theorem Within.union_of {r s t : Rect} (h : r.Within t) (h' : s.Within t) : (r.union s).Within t := by
  unfold Within union at *
  dsimp only
  omega

theorem valid_union {r s : Rect} (h : r.Valid) : (r.union s).Valid := by
  unfold Valid union at *
  dsimp only
  omega

end Rect
