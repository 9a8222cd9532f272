import Prose.OthelloExact
/-!
# OthelloRules — the rules of Reversi

A disc is bracketed by a move that stands on a line of the other side's discs from the move's square to an own disc.  A
move is allowed on an empty square if it brackets a disc; `FlipsFor` finds what it brackets.
-/
namespace Prose
namespace Othello

open List

/-! ## The rules -/

def IsDirection (dir : Int × Int) : Prop := (-1 ≤ dir.1 ∧ dir.1 ≤ 1) ∧ (-1 ≤ dir.2 ∧ dir.2 ≤ 1) ∧ dir ≠ (0, 0)

/-- The square `k` steps from a square in a direction. -/
def along (square : Square) (dir : Int × Int) (k : Nat) : Option Square :=
  squareAt (square.val % 8 + k * dir.1) (square.val / 8 + k * dir.2)

/-- The next `n` squares in a direction have discs of the other side, and the one behind them an own one. -/
def Brackets (cells : Cells) (side : Side) (square : Square) (dir : Int × Int) (n : Nat) : Prop :=
  (∀ k < n, ∃ s ∈ along square dir (k + 1), cells s = some (opponent side)) ∧
    ∃ s ∈ along square dir (n + 1), cells s = some side

def Bracketed (cells : Cells) (side : Side) (square s : Square) : Prop :=
  ∃ dir, IsDirection dir ∧ ∃ n, Brackets cells side square dir n ∧ ∃ k < n, along square dir (k + 1) = some s

/-- **The rules**: a move is on an empty square and brackets a disc. -/
def Allowed (cells : Cells) (side : Side) (square : Square) : Prop := cells square = none ∧ ∃ s, Bracketed cells side square s

/-! ## Directions -/

theorem mem_kDirs {dir : Int × Int} : dir ∈ kDirs ↔ IsDirection dir := by
  constructor
  · have hall : ∀ d ∈ kDirs, (-1 ≤ d.1 ∧ d.1 ≤ 1) ∧ (-1 ≤ d.2 ∧ d.2 ≤ 1) ∧ d ≠ (0, 0) := by
      unfold kDirs
      decide
    exact hall dir
  · obtain ⟨dx, dy⟩ := dir
    rintro ⟨hx, hy, hne⟩
    dsimp only at hx hy
    have hdx : dx = -1 ∨ dx = 0 ∨ dx = 1 := by omega
    have hdy : dy = -1 ∨ dy = 0 ∨ dy = 1 := by omega
    rcases hdx with rfl | rfl | rfl <;> rcases hdy with rfl | rfl | rfl <;>
      first | exact absurd rfl hne | (unfold kDirs; decide)

theorem isSome_squareAt {x y : Int} : (squareAt x y).isSome ↔ (0 ≤ x ∧ x < 8) ∧ 0 ≤ y ∧ y < 8 := by
  unfold squareAt
  split
  · rename_i h
    exact iff_of_true rfl h
  · rename_i h
    exact iff_of_false Bool.false_ne_true h

section
variable (square : Square) {dir : Int × Int} (h : IsDirection dir)
include h

theorem along_down {k : Nat} (hk : (along square dir (k + 1)).isSome) : (along square dir k).isSome := by
  obtain ⟨dx, dy⟩ := dir
  obtain ⟨hx, hy, -⟩ := h
  unfold along at *
  rw [isSome_squareAt] at *
  have hlt := square.isLt
  dsimp only at *
  have hdx : dx = -1 ∨ dx = 0 ∨ dx = 1 := by omega
  have hdy : dy = -1 ∨ dy = 0 ∨ dy = 1 := by omega
  rcases hdx with rfl | rfl | rfl <;> rcases hdy with rfl | rfl | rfl <;> omega

theorem along_far {k : Nat} (hk : 8 ≤ k) : along square dir k = none := by
  rw [← Option.not_isSome_iff_eq_none]
  obtain ⟨dx, dy⟩ := dir
  obtain ⟨hx, hy, hne⟩ := h
  unfold along
  rw [isSome_squareAt]
  have hlt := square.isLt
  dsimp only at *
  have hdx : dx = -1 ∨ dx = 0 ∨ dx = 1 := by omega
  have hdy : dy = -1 ∨ dy = 0 ∨ dy = 1 := by omega
  rcases hdx with rfl | rfl | rfl <;> rcases hdy with rfl | rfl | rfl <;> first | exact absurd rfl hne | omega

end

theorem getElem?_filterMap_range' {α : Type} {f : Nat → Option α} (hf : ∀ k, (f (k + 1)).isSome → (f k).isSome) :
    ∀ n s k : Nat, ((List.range' s n).filterMap f)[k]? = if k < n then f (s + k) else none
  | 0, _, _ => rfl
  | n + 1, s, k => by
    rw [List.range'_succ, filterMap_cons]
    have ih := getElem?_filterMap_range' hf n (s + 1)
    cases hs : f s with
    | some x =>
      cases k with
      | zero => exact hs.symm
      | succ k =>
        rw [getElem?_cons_succ, ih k, Nat.add_right_comm s 1 k, Nat.add_assoc]
        exact if_congr Nat.succ_lt_succ_iff.symm rfl rfl
    | none =>
      have hnone : ∀ j, f (s + j) = none := by
        intro j
        induction j with
        | zero => exact hs
        | succ j hj =>
          rw [← Option.not_isSome_iff_eq_none] at hj ⊢
          exact mt (hf (s + j)) hj
      dsimp only
      rw [ih k, hnone k, Nat.add_right_comm s 1 k, Nat.add_assoc, hnone (k + 1), ite_self, ite_self]

theorem getElem?_ray (square : Square) {dir : Int × Int} (h : IsDirection dir) (k : Nat) :
    (ray square dir)[k]? = along square dir (k + 1) := by
  have hray := getElem?_filterMap_range' (f := along square dir) (fun k hk => along_down square h hk) 7 1 k
  refine hray.trans ?_
  split
  · rw [Nat.add_comm]
  · exact (along_far square h (by omega)).symm

/-! ## Lines -/

/-- The first `n` squares have discs of the other side, and the next one an own one. -/
def Closes (cells : Cells) (side : Side) (ss : List Square) (n : Nat) : Prop :=
  (∀ k < n, ∃ s ∈ ss[k]?, cells s = some (opponent side)) ∧ ∃ s ∈ ss[n]?, cells s = some side

theorem opponent_ne (side : Side) : opponent side ≠ side := by cases side <;> decide

theorem eq_opponent {cell side : Side} (h : cell ≠ side) : cell = opponent side := by
  cases cell <;> cases side <;> first | rfl | exact absurd rfl h

theorem closes_cons {cells : Cells} {side : Side} {s : Square} {ss : List Square} {n : Nat} :
    Closes cells side (s :: ss) (n + 1) ↔ cells s = some (opponent side) ∧ Closes cells side ss n := by
  constructor
  · rintro ⟨hline, hend⟩
    obtain ⟨s', hs', hcell⟩ := hline 0 (Nat.succ_pos n)
    cases hs'
    exact ⟨hcell, fun k hk => hline (k + 1) (Nat.succ_lt_succ hk), hend⟩
  · rintro ⟨hcell, hline, hend⟩
    refine ⟨fun k hk => ?_, hend⟩
    cases k with
    | zero => exact ⟨s, rfl, hcell⟩
    | succ k => exact hline k (Nat.lt_of_succ_lt_succ hk)

theorem closes_cons_zero {cells : Cells} {side : Side} {s : Square} {ss : List Square} :
    Closes cells side (s :: ss) 0 ↔ cells s = some side := by
  refine ⟨fun ⟨_, s', hs', hcell⟩ => ?_, fun h => ⟨fun k hk => absurd hk (Nat.not_lt_zero k), s, rfl, h⟩⟩
  rwa [Option.some.inj hs']

theorem line_eq_some {cells : Cells} {side : Side} : ∀ {ss l : List Square},
    line cells side ss = some l ↔ ∃ n, Closes cells side ss n ∧ l = ss.take n
  | [], l => iff_of_false (fun h => nomatch h) (fun ⟨_, ⟨_, s, hs, _⟩, _⟩ => nomatch hs)
  | s :: ss, l => by
    unfold line
    constructor
    · intro h
      split at h
      · cases h
      rename_i cell hcell
      split at h
      · rename_i hside
        cases h
        exact ⟨0, closes_cons_zero.2 (hside ▸ hcell), rfl⟩
      rename_i hside
      obtain ⟨l', hl', rfl⟩ := Option.map_eq_some_iff.1 h
      obtain ⟨n, hn, rfl⟩ := line_eq_some.1 hl'
      exact ⟨n + 1, closes_cons.2 ⟨hcell.trans (congrArg some (eq_opponent hside)), hn⟩, rfl⟩
    · rintro ⟨n, hn, rfl⟩
      cases n with
      | zero =>
        rw [closes_cons_zero.1 hn]
        exact if_pos rfl
      | succ n =>
        obtain ⟨hcell, hrest⟩ := closes_cons.1 hn
        rw [hcell]
        dsimp only
        rw [if_neg (opponent_ne side), line_eq_some.2 ⟨n, hrest, rfl⟩]
        rfl

theorem closes_ray {cells : Cells} {side : Side} {square : Square} {dir : Int × Int} (h : IsDirection dir) {n : Nat} :
    Closes cells side (ray square dir) n ↔ Brackets cells side square dir n := by
  unfold Closes Brackets
  simp only [getElem?_ray square h]

theorem mem_line {cells : Cells} {side : Side} {square s : Square} {dir : Int × Int} (h : IsDirection dir) :
    s ∈ (line cells side (ray square dir)).getD [] ↔
      ∃ n, Brackets cells side square dir n ∧ ∃ k < n, along square dir (k + 1) = some s := by
  have htake : ∀ n, s ∈ (ray square dir).take n ↔ ∃ k < n, along square dir (k + 1) = some s := by
    intro n
    simp only [mem_iff_getElem?, getElem?_take, ← getElem?_ray square h]
    refine exists_congr fun k => ?_
    by_cases hk : k < n
    · rw [if_pos hk, and_iff_right hk]
    · rw [if_neg hk]
      exact iff_of_false (fun h => nomatch h) (fun h => hk h.1)
  constructor
  · intro hs
    cases hl : line cells side (ray square dir) with
    | none =>
      rw [hl] at hs
      cases hs
    | some l =>
      rw [hl] at hs
      obtain ⟨n, hn, rfl⟩ := line_eq_some.1 hl
      exact ⟨n, (closes_ray h).1 hn, (htake n).1 hs⟩
  · rintro ⟨n, hn, hk⟩
    rw [line_eq_some.2 ⟨n, (closes_ray h).2 hn, rfl⟩]
    exact (htake n).2 hk

/-- **`FlipsFor` finds what a move brackets.** -/
theorem mem_flipsFor {cells : Cells} {side : Side} {square s : Square} :
    s ∈ flipsFor cells side square ↔ cells square = none ∧ Bracketed cells side square s := by
  unfold flipsFor
  split
  · rename_i hfull
    refine iff_of_false not_mem_nil fun h => ?_
    rw [h.1] at hfull
    exact Bool.false_ne_true hfull
  · rename_i hempty
    rw [and_iff_right (Option.not_isSome_iff_eq_none.1 hempty), mem_flatMap]
    exact exists_congr fun dir => (and_congr_left' mem_kDirs).trans (and_congr_right fun h => mem_line h)

theorem flipsFor_ne_nil_iff {cells : Cells} {side : Side} {square : Square} :
    flipsFor cells side square ≠ [] ↔ Allowed cells side square := by
  have hmem : flipsFor cells side square ≠ [] ↔ ∃ s, s ∈ flipsFor cells side square :=
    ⟨exists_mem_of_ne_nil _, fun ⟨_, hs⟩ => ne_nil_of_mem hs⟩
  exact hmem.trans ((exists_congr fun s => mem_flipsFor).trans exists_and_left)

theorem Bracketed.cell {cells : Cells} {side : Side} {square s : Square} (h : Bracketed cells side square s) :
    cells s = some (opponent side) := by
  obtain ⟨dir, -, n, ⟨hline, -⟩, k, hk, hs⟩ := h
  obtain ⟨s', hs', hcell⟩ := hline k hk
  rw [hs] at hs'
  rwa [Option.some.inj hs']

end Othello
end Prose
