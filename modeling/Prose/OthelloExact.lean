import Mathlib.Algebra.Order.Group.Int
import Mathlib.Data.List.Perm.Basic
import Mathlib.Order.Lattice
import Prose.OthelloSearch
/-!
# OthelloExact — the search is exact

`value` is the plain full-width negamax value of a board: passes are free, the end counts the discs, the leaves are
evaluated.  `Negamax` with any window answers for it, `Think` finds it and a move that has it, as long as the clock never
passes the deadline.  When the search goes as deep as there are empty squares, the leaves are all endings, and the move has
the best disc difference that can be reached.
-/
namespace Prose
namespace Othello

open AlphaBeta List

/-! ## The values -/

def best (vs : List Int) : Int := vs.max?.getD 0

/-- What a move is worth to the side that makes it, when the board it leads to is worth `v` to the side to move there. -/
def turned (b next : Board) (v : Int) : Int := if next.turn = b.turn then v else -v

/-- **The plain negamax value of a board**, to the side to move. -/
def value (depth : Nat) (b : Board) : Int :=
  if _hm : b.moves = [] then
    if _ho : b.passTurn.moves = [] then loud (discDifference b.cells b.turn)
    else if depth = 0 then evaluate b.cells b.turn
    else -value depth b.passTurn
  else
    match depth with
    | 0 => evaluate b.cells b.turn
    | depth + 1 => best (b.moves.map (fun square => turned b (b.play square) (value depth (b.play square))))
termination_by (depth, if b.moves = [] then 1 else 0)
decreasing_by
  · refine Prod.Lex.right _ ?_
    rw [if_pos _hm, if_neg _ho]
    exact Nat.one_pos
  · exact Prod.Lex.left _ _ (Nat.lt_succ_self _)

def moveValue (depth : Nat) (b : Board) (square : Square) : Int := turned b (b.play square) (value depth (b.play square))

theorem value_end {depth : Nat} {b : Board} (hm : b.moves = []) (ho : b.passTurn.moves = []) :
    value depth b = loud (discDifference b.cells b.turn) := by
  rw [value.eq_def, dif_pos hm, dif_pos ho]

theorem value_zero {b : Board} (h : b.moves ≠ [] ∨ b.passTurn.moves ≠ []) : value 0 b = evaluate b.cells b.turn := by
  rw [value.eq_def]
  by_cases hm : b.moves = []
  · rw [dif_pos hm, dif_neg (h.resolve_left (not_not.2 hm)), if_pos rfl]
  · rw [dif_neg hm]

theorem value_pass {depth : Nat} {b : Board} (hm : b.moves = []) (ho : b.passTurn.moves ≠ []) (hd : depth ≠ 0) :
    value depth b = -value depth b.passTurn := by
  rw [value.eq_def, dif_pos hm, dif_neg ho, if_neg hd]

theorem value_moves {depth : Nat} {b : Board} (hm : b.moves ≠ []) :
    value (depth + 1) b = best (b.moves.map (moveValue depth b)) := by
  rw [value.eq_def, dif_neg hm]
  rfl

/-! ## Greatest numbers -/

theorem best_cons (v : Int) (vs : List Int) : best (v :: vs) = greatest v vs := rfl

theorem greatest_mem : ∀ (vs : List Int) (v : Int), greatest v vs ∈ v :: vs
  | [], v => mem_cons_self
  | w :: vs, v => by
    have ih := greatest_mem vs (max v w)
    show greatest (max v w) vs ∈ v :: w :: vs
    rcases mem_cons.1 ih with h | h
    · rw [h]
      rcases max_choice v w with h' | h' <;> rw [h'] <;> simp
    · exact mem_cons_of_mem _ (mem_cons_of_mem _ h)

theorem best_mem {vs : List Int} (h : vs ≠ []) : best vs ∈ vs := by
  obtain ⟨v, vs, rfl⟩ := exists_cons_of_ne_nil h
  exact greatest_mem vs v

theorem greatest_eq_best {b : Int} {vs : List Int} (hne : vs ≠ []) (h : ∀ v ∈ vs, b ≤ v) : greatest b vs = best vs := by
  obtain ⟨v, vs, rfl⟩ := exists_cons_of_ne_nil hne
  show greatest (max b v) vs = greatest v vs
  rw [max_eq_right (h v mem_cons_self)]

theorem greatest_perm {vs ws : List Int} (h : vs.Perm ws) (b : Int) : greatest b vs = greatest b ws :=
  haveI : RightCommutative (max : Int → Int → Int) := ⟨max_right_comm⟩
  h.foldl_eq b

theorem best_map {f : Int → Int} (hf : Monotone f) {vs : List Int} (hne : vs ≠ []) : best (vs.map f) = f (best vs) := by
  obtain ⟨v, vs, rfl⟩ := exists_cons_of_ne_nil hne
  rw [map_cons, best_cons, best_cons]
  induction vs generalizing v with
  | nil => rfl
  | cons w vs ih =>
    show greatest (max (f v) (f w)) (vs.map f) = f (greatest (max v w) vs)
    rw [← hf.map_max]
    exact ih (max v w) (cons_ne_nil _ _)

/-! ## `Order` -/

theorem order_perm (moves : List Square) : (order moves).Perm moves := by
  induction moves using order.induct with
  | case1 => rw [order]
  | case2 m ms ih =>
    rw [order]
    exact (ih.cons _).trans (perm_cons_erase (heaviest_mem ms m)).symm

/-! ## The values are small -/

theorem sum_bound {f : Square → Int} {c : Int} (h : ∀ i, -c ≤ f i ∧ f i ≤ c) : ∀ l : List Square,
    -(c * l.length) ≤ (l.map f).sum ∧ (l.map f).sum ≤ c * l.length
  | [] => by simp
  | i :: l => by
    have ih := sum_bound h l
    have hi := h i
    rw [map_cons, sum_cons, length_cons, Int.natCast_add, Int.mul_add]
    omega

theorem discWeight_bound (cells : Cells) (side : Side) (i : Square) :
    -120 ≤ discWeight cells side i ∧ discWeight cells side i ≤ 120 := by
  have hw : ∀ i : Square, -120 ≤ weightOf i ∧ weightOf i ≤ 120 := by decide
  unfold discWeight
  split
  · omega
  · exact hw i

theorem weights_bound (cells : Cells) (side : Side) : -7680 ≤ weights cells side ∧ weights cells side ≤ 7680 := by
  have h := @sum_bound (fun i => if cells i = some side then discWeight cells side i else 0) 120 (fun i => by
    have hi := discWeight_bound cells side i
    split <;> omega) (List.finRange 64)
  rw [length_finRange] at h
  exact h

theorem length_legalMoves_le (cells : Cells) (side : Side) : (legalMoves cells side).length ≤ 64 :=
  (length_filter_le _ _).trans (length_finRange).le

theorem discs_le (cells : Cells) (side : Side) : discs cells side ≤ 64 :=
  (countP_le_length).trans (length_finRange).le

theorem evaluate_bound (cells : Cells) (side : Side) : -kInfinity < evaluate cells side ∧ evaluate cells side < kInfinity := by
  have h1 := weights_bound cells side
  have h2 := weights_bound cells (opponent side)
  have h3 := length_legalMoves_le cells side
  have h4 := length_legalMoves_le cells (opponent side)
  have h5 := discs_le cells side
  have h6 := discs_le cells (opponent side)
  unfold evaluate kInfinity
  dsimp only
  split <;> omega

theorem loud_bound (cells : Cells) (side : Side) :
    -kInfinity < loud (discDifference cells side) ∧ loud (discDifference cells side) < kInfinity := by
  have h5 := discs_le cells side
  have h6 := discs_le cells (opponent side)
  unfold loud discDifference kInfinity
  split
  · omega
  · split <;> omega

theorem turned_bound {b next : Board} {v : Int} (h : -kInfinity < v ∧ v < kInfinity) :
    -kInfinity < turned b next v ∧ turned b next v < kInfinity := by
  unfold turned
  split
  · exact h
  · omega

theorem value_bound (depth : Nat) (b : Board) : -kInfinity < value depth b ∧ value depth b < kInfinity := by
  induction depth, b using value.induct with
  | case1 depth b hm ho =>
    rw [value_end hm ho]
    exact loud_bound b.cells b.turn
  | case2 b hm ho =>
    rw [value_zero (Or.inr ho)]
    exact evaluate_bound b.cells b.turn
  | case3 depth b hm ho hd ih =>
    rw [value_pass hm ho hd]
    omega
  | case4 b hm =>
    rw [value_zero (Or.inl hm)]
    exact evaluate_bound b.cells b.turn
  | case5 b hm depth ih =>
    rw [value_moves hm]
    obtain ⟨square, -, hs⟩ := mem_map.1 (best_mem (mt map_eq_nil_iff.1 hm))
    rw [← hs]
    exact turned_bound (ih square)

theorem moveValue_bound (depth : Nat) (b : Board) (square : Square) :
    -kInfinity < moveValue depth b square ∧ moveValue depth b square < kInfinity := turned_bound (value_bound depth _)

/-! ## A move fills a square -/

theorem flipsFor_ne_nil {cells : Cells} {side : Side} {square : Square} (h : flipsFor cells side square ≠ []) :
    cells square = none := by
  unfold flipsFor at h
  split at h
  · exact absurd rfl h
  · rename_i hn
    exact Option.not_isSome_iff_eq_none.1 hn

theorem mem_legalMoves {cells : Cells} {side : Side} {square : Square} :
    square ∈ legalMoves cells side ↔ flipsFor cells side square ≠ [] := by
  unfold legalMoves
  rw [mem_filter, decide_eq_true_eq, and_iff_right (mem_finRange square)]

theorem countP_lt {p q : Square → Bool} {a : Square} (h : ∀ x, p x = true → q x = true) (ha : p a = false) (hq : q a = true) :
    ∀ l : List Square, a ∈ l → l.countP p < l.countP q
  | x :: l, hmem => by
    have hle := countP_mono_left (l := l) (fun x _ => h x)
    rw [countP_cons, countP_cons]
    rcases mem_cons.1 hmem with rfl | hmem
    · rw [ha, hq]
      simp only [Bool.false_eq_true, ↓reduceIte]
      omega
    have ih := countP_lt h ha hq l hmem
    have hx := h x
    cases hp : p x with
    | false =>
      simp only [Bool.false_eq_true, ↓reduceIte]
      split <;> omega
    | true =>
      rw [hx hp]
      omega

theorem empties_apply {cells : Cells} {side : Side} {square : Square} {flips : List Square} (h : cells square = none) :
    empties (apply cells side square flips) < empties cells := by
  refine countP_lt (a := square) (fun x hx => ?_) ?_ ?_ _ (mem_finRange square)
  · unfold apply at hx
    split at hx
    · cases hx
    · exact hx
  · unfold apply
    rw [if_pos (Or.inl rfl)]
    rfl
  · rw [h]
    rfl

theorem cells_advanceTurn (b : Board) : b.advanceTurn.cells = b.cells := by
  unfold Board.advanceTurn
  split <;> rfl

theorem empties_play {b : Board} {square : Square} (h : square ∈ b.moves) :
    empties (b.play square).cells < empties b.cells := by
  unfold Board.play
  rw [cells_advanceTurn]
  exact empties_apply (flipsFor_ne_nil (mem_legalMoves.1 h))

theorem empties_pos {cells : Cells} {side : Side} (h : legalMoves cells side ≠ []) : 0 < empties cells := by
  obtain ⟨square, rest, hs⟩ := exists_cons_of_ne_nil h
  have hmem : square ∈ legalMoves cells side := by
    rw [hs]
    exact mem_cons_self
  exact Nat.lt_of_le_of_lt (Nat.zero_le _)
    (@empties_apply cells side square [] (flipsFor_ne_nil (mem_legalMoves.1 hmem)))

/-! ## Room in the history -/

/-- The history has room for every move that can still be made and every pass. -/
def Room (p : Position) : Prop := p.history.length + 2 * empties p.cells ≤ 128

theorem advanceTurn_toBoard (p : Position) : p.advanceTurn.toBoard = p.toBoard.advanceTurn := by
  unfold Position.advanceTurn Board.advanceTurn
  split <;> rfl

theorem length_advanceTurn_le (p : Position) : p.advanceTurn.history.length ≤ p.history.length + 1 := by
  unfold Position.advanceTurn
  split
  · exact Nat.le_refl _
  · exact Nat.le_succ _

theorem play_eq {p : Position} (hr : Room p) {square : Square} (h : square ∈ p.moves) :
    ∃ p', p.play square = some p' ∧ p'.toBoard = p.toBoard.play square ∧ Room p' := by
  have hf := mem_legalMoves.1 h
  have hpos := empties_pos (ne_nil_of_mem h)
  have hlt := empties_play h
  unfold Room at hr
  refine ⟨_, (if_neg (by omega)).trans (if_neg hf), advanceTurn_toBoard _, ?_⟩
  unfold Room
  rw [advanceTurn_toBoard]
  refine Nat.le_trans (Nat.add_le_add_right (length_advanceTurn_le _) _) ?_
  change (_ :: p.history).length + 1 + 2 * empties (p.toBoard.play square).cells ≤ 128
  rw [length_cons]
  omega

theorem after_eq {p : Position} (hr : Room p) {square : Square} (h : square ∈ p.moves) :
    (p.after square).toBoard = p.toBoard.play square ∧ Room (p.after square) := by
  obtain ⟨p', hp, hb, hr'⟩ := play_eq hr h
  unfold Position.after
  rw [hp]
  exact ⟨hb, hr'⟩

inductive Paired : List Ply → Prop
  | nil : Paired []
  | move {ply : Ply} {h : List Ply} : ply.pass = false → Paired h → Paired (ply :: h)
  | pass {ply ply' : Ply} {h : List Ply} : ply.pass = true → ply'.pass = false → Paired h → Paired (ply :: ply' :: h)

def moveCount (h : List Ply) : Nat := h.countP (fun ply => !ply.pass)

theorem length_le_of_paired {h : List Ply} (hp : Paired h) : h.length ≤ 2 * moveCount h := by
  induction hp with
  | nil => exact Nat.le_refl 0
  | move hm _ ih =>
    unfold moveCount at *
    rw [length_cons, countP_cons, hm]
    simp only [Bool.not_false, ↓reduceIte]
    omega
  | pass hq hm _ ih =>
    unfold moveCount at *
    rw [length_cons, length_cons, countP_cons, countP_cons, hq, hm]
    simp only [Bool.not_false, Bool.not_true, Bool.false_eq_true, ↓reduceIte]
    omega

structure Accounted (p : Position) : Prop where
  paired : Paired p.history
  moves : moveCount p.history + empties p.cells ≤ 64

theorem Accounted.room {p : Position} (h : Accounted p) : Room p := by
  have h1 := length_le_of_paired h.paired
  have h2 := h.moves
  unfold Room
  omega

theorem empties_le (cells : Cells) : empties cells ≤ 64 := (countP_le_length).trans (length_finRange).le

theorem Accounted.play {p p' : Position} (h : Accounted p) {square : Square} (hp : p.play square = some p') :
    Accounted p' := by
  unfold Position.play at hp
  split at hp
  · cases hp
  split at hp
  · cases hp
  rename_i hf
  rw [← Option.some.inj hp]
  have hlt := @empties_apply p.cells p.turn square (flipsFor p.cells p.turn square) (flipsFor_ne_nil hf)
  have hm := h.moves
  unfold Position.advanceTurn
  split
  · refine ⟨.pass rfl rfl h.paired, ?_⟩
    unfold moveCount at *
    rw [countP_cons, countP_cons]
    simp only [Bool.not_true, Bool.not_false, Bool.false_eq_true, ↓reduceIte]
    omega
  refine ⟨.move rfl h.paired, ?_⟩
  unfold moveCount at *
  rw [countP_cons]
  simp only [Bool.not_false, ↓reduceIte]
  omega

theorem paired_dropPasses {h : List Ply} (hp : Paired h) (turn : Side) :
    Paired (dropPasses h turn).1 ∧ moveCount (dropPasses h turn).1 = moveCount h ∧
      ∀ ply rest, (dropPasses h turn).1 = ply :: rest → ply.pass = false := by
  cases hp with
  | nil => exact ⟨.nil, rfl, fun _ _ h => nomatch h⟩
  | move hm hp =>
    rename_i ply h
    unfold dropPasses
    rw [hm, if_neg Bool.false_ne_true]
    refine ⟨.move hm hp, rfl, fun _ _ he => ?_⟩
    rw [← (List.cons.inj he).1]
    exact hm
  | pass hq hm hp =>
    rename_i ply ply' h
    unfold dropPasses
    rw [hq, if_pos rfl]
    unfold dropPasses
    rw [hm, if_neg Bool.false_ne_true]
    refine ⟨.move hm hp, ?_, fun _ _ he => ?_⟩
    · unfold moveCount
      rw [@countP_cons _ _ ply, hq]
      rfl
    · rw [← (List.cons.inj he).1]
      exact hm

theorem paired_tail {ply : Ply} {rest : List Ply} (h : Paired (ply :: rest)) (hm : ply.pass = false) : Paired rest := by
  cases h with
  | move _ h => exact h
  | pass hq =>
    rw [hm] at hq
    cases hq

theorem countP_le_add {p q r : Square → Bool} (h : ∀ x, p x = true → q x = true ∨ r x = true) : ∀ l : List Square,
    l.countP p ≤ l.countP q + l.countP r
  | [] => Nat.le_refl 0
  | x :: l => by
    have ih := countP_le_add h l
    have hx := h x
    rw [countP_cons, countP_cons, countP_cons]
    cases hp : p x with
    | false =>
      simp only [Bool.false_eq_true, ↓reduceIte]
      omega
    | true =>
      rcases hx hp with hq | hq <;> rw [hq] <;> simp only [↓reduceIte] <;> omega

theorem empties_retract (cells : Cells) (ply : Ply) :
    empties (fun s => if s ∈ ply.flips then some (opponent ply.side) else if some s = ply.move then none else cells s) ≤
      empties cells + 1 := by
  have hone : ∀ move : Option Square, (List.finRange 64).countP (fun i => decide (some i = move)) ≤ 1
    | none => by simp
    | some a => by
      have hcount := List.nodup_iff_count_le_one.1 (List.nodup_finRange 64) a
      refine Nat.le_trans (List.countP_mono_left fun i _ hi => ?_) hcount
      exact beq_iff_eq.2 (Option.some.inj (of_decide_eq_true hi))
  refine Nat.le_trans (countP_le_add (fun i hi => ?_) _) (Nat.add_le_add_left (hone ply.move) _)
  by_cases hmove : some i = ply.move
  · exact Or.inr (decide_eq_true hmove)
  refine Or.inl ?_
  dsimp only at hi
  rw [if_neg hmove] at hi
  split at hi
  · cases hi
  · exact hi

theorem Accounted.undo {p : Position} (h : Accounted p) : Accounted p.undo := by
  obtain ⟨h1, h2, h3⟩ := paired_dropPasses h.paired p.turn
  have hm := h.moves
  rw [← h2] at hm
  unfold Position.undo
  generalize dropPasses p.history p.turn = r at h1 h3 hm
  obtain ⟨hist, turn⟩ := r
  cases hist with
  | nil => exact ⟨.nil, hm⟩
  | cons ply rest =>
    have hmove := h3 ply rest rfl
    refine ⟨paired_tail h1 hmove, ?_⟩
    have hr := empties_retract p.cells ply
    have hcount : moveCount (ply :: rest) = moveCount rest + 1 := by
      unfold moveCount
      rw [countP_cons, hmove]
      rfl
    rw [hcount] at hm
    exact Nat.le_trans (Nat.add_le_add_left hr (moveCount rest)) (by omega)

theorem accounted_of_reachable {p : Position} (h : Reachable p) : Accounted p := by
  induction h with
  | start => exact ⟨.nil, by decide⟩
  | fromString hp =>
    unfold Position.fromString at hp
    split at hp
    · cases hp
    · rw [← Option.some.inj hp]
      exact ⟨.nil, Nat.le_trans (Nat.add_le_add_left (empties_le _) 0) (by decide)⟩
  | play _ hp ih => exact ih.play hp
  | passTurn _ ih => exact ⟨ih.paired, ih.moves⟩
  | undo _ ih => exact ih.undo

/-! ## `Negamax` finds the value -/

/-- A search that finds `v` with every window a search is asked with. -/
def Searches (v : Int) (search : Int → Int → SearchState → Int × SearchState) : Prop :=
  ∀ α β s, -kInfinity ≤ α → α < β → β ≤ kInfinity → s.stop = false → Finds SearchState.stop α β v (search α β s)

theorem Searches.neg {v : Int} {search : Int → Int → SearchState → Int × SearchState} (h : Searches v search) :
    Searches (-v) (fun α β s => (-(search (-β) (-α) s).1, (search (-β) (-α) s).2)) := by
  intro α β s ha hlt hb hs
  obtain ⟨h1, h2⟩ := h (-β) (-α) s (Int.neg_le_neg hb) (Int.neg_lt_neg hlt) (by omega) hs
  exact ⟨h1.neg, h2⟩

theorem Searches.turned {b next : Board} {v : Int} {search : Int → Int → SearchState → Int × SearchState}
    (h : Searches v search) : Searches (turned b next v) (fun α β s => if next.turn = b.turn then search α β s else
      (-(search (-β) (-α) s).1, (search (-β) (-α) s).2)) := by
  unfold Othello.turned
  by_cases ht : next.turn = b.turn
  · simp only [if_pos ht]
    exact h
  · simp only [if_neg ht]
    exact h.neg

theorem value_eq_greatest {depth : Nat} {b : Board} (hm : b.moves ≠ []) :
    value (depth + 1) b = greatest (-kInfinity) ((order b.moves).map (moveValue depth b)) := by
  rw [value_moves hm, greatest_perm ((order_perm b.moves).map (moveValue depth b)) (-kInfinity)]
  refine (greatest_eq_best (mt map_eq_nil_iff.1 hm) (fun v hv => ?_)).symm
  obtain ⟨square, -, rfl⟩ := mem_map.1 hv
  exact (moveValue_bound depth b square).1.le

section
variable {late : Nat → Bool} (hl : ∀ n, late n = false)
include hl

theorem look_eq (s : SearchState) : s.look late = s := by
  unfold SearchState.look
  rw [hl]
  exact if_neg (fun h => Bool.false_ne_true h.2)

theorem negamax_moves {depth : Nat} (ih : ∀ p : Position, Room p → Searches (value depth p.toBoard) (negamax late depth p))
    {p : Position} (hm : p.moves ≠ []) (hr : Room p) :
    Searches (value (depth + 1) p.toBoard) (negamax late (depth + 1) p) := by
  intro α β s ha hlt hb hs
  rw [negamax, dif_neg hm]
  dsimp only
  rw [look_eq hl, if_neg (by rw [hs]; exact Bool.false_ne_true), value_eq_greatest hm]
  refine loop_finds (fun square hsq a st haa hab hst => ?_) (max_eq_left ha).symm hlt Answers.rfl hs
  obtain ⟨hboard, hroom⟩ := after_eq hr ((order_perm p.moves).mem_iff.1 hsq)
  have hnext := @Searches.turned p.toBoard (p.after square).toBoard _ _ (ih (p.after square) hroom) a β st
    (Int.le_trans ha haa) hab hb hst
  unfold moveValue
  rw [← hboard]
  exact hnext

/-- **`Negamax` answers for the value**, at every depth and with every window. -/
theorem negamax_searches : ∀ (depth : Nat) (p : Position), Room p →
    Searches (value depth p.toBoard) (negamax late depth p) := by
  intro depth
  induction depth with
  | zero =>
    intro p hr α β s ha hlt hb hs
    rw [negamax]
    split
    · rename_i hm
      split
      · rename_i ho
        rw [value_end hm ho]
        exact ⟨Answers.rfl, hs⟩
      · rename_i ho
        rw [if_pos rfl, value_zero (Or.inr ho)]
        exact ⟨Answers.rfl, hs⟩
    · rename_i hm
      rw [value_zero (Or.inl hm)]
      exact ⟨Answers.rfl, hs⟩
  | succ depth ih =>
    intro p hr
    by_cases hm : p.moves = []
    · intro α β s ha hlt hb hs
      rw [negamax, dif_pos hm]
      split
      · rename_i ho
        rw [value_end hm ho]
        exact ⟨Answers.rfl, hs⟩
      · rename_i ho
        rw [value_pass hm ho (Nat.succ_ne_zero depth), if_neg (Nat.succ_ne_zero depth)]
        exact (@negamax_moves late hl depth ih p.passTurn ho hr).neg α β { s with nodes := s.nodes + 1 } ha hlt hb hs
    · exact negamax_moves hl ih hm hr

end

/-! ## `Think` finds a best move -/

/-- A search result that is exact at a depth: the value, and a move that has it. -/
def Exact (p : Position) (depth : Nat) (r : SearchResult) : Prop :=
  r.depth = depth ∧ r.score = value depth p.toBoard ∧
    ∃ square ∈ p.moves, r.square = some square ∧ moveValue (depth - 1) p.toBoard square = r.score

theorem maxDepth_pos {p : Position} (hm : p.moves ≠ []) {level : Level} (hlevel : level ≠ .easy) : 0 < maxDepth p level := by
  have h := empties_pos hm
  cases level with
  | easy => exact absurd rfl hlevel
  | medium => exact Nat.one_pos
  | hard =>
    show 0 < if empties p.cells ≤ 10 then empties p.cells else 4
    split
    · exact h
    · decide
  | expert =>
    show 0 < if empties p.cells ≤ 14 then empties p.cells else 9
    split
    · exact h
    · decide

section
variable {late : Nat → Bool} (hl : ∀ n, late n = false) {p : Position} (hr : Room p)
include hl hr

theorem rootMove_beats {depth : Nat} {square : Square} (hs : square ∈ p.moves) {b : Int} {st : SearchState}
    (hbot : -kInfinity ≤ b) (hb : b < kInfinity) (hst : st.stop = false) :
    Beats SearchState.stop b (moveValue depth p.toBoard square) (rootMove late p (depth + 1) (some square) b st) := by
  obtain ⟨hboard, hroom⟩ := after_eq hr hs
  have hv := moveValue_bound depth p.toBoard square
  have hn := negamax_searches hl depth (p.after square) hroom
  unfold moveValue turned at *
  rw [← hboard] at hv ⊢
  unfold rootMove
  dsimp only
  split
  · rename_i ht
    rw [if_pos ht] at hv
    exact (hn (-kInfinity) kInfinity st (Int.le_refl _) (by decide) (Int.le_refl _) hst).beats_of_mem hv.1 hv.2
  · rename_i ht
    rw [if_neg ht] at hv
    exact (hn.neg b kInfinity st hbot hb (Int.le_refl _) hst).beats hb hv.2

variable (hm : p.moves ≠ [])
include hm

theorem rootMoves_exact (depth : Nat) {s : SearchState} (hs : s.stop = false) :
    ∃ square ∈ p.moves, (rootMoves late p (depth + 1) s).1 = (some square, value (depth + 1) p.toBoard) ∧
      moveValue depth p.toBoard square = value (depth + 1) p.toBoard ∧ (rootMoves late p (depth + 1) s).2.stop = false := by
  have hbeats : ∀ i ∈ (order p.moves).map some, i.elim 0 (moveValue depth p.toBoard) < kInfinity ∧
      ∀ b st, -kInfinity ≤ b → b < kInfinity → st.stop = false →
        Beats SearchState.stop b (i.elim 0 (moveValue depth p.toBoard)) (rootMove late p (depth + 1) i b st) := by
    intro i hi
    obtain ⟨square, hsq, rfl⟩ := mem_map.1 hi
    exact ⟨(moveValue_bound depth p.toBoard square).2, fun b st hbot hb hst =>
      rootMove_beats hl hr ((order_perm p.moves).mem_iff.1 hsq) hbot hb hst⟩
  obtain ⟨h1, h2, h3⟩ := @choose_greatest _ _ _ _ SearchState.stop (rootMove late p (depth + 1))
    (fun i => i.elim 0 (moveValue depth p.toBoard)) (-kInfinity) kInfinity ((order p.moves).map some)
    (p.moves.head?, -kInfinity) s hbeats (Int.le_refl _) (show -kInfinity < kInfinity by decide) hs
  rw [map_map] at h1
  have hscore : (rootMoves late p (depth + 1) s).1.2 = value (depth + 1) p.toBoard :=
    h1.trans (value_eq_greatest hm).symm
  rcases h2 with h2 | ⟨h2, h4⟩
  · -- no move has beaten the start: but every value does
    have hlow := (value_bound (depth + 1) p.toBoard).1
    have he : (rootMoves late p (depth + 1) s).1.2 = -kInfinity := congrArg Prod.snd h2
    rw [← hscore, he] at hlow
    exact absurd hlow (Int.lt_irrefl _)
  obtain ⟨square, hsq, hs⟩ := mem_map.1 h2
  have hs' : (rootMoves late p (depth + 1) s).1.1 = some square := hs.symm
  refine ⟨square, (order_perm p.moves).mem_iff.1 hsq, Prod.ext hs' hscore, ?_, h3⟩
  rw [← hs] at h4
  exact h4.trans hscore

theorem deepen_exact : ∀ (n depth : Nat) (result : SearchResult) (s : SearchState), s.stop = false →
    Exact p (depth + 1 + n) (deepen late p (n + 1) (depth + 1) result s) := by
  intro n
  induction n with
  | zero =>
    intro depth result s hs
    obtain ⟨square, hsq, hroot, hval, hstop⟩ := rootMoves_exact hl hr hm depth hs
    unfold deepen
    dsimp only
    rw [if_neg (by rw [hstop]; exact Bool.false_ne_true), hroot]
    exact ⟨rfl, rfl, square, hsq, rfl, hval⟩
  | succ n ih =>
    intro depth result s hs
    obtain ⟨square, hsq, hroot, hval, hstop⟩ := rootMoves_exact hl hr hm depth hs
    have hnext := ih (depth + 1)
    unfold deepen
    dsimp only
    rw [if_neg (by rw [hstop]; exact Bool.false_ne_true)]
    have he : depth + 1 + (n + 1) = depth + 1 + 1 + n := by omega
    rw [he]
    exact hnext _ _ hstop

theorem think_exact_level {level : Level} (hlevel : level ≠ .easy) (rand : Nat) :
    Exact p (maxDepth p level) (think late rand p level) := by
  obtain ⟨n, hn⟩ := Nat.exists_eq_succ_of_ne_zero (maxDepth_pos hm hlevel).ne'
  unfold think
  rw [if_neg hlevel, if_neg hm, hn]
  have h := deepen_exact hl hr hm n 0 { nodes := 1 } {} rfl
  have he : 0 + 1 + n = n.succ := by omega
  rw [he] at h
  exact h

end

/-! ## Endings -/

/-- **The best final disc difference the side to move can reach.** -/
def outcome (b : Board) : Int :=
  if _hm : b.moves = [] then
    if _ho : b.passTurn.moves = [] then discDifference b.cells b.turn else -outcome b.passTurn
  else best (b.moves.attach.map (fun square => turned b (b.play square.1) (outcome (b.play square.1))))
termination_by (empties b.cells, if b.moves = [] then 1 else 0)
decreasing_by
  · refine Prod.Lex.right _ ?_
    rw [if_pos _hm, if_neg _ho]
    exact Nat.one_pos
  · exact Prod.Lex.left _ _ (empties_play square.2)

def moveOutcome (b : Board) (square : Square) : Int := turned b (b.play square) (outcome (b.play square))

theorem outcome_end {b : Board} (hm : b.moves = []) (ho : b.passTurn.moves = []) :
    outcome b = discDifference b.cells b.turn := by
  rw [outcome.eq_def, dif_pos hm, dif_pos ho]

theorem outcome_pass {b : Board} (hm : b.moves = []) (ho : b.passTurn.moves ≠ []) : outcome b = -outcome b.passTurn := by
  rw [outcome.eq_def, dif_pos hm, dif_neg ho]

theorem outcome_moves {b : Board} (hm : b.moves ≠ []) : outcome b = best (b.moves.map (moveOutcome b)) := by
  rw [outcome.eq_def, dif_neg hm]
  show best (b.moves.attach.map (fun square => moveOutcome b square.1)) = _
  rw [attach_map_val]

theorem loud_neg (d : Int) : loud (-d) = -loud d := by
  unfold loud
  split_ifs <;> omega

theorem loud_mono : StrictMono loud := by
  intro a b h
  unfold loud
  split_ifs <;> omega

theorem loud_turned (b next : Board) (v : Int) : loud (turned b next v) = turned b next (loud v) := by
  unfold turned
  split
  · rfl
  · exact loud_neg v

/-- **Searched as deep as there are empty squares, a board is worth its outcome.** -/
theorem value_eq_loud (b : Board) : ∀ depth : Nat, empties b.cells ≤ depth → value depth b = loud (outcome b) := by
  induction b using outcome.induct with
  | case1 b hm ho =>
    intro depth _
    rw [value_end hm ho, outcome_end hm ho]
  | case2 b hm ho ih =>
    intro depth hd
    have hne : depth ≠ 0 := by
      have := empties_pos ho
      exact Nat.ne_of_gt (Nat.lt_of_lt_of_le this hd)
    rw [value_pass hm ho hne, ih depth hd, outcome_pass hm ho, loud_neg]
  | case3 b hm ih =>
    intro depth hd
    obtain ⟨d, rfl⟩ := Nat.exists_eq_succ_of_ne_zero (Nat.ne_of_gt (Nat.lt_of_lt_of_le (empties_pos hm) hd))
    rw [value_moves hm, outcome_moves hm, ← best_map loud_mono.monotone (mt map_eq_nil_iff.1 hm), map_map]
    refine congrArg best (map_congr_left (fun square hs => ?_))
    have hlt := empties_play hs
    show turned b (b.play square) _ = loud (turned b (b.play square) _)
    have hd' : empties (b.play square).cells ≤ d := by omega
    rw [ih ⟨square, hs⟩ d hd', loud_turned]

theorem moveValue_eq_loud {b : Board} {square : Square} (hs : square ∈ b.moves) {depth : Nat}
    (hd : empties b.cells ≤ depth + 1) : moveValue depth b square = loud (moveOutcome b square) := by
  have hlt := empties_play hs
  unfold moveValue moveOutcome
  rw [value_eq_loud _ depth (by omega), loud_turned]

theorem le_best {v : Int} {vs : List Int} (h : v ∈ vs) : v ≤ best vs := by
  obtain ⟨w, ws, rfl⟩ := exists_cons_of_ne_nil (ne_nil_of_mem h)
  exact le_greatest_of_mem ws w h

/-- **The search is exact**: in every position with a legal move, as long as the clock does not pass the deadline, the
deepening search of every depth bound and the machine at every level that searches give the negamax value at the last
depth and a move that has it.  Expert with 14 empty squares or less gives a move with the best final disc difference. -/
theorem think_exact {late : Nat → Bool} (hl : ∀ n, late n = false) {p : Position} (hp : Reachable p) (hm : p.moves ≠ []) :
    (∀ n, Exact p (n + 1) (deepen late p (n + 1) 1 { nodes := 1 } {})) ∧
    (∀ level ≠ Level.easy, ∀ rand, Exact p (maxDepth p level) (think late rand p level)) ∧
    (empties p.cells ≤ 14 → ∀ rand, ∃ square ∈ p.moves, (think late rand p .expert).square = some square ∧
      moveOutcome p.toBoard square = outcome p.toBoard ∧
      ∀ other ∈ p.moves, moveOutcome p.toBoard other ≤ moveOutcome p.toBoard square) := by
  have hr := (accounted_of_reachable hp).room
  refine ⟨fun n => ?_, fun level hlevel rand => think_exact_level hl hr hm hlevel rand, fun h14 rand => ?_⟩
  · have h := deepen_exact hl hr hm n 0 { nodes := 1 } {} rfl
    rw [Nat.zero_add, Nat.add_comm] at h
    exact h
  · obtain ⟨-, hscore, square, hsq, hs, hval⟩ := @think_exact_level late hl p hr hm .expert (by decide) rand
    have hdepth : maxDepth p .expert = empties p.cells := if_pos h14
    have hpos := empties_pos hm
    rw [hscore, hdepth, value_eq_loud _ _ (Nat.le_refl _), moveValue_eq_loud hsq (by show empties p.cells ≤ _; omega)] at hval
    have heq := loud_mono.injective hval
    refine ⟨square, hsq, hs, heq, fun other ho => ?_⟩
    rw [heq, outcome_moves hm]
    exact le_best (mem_map_of_mem ho)

def lastCorner : Position where
  cells i := if i = 0 then none else if i = 1 then some .white else some .black
  turn := .black

theorem think_exact_lastCorner : Exact lastCorner 1 (think (fun _ => false) 0 lastCorner .medium) ∧
    ∃ square ∈ lastCorner.moves, (think (fun _ => false) 0 lastCorner .expert).square = some square ∧
      moveOutcome lastCorner.toBoard square = outcome lastCorner.toBoard ∧
      ∀ other ∈ lastCorner.moves, moveOutcome lastCorner.toBoard other ≤ moveOutcome lastCorner.toBoard square := by
  have hp : Position.fromString ('.' :: 'w' :: List.replicate 62 'b') .black = some lastCorner := by
    have hcells : ∀ i : Square, (if ('.' :: 'w' :: List.replicate 62 'b')[i.val]? = some 'b' then some Side.black
        else if ('.' :: 'w' :: List.replicate 62 'b')[i.val]? = some 'w' then some .white else none) = lastCorner.cells i := by
      decide
    have hletters : ¬ (('.' :: 'w' :: List.replicate 62 'b').length ≠ 64 ∨
        ∃ c ∈ '.' :: 'w' :: List.replicate 62 'b', c ≠ 'b' ∧ c ≠ 'w' ∧ c ≠ '.') := by
      rintro (hlength | ⟨c, hc, hblack, hwhite, hnone⟩)
      · exact hlength rfl
      · rcases mem_cons.1 hc with rfl | hc
        · exact hnone rfl
        · rcases mem_cons.1 hc with rfl | hc
          · exact hwhite rfl
          · exact hblack (eq_of_mem_replicate hc)
    unfold Position.fromString
    rw [if_neg hletters, funext hcells]
    rfl
  have h := @think_exact (fun _ => false) (fun _ => rfl) lastCorner (.fromString hp) (by decide)
  exact ⟨h.2.1 .medium (by decide) 0, h.2.2 (by decide) 0⟩

/-! ## The search against the clock

The clock is looked at only below the first depth, and a depth that it breaks off leaves nothing in the result.
-/

section

variable (late : Nat → Bool) (p : Position)

theorem negamax_leaf_stop (alpha beta : Int) (s : SearchState) : (negamax late 0 p alpha beta s).2.stop = s.stop := by
  rw [negamax]
  split
  · split
    · rfl
    · rfl
  · rfl

theorem rootMove_first_stop (square : Option Square) (best : Int) (s : SearchState) :
    (rootMove late p 1 square best s).2.stop = s.stop := by
  cases square with
  | none => rfl
  | some square =>
    unfold rootMove
    dsimp only
    split
    · exact negamax_leaf_stop late _ _ _ s
    · exact negamax_leaf_stop late _ _ _ s

theorem rootMoves_first_stop (s : SearchState) : (rootMoves late p 1 s).2.stop = s.stop :=
  choose_stop fun square _ b st => rootMove_first_stop late p square b st

def LegalMove (square : Option Square) : Prop := ∃ s ∈ square, s ∈ p.moves

variable {p} (hm : p.moves ≠ [])
include hm

theorem rootMoves_legal (depth : Nat) (s : SearchState) : LegalMove p (rootMoves late p depth s).1.1 := by
  have hmem := choose_mem SearchState.stop (rootMove late p depth) ((order p.moves).map some) (p.moves.head?, -kInfinity) s
  rcases mem_cons.1 hmem with h | h
  · obtain ⟨m, ms, hms⟩ := exists_cons_of_ne_nil hm
    refine ⟨m, ?_, by rw [hms]; exact mem_cons_self⟩
    rw [rootMoves, h, hms]
    rfl
  · obtain ⟨square, hs, heq⟩ := mem_map.1 h
    exact ⟨square, heq.symm, (order_perm p.moves).mem_iff.1 hs⟩

theorem deepen_legal : ∀ (n depth : Nat) (result : SearchResult) (s : SearchState), LegalMove p result.square →
    LegalMove p (deepen late p n depth result s).square
  | 0, _, _, _, h => h
  | n + 1, depth, result, s, h => by
    unfold deepen
    dsimp only
    split
    · exact h
    · exact deepen_legal n (depth + 1) _ _ (rootMoves_legal late hm depth s)

/-- **`Think` makes a legal move**, whatever the clock says at each look. -/
theorem think_legal (rand : Nat) (level : Level) :
    ∃ square ∈ (think late rand p level).square, flipsFor p.cells p.turn square ≠ [] := by
  have hlegal : LegalMove p (think late rand p level).square := by
    unfold think
    by_cases hl : level = .easy
    · rw [if_pos hl, if_neg hm]
      have hlt := Nat.mod_lt rand (length_pos_of_ne_nil hm)
      exact ⟨_, getElem?_eq_getElem hlt, getElem_mem hlt⟩
    rw [if_neg hl, if_neg hm]
    obtain ⟨n, hn⟩ := Nat.exists_eq_add_of_lt (maxDepth_pos hm hl)
    rw [hn, Nat.zero_add]
    unfold deepen
    dsimp only
    rw [rootMoves_first_stop, if_neg Bool.false_ne_true]
    exact deepen_legal late hm n 2 _ _ (rootMoves_legal late hm 1 {})
  obtain ⟨square, hsquare, hmoves⟩ := hlegal
  exact ⟨square, hsquare, mem_legalMoves.1 hmoves⟩

omit hm in
/-- The clock is always late. -/
theorem think_legal_start : ∃ square ∈ (think (fun _ => true) 0 .start .expert).square, flipsFor Position.start.cells .black square ≠ [] :=
  think_legal (p := .start) (fun _ => true) (by decide) 0 .expert

end

end Othello
end Prose
