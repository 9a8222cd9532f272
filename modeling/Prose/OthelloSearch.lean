import Prose.AlphaBeta
import Prose.OthelloModel
/-!
# OthelloSearch — the machine of `Othello.cpp`

`Evaluate`, `Order`, `Negamax` and `Think`.  `late n` is whether the clock has passed the deadline when it is read at the
`n`th node; `rand` is what `rand_r` gives.  A score is an `int` far from overflow.
-/
namespace Prose
namespace Othello

open List

inductive Level
  | easy
  | medium
  | hard
  | expert
deriving DecidableEq

/-! ## `Evaluate` -/

def kWeights : List Int := [
  120, -20, 20, 5, 5, 20, -20, 120,
  -20, -40, -5, -5, -5, -5, -40, -20,
  20, -5, 15, 3, 3, 15, -5, 20,
  5, -5, 3, 3, 3, 3, -5, 5,
  5, -5, 3, 3, 3, 3, -5, 5,
  20, -5, 15, 3, 3, 15, -5, 20,
  -20, -40, -5, -5, -5, -5, -40, -20,
  120, -20, 20, 5, 5, 20, -20, 120]

def weightOf (square : Square) : Int := kWeights.getD square.val 0

def cornerMap : List Int := [
  0, 0, -1, -1, -1, -1, 7, 7,
  0, 0, -1, -1, -1, -1, 7, 7,
  -1, -1, -1, -1, -1, -1, -1, -1,
  -1, -1, -1, -1, -1, -1, -1, -1,
  -1, -1, -1, -1, -1, -1, -1, -1,
  -1, -1, -1, -1, -1, -1, -1, -1,
  56, 56, -1, -1, -1, -1, 63, 63,
  56, 56, -1, -1, -1, -1, 63, 63]

def cornerOf (square : Square) : Int := cornerMap.getD square.val (-1)

/-- What a disc of `side` on a square is worth to it; one beside an own corner is no longer poison. -/
def discWeight (cells : Cells) (side : Side) (i : Square) : Int :=
  if cornerOf i ≥ 0 ∧ weightOf i < 0 ∧ cells (Fin.ofNat 64 (cornerOf i).toNat) = some side then 8 else weightOf i

/-- `weights[side - 1]` after the loop. -/
def weights (cells : Cells) (side : Side) : Int :=
  ((List.finRange 64).map (fun i => if cells i = some side then discWeight cells side i else 0)).sum

def evaluate (cells : Cells) (forSide : Side) : Int :=
  let myMoves := (legalMoves cells forSide).length
  let theirMoves := (legalMoves cells (opponent forSide)).length
  let empties := 64 - discs cells .black - discs cells .white
  let score := weights cells forSide - weights cells (opponent forSide) + 8 * ((myMoves : Int) - theirMoves)
  if empties ≤ 16 then score + 4 * ((discs cells forSide : Int) - discs cells (opponent forSide)) else score

/-! ## `Order` -/

def heaviest : Square → List Square → Square
  | best, []      => best
  | best, m :: ms => heaviest (if weightOf m > weightOf best then m else best) ms

theorem heaviest_mem : ∀ (ms : List Square) (best : Square), heaviest best ms ∈ best :: ms
  | [], best => mem_cons_self
  | m :: ms, best => by
    have ih := heaviest_mem ms (if weightOf m > weightOf best then m else best)
    unfold heaviest
    rcases mem_cons.1 ih with h | h
    · rw [h]
      split
      · exact mem_cons_of_mem _ mem_cons_self
      · exact mem_cons_self
    · exact mem_cons_of_mem _ (mem_cons_of_mem _ h)

def order (moves : List Square) : List Square :=
  match moves with
  | [] => []
  | m :: ms => heaviest m ms :: order ((m :: ms).erase (heaviest m ms))
termination_by moves.length
decreasing_by
  rw [length_erase_of_mem (heaviest_mem ms m)]
  exact Nat.lt_succ_self _

/-! ## `Negamax` -/

def kInfinity : Int := 16777216

/-- `fNodes` and `fStop`. -/
structure SearchState where
  nodes : Nat := 0
  stop : Bool := false

def discDifference (cells : Cells) (side : Side) : Int := discs cells side - discs cells (opponent side)

def loud (diff : Int) : Int := if diff > 0 then 100000 + diff else if diff < 0 then -100000 + diff else 0

/-- `next.Play(square)`, on a copy. -/
def Position.after (p : Position) (square : Square) : Position := (p.play square).getD p

section
variable (late : Nat → Bool)

def SearchState.look (s : SearchState) : SearchState :=
  if s.nodes % 1024 = 0 ∧ late s.nodes = true then { s with stop := true } else s

def negamax (depth : Nat) (p : Position) (alpha beta : Int) (s : SearchState) : Int × SearchState :=
  let s := { s with nodes := s.nodes + 1 }
  if _hm : p.moves = [] then
    if _ho : p.toBoard.passTurn.moves = [] then (loud (discDifference p.cells p.turn), s)
    else if depth = 0 then (evaluate p.cells p.turn, s)
    else
      let (v, s) := negamax depth p.passTurn (-beta) (-alpha) s
      (-v, s)
  else
    match _hd : depth with
    | 0 => (evaluate p.cells p.turn, s)
    | depth + 1 =>
      let s := s.look late
      if s.stop then (alpha, s)
      else AlphaBeta.loop SearchState.stop (fun square alpha beta s =>
        let next := p.after square
        if next.turn = p.turn then negamax depth next alpha beta s
        else
          let (v, s) := negamax depth next (-beta) (-alpha) s
          (-v, s)) beta (order p.moves) alpha (-kInfinity) s
termination_by (depth, if p.moves = [] then 1 else 0)
decreasing_by
  · refine Prod.Lex.right _ ?_
    have ho : ¬ p.passTurn.moves = [] := _ho
    rw [if_pos _hm, if_neg ho]
    exact Nat.one_pos
  · exact Prod.Lex.left _ _ (Nat.lt_succ_self _)
  · exact Prod.Lex.left _ _ (Nat.lt_succ_self _)

/-! ## `Think` -/

structure SearchResult where
  square : Option Square := none
  score : Int := 0
  depth : Nat := 0
  nodes : Nat := 0

/-- A move of the root; one that leaves the same side to move is searched with the full window. -/
def rootMove (p : Position) (depth : Nat) (square : Option Square) (best : Int) (s : SearchState) : Int × SearchState :=
  match square with
  | none => (best, s)
  | some square =>
    let next := p.after square
    if next.turn = p.turn then negamax late (depth - 1) next (-kInfinity) kInfinity s
    else
      let (v, s) := negamax late (depth - 1) next (-kInfinity) (-best) s
      (-v, s)

def rootMoves (p : Position) (depth : Nat) (s : SearchState) : (Option Square × Int) × SearchState :=
  AlphaBeta.choose SearchState.stop (rootMove late p depth) ((order p.moves).map some) (p.moves.head?, -kInfinity) s

/-- Deeper and deeper, `n` depths more from `depth` on. -/
def deepen (p : Position) : Nat → Nat → SearchResult → SearchState → SearchResult
  | 0, _, result, s => { result with nodes := s.nodes }
  | n + 1, depth, result, s =>
    let (best, s) := rootMoves late p depth s
    if s.stop then { result with nodes := s.nodes }
    else deepen p n (depth + 1) { square := best.1, score := best.2, depth := depth, nodes := s.nodes } s

def maxDepth (p : Position) : Level → Nat
  | .easy => 0
  | .medium => 1
  | .hard => if empties p.cells ≤ 10 then empties p.cells else 4
  | .expert => if empties p.cells ≤ 14 then empties p.cells else 9

def think (rand : Nat) (p : Position) (level : Level) : SearchResult :=
  if level = .easy then
    if p.moves = [] then { nodes := 1 }
    else { square := p.moves[rand % p.moves.length]?, depth := 1, nodes := 1 }
  else if p.moves = [] then { nodes := 1 }
  else deepen late p (maxDepth p level) 1 { nodes := 1 } {}

end

end Othello
end Prose
