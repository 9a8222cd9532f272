import Mathlib
/-!
# OthelloModel — the rules of `Othello.cpp`

A `Board` is the 64 cells and whose turn it is; a `Position` is one with every ply that led there, the last on top.  A
square is its index; a mask of discs is the squares of its bits.
-/
namespace Prose
namespace Othello

inductive Side
  | black
  | white
deriving DecidableEq

def opponent : Side → Side
  | .black => .white
  | .white => .black

abbrev Square := Fin 64

scoped instance neZero_64 : NeZero 64 := ⟨by decide⟩

/-- `fCells`: the side of the disc on a square. -/
abbrev Cells := Square → Option Side

/-! ## `FlipsFor` -/

def kDirs : List (Int × Int) := [(-1, -1), (0, -1), (1, -1), (-1, 0), (1, 0), (-1, 1), (0, 1), (1, 1)]

def squareAt (x y : Int) : Option Square :=
  if h : (0 ≤ x ∧ x < 8) ∧ 0 ≤ y ∧ y < 8 then some ⟨(y * 8 + x).toNat, by omega⟩ else none

/-- The squares of the board one comes to from a square in a direction. -/
def ray (square : Square) (dir : Int × Int) : List Square :=
  (List.range' 1 7).filterMap (fun k : Nat => squareAt (square.val % 8 + k * dir.1) (square.val / 8 + k * dir.2))

/-- The other side's discs up to one of `side`'s, if there is one before an empty square or the edge. -/
def line (cells : Cells) (side : Side) : List Square → Option (List Square)
  | []      => none
  | s :: ss =>
    match cells s with
    | none => none
    | some cell => if cell = side then some [] else (line cells side ss).map (s :: ·)

def flipsFor (cells : Cells) (side : Side) (square : Square) : List Square :=
  if (cells square).isSome then []
  else kDirs.flatMap (fun dir => (line cells side (ray square dir)).getD [])

def legalMoves (cells : Cells) (side : Side) : List Square :=
  (List.finRange 64).filter (fun i => decide (flipsFor cells side i ≠ []))

def empties (cells : Cells) : Nat := (List.finRange 64).countP (fun i => (cells i).isNone)

/-- `Counts`, for one side. -/
def discs (cells : Cells) (side : Side) : Nat := (List.finRange 64).countP (fun i => decide (cells i = some side))

/-! ## Boards -/

structure Board where
  cells : Cells
  turn : Side

def Board.moves (b : Board) : List Square := legalMoves b.cells b.turn

/-- `PassTurn`. -/
def Board.passTurn (b : Board) : Board := { b with turn := opponent b.turn }

def Board.over (b : Board) : Bool :=
  if empties b.cells = 0 then true
  else if b.moves ≠ [] then false
  else decide (b.passTurn.moves = [])

/-- `Apply`. -/
def apply (cells : Cells) (side : Side) (square : Square) (flips : List Square) : Cells :=
  fun s => if s = square ∨ s ∈ flips then some side else cells s

def Board.mustPass (b : Board) : Bool := decide (b.moves = []) && !b.over

def Board.advanceTurn (b : Board) : Board := if b.passTurn.mustPass then b else b.passTurn

def Board.play (b : Board) (square : Square) : Board :=
  { b with cells := apply b.cells b.turn square (flipsFor b.cells b.turn square) }.advanceTurn

/-! ## Positions -/

structure Ply where
  move : Option Square
  flips : List Square
  side : Side
  pass : Bool

/-- A board with its history; `fPlyCount` is the length of that. -/
structure Position extends Board where
  history : List Ply := []
  lastMove : Option Square := none

/-- `Reset`. -/
def Position.start : Position where
  cells i := if i = 27 ∨ i = 36 then some .white else if i = 28 ∨ i = 35 then some .black else none
  turn := .black

def Position.advanceTurn (p : Position) : Position :=
  if p.toBoard.passTurn.mustPass then
    { p with history := ⟨none, [], opponent p.turn, true⟩ :: p.history }
  else { p with turn := opponent p.turn }

/-- `Play`; `none` when it returns false. -/
def Position.play (p : Position) (square : Square) : Option Position :=
  if p.history.length ≥ 130 then none
  else if flipsFor p.cells p.turn square = [] then none
  else some { p with
    cells := apply p.cells p.turn square (flipsFor p.cells p.turn square)
    history := ⟨some square, flipsFor p.cells p.turn square, p.turn, false⟩ :: p.history
    lastMove := some square }.advanceTurn

def Position.passTurn (p : Position) : Position := { p with turn := opponent p.turn }

/-- The passes on top of the history are gone; the turn is the side's that passed first. -/
def dropPasses : List Ply → Side → List Ply × Side
  | [], turn          => ([], turn)
  | ply :: rest, turn => if ply.pass then dropPasses rest ply.side else (ply :: rest, turn)

/-- `Undo`. -/
def Position.undo (p : Position) : Position :=
  match dropPasses p.history p.turn with
  | ([], turn) => { p with history := [], turn := turn }
  | (ply :: rest, _) =>
    { cells := fun s => if s ∈ ply.flips then some (opponent ply.side) else if some s = ply.move then none else p.cells s
      turn := ply.side
      history := rest
      lastMove := rest.head?.bind Ply.move }

/-- `FromString`, of a text it takes. -/
def Position.fromString (text : List Char) (turn : Side) : Option Position :=
  if text.length ≠ 64 ∨ ∃ c ∈ text, c ≠ 'b' ∧ c ≠ 'w' ∧ c ≠ '.' then none
  else some
    { cells := fun i => if text[i.val]? = some 'b' then some .black else if text[i.val]? = some 'w' then some .white else none
      turn := turn }

inductive Reachable : Position → Prop
  | start : Reachable .start
  | fromString {text : List Char} {turn : Side} {p : Position} : Position.fromString text turn = some p → Reachable p
  | play {p p' : Position} {square : Square} : Reachable p → p.play square = some p' → Reachable p'
  | passTurn {p : Position} : Reachable p → Reachable p.passTurn
  | undo {p : Position} : Reachable p → Reachable p.undo

end Othello
end Prose
