import Prose.OthelloRules
/-!
# OthelloUndo — a game played and taken back

The positions a game comes to from `Reset` by moves and undos.  `Undo` gives back the position before the last move, but
for the marker of the last move, which it reads off the ply it comes to: that is -1 where the ply is a pass.
-/
namespace Prose
namespace Othello

open List

/-- What `Undo` returns. -/
def Position.undone (p : Position) : Bool := !(dropPasses p.history p.turn).1.isEmpty

/-- The positions of a game: every `Play` and every `Undo` succeeds. -/
inductive Played : Position → Prop
  | start : Played .start
  | play {p p' : Position} {square : Square} : Played p → p.play square = some p' → Played p'
  | undo {p : Position} : Played p → p.undone = true → Played p.undo

theorem Played.reachable {p : Position} (h : Played p) : Reachable p := by
  induction h with
  | start => exact .start
  | play _ hp ih => exact .play ih hp
  | undo _ _ ih => exact .undo ih

/-! ## A move and its undo -/

def Position.made (p : Position) (square : Square) : Position :=
  { p with
    cells := apply p.cells p.turn square (flipsFor p.cells p.turn square)
    history := ⟨some square, flipsFor p.cells p.turn square, p.turn, false⟩ :: p.history
    lastMove := some square }

theorem play_eq_some {p p' : Position} {square : Square} :
    p.play square = some p' ↔ (p.history.length < 130 ∧ Allowed p.cells p.turn square) ∧ (p.made square).advanceTurn = p' := by
  rw [← flipsFor_ne_nil_iff]
  unfold Position.play
  split
  · rename_i hfull
    exact iff_of_false (fun h => nomatch h) (fun h => absurd h.1.1 (Nat.not_lt.2 hfull))
  rename_i hroom
  split
  · rename_i hflips
    exact iff_of_false (fun h => nomatch h) (fun h => h.1.2 hflips)
  · rename_i hflips
    exact Option.some_inj.trans (and_iff_right ⟨Nat.lt_of_not_le hroom, hflips⟩).symm

theorem advanceTurn_cases (p : Position) :
    p.toBoard.passTurn.mustPass = false ∧ p.advanceTurn = { p with turn := opponent p.turn } ∨
      p.toBoard.passTurn.mustPass = true ∧
        p.advanceTurn = { p with history := ⟨none, [], opponent p.turn, true⟩ :: p.history } := by
  unfold Position.advanceTurn
  cases h : p.toBoard.passTurn.mustPass with
  | false => exact Or.inl ⟨rfl, if_neg Bool.false_ne_true⟩
  | true => exact Or.inr ⟨rfl, if_pos rfl⟩

theorem retract_apply {cells : Cells} {side : Side} {square : Square} (h : cells square = none) :
    (fun s => if s ∈ flipsFor cells side square then some (opponent side) else if some s = some square then none
      else apply cells side square (flipsFor cells side square) s) = cells := by
  funext s
  by_cases hflip : s ∈ flipsFor cells side square
  · rw [if_pos hflip]
    exact (mem_flipsFor.1 hflip).2.cell.symm
  rw [if_neg hflip]
  by_cases hs : s = square
  · rw [if_pos (congrArg some hs), hs, h]
  · rw [if_neg (fun heq => hs (Option.some.inj heq))]
    unfold apply
    rw [if_neg (not_or.2 ⟨hs, hflip⟩)]

/-- **`Undo` takes a move back**, and marks the move of the ply it comes to. -/
theorem undo_play {p p' : Position} {square : Square} (h : p.play square = some p') :
    p'.undone = true ∧ p'.undo = { p with lastMove := p.history.head?.bind Ply.move } := by
  obtain ⟨⟨-, hallowed⟩, rfl⟩ := play_eq_some.1 h
  have hback : (⟨⟨_, p.turn⟩, p.history, p.history.head?.bind Ply.move⟩ : Position) =
      { p with lastMove := p.history.head?.bind Ply.move } :=
    congrArg (fun cells => (⟨⟨cells, p.turn⟩, p.history, p.history.head?.bind Ply.move⟩ : Position))
      (@retract_apply p.cells p.turn square hallowed.1)
  rcases advanceTurn_cases (p.made square) with ⟨-, heq⟩ | ⟨-, heq⟩
  · rw [heq]
    exact ⟨rfl, hback⟩
  · rw [heq]
    exact ⟨rfl, hback⟩

theorem undo_lastMove {p : Position} (h : p.undone = true) (m : Option Square) : { p with lastMove := m }.undo = p.undo := by
  unfold Position.undone at h
  unfold Position.undo
  dsimp only
  cases hd : dropPasses p.history p.turn with
  | mk rest turn =>
    rw [hd] at h
    cases rest with
    | nil => cases h
    | cons ply rest => rfl

/-! ## Moves alone -/

inductive Moved : Position → Prop
  | start : Moved .start
  | play {p p' : Position} {square : Square} : Moved p → p.play square = some p' → Moved p'

theorem Played.moved {p : Position} (h : Played p) : ∃ m, Moved { p with lastMove := m } := by
  induction h with
  | start => exact ⟨none, .start⟩
  | @play p p' square _ hp ih =>
    obtain ⟨m, hm⟩ := ih
    exact ⟨p'.lastMove, .play (p := { p with lastMove := m }) hm hp⟩
  | @undo p _ hundone ih =>
    obtain ⟨m, hm⟩ := ih
    have hundo := undo_lastMove hundone m
    have hundone' : { p with lastMove := m }.undone = true := hundone
    generalize { p with lastMove := m } = q at hm hundo hundone'
    cases hm with
    | start => cases hundone'
    | @play r _ square hr hp =>
      rw [← hundo, (undo_play hp).2]
      exact ⟨r.lastMove, hr⟩

theorem moves_of_mustPass {b : Board} (h : b.passTurn.mustPass = true) : b.moves ≠ [] := by
  have hback : b.passTurn.passTurn = b := by
    obtain ⟨cells, turn⟩ := b
    cases turn <;> rfl
  unfold Board.mustPass at h
  obtain ⟨hnil, hover⟩ := Bool.and_eq_true_iff.1 h
  rw [Bool.not_eq_true'] at hover
  unfold Board.over at hover
  split at hover
  · cases hover
  · rw [if_neg (not_not.2 (of_decide_eq_true hnil)), hback] at hover
    exact of_decide_eq_false hover

theorem moves_of_not_mustPass {b : Board} (h : b.mustPass = false) (hover : b.over = false) : b.moves ≠ [] := by
  intro hnil
  unfold Board.mustPass at h
  rw [decide_eq_true hnil, hover] at h
  cases h

theorem moves_advanceTurn (p : Position) (h : p.advanceTurn.over = false) : p.advanceTurn.moves ≠ [] := by
  rcases advanceTurn_cases p with ⟨hpass, heq⟩ | ⟨hpass, heq⟩
  · rw [heq] at h ⊢
    exact moves_of_not_mustPass hpass h
  · rw [heq]
    exact moves_of_mustPass hpass

theorem Moved.moves {p : Position} (h : Moved p) : p.over = false → p.moves ≠ [] := by
  cases h with
  | start => exact fun _ => ne_nil_of_mem (mem_legalMoves.2 (by decide : flipsFor Position.start.cells .black 19 ≠ []))
  | play _ hp =>
    obtain ⟨-, rfl⟩ := play_eq_some.1 hp
    exact moves_advanceTurn _

theorem Moved.moves_of_pass {p : Position} (h : Moved p) {ply : Ply} (hply : ply ∈ p.history.head?) (hpass : ply.pass = true) :
    p.moves ≠ [] := by
  cases h with
  | start => cases hply
  | @play q _ square _ hp =>
    obtain ⟨-, rfl⟩ := play_eq_some.1 hp
    rcases advanceTurn_cases (q.made square) with ⟨-, heq⟩ | ⟨hmust, heq⟩
    · rw [heq] at hply
      rw [← Option.some.inj hply] at hpass
      cases hpass
    · rw [heq]
      exact moves_of_mustPass hmust

theorem Moved.move_of_pass {p : Position} (h : Moved p) : ∀ ply ∈ p.history, ply.pass = true → ply.move = none := by
  induction h with
  | start => exact fun _ h => nomatch h
  | @play q _ square _ hp ih =>
    obtain ⟨-, rfl⟩ := play_eq_some.1 hp
    have hmade : ∀ ply ∈ (q.made square).history, ply.pass = true → ply.move = none :=
      forall_mem_cons.2 ⟨fun h => (nomatch h), ih⟩
    rcases advanceTurn_cases (q.made square) with ⟨-, heq⟩ | ⟨-, heq⟩
    · rw [heq]
      exact hmade
    · rw [heq]
      exact forall_mem_cons.2 ⟨fun _ => rfl, hmade⟩

theorem Played.lastMove {p : Position} (h : Played p) : (∀ ply ∈ p.history.head?, ply.pass = false → p.lastMove = ply.move) ∧
    (p.history = [] → p.lastMove = none) := by
  induction h with
  | start => exact ⟨fun _ h => (nomatch h), fun _ => rfl⟩
  | @play q _ square _ hp _ =>
    obtain ⟨-, rfl⟩ := play_eq_some.1 hp
    rcases advanceTurn_cases (q.made square) with ⟨-, heq⟩ | ⟨-, heq⟩
    · rw [heq]
      refine ⟨fun ply hply _ => ?_, fun h => nomatch h⟩
      rw [← Option.some.inj hply]
      rfl
    rw [heq]
    refine ⟨fun ply hply hpass => ?_, fun h => nomatch h⟩
    rw [← Option.some.inj hply] at hpass
    cases hpass
  | @undo q hq hundone _ =>
    obtain ⟨m, hm⟩ := hq.moved
    rw [← undo_lastMove hundone m]
    have hundone' : { q with lastMove := m }.undone = true := hundone
    generalize { q with lastMove := m } = q' at hm hundone'
    cases hm with
    | start => cases hundone'
    | @play r _ square hr hp =>
      rw [(undo_play hp).2]
      refine ⟨fun ply hply _ => ?_, fun h => ?_⟩
      · rw [Option.mem_def.1 hply]
        rfl
      · rw [show r.history = [] from h]
        rfl

/-! ## The game keeps the rules -/

/-- What a position is to do: the squares the rules allow are played, the discs that are bracketed turn, an undo puts back
what there was, a game that goes on has a move, and the history has room. -/
structure Keeps (p : Position) : Prop where
  plays : ∀ square, (p.play square).isSome ↔ Allowed p.cells p.turn square
  turns : ∀ square p', p.play square = some p' → ∀ s,
    (s = square ∨ Bracketed p.cells p.turn square s → p'.cells s = some p.turn) ∧
      (¬ (s = square ∨ Bracketed p.cells p.turn square s) → p'.cells s = p.cells s)
  undoes : ∀ square p', p.play square = some p' → p'.undone = true ∧ p'.undo.cells = p.cells ∧ p'.undo.turn = p.turn ∧
    p'.undo.history.length = p.history.length ∧ p'.undo.lastMove = p.lastMove
  goesOn : p.over = false → ∃ square, Allowed p.cells p.turn square
  room : p.history.length ≤ 130

theorem cells_play {p p' : Position} {square : Square} (h : p.play square = some p') (s : Square) :
    (s = square ∨ Bracketed p.cells p.turn square s → p'.cells s = some p.turn) ∧
      (¬ (s = square ∨ Bracketed p.cells p.turn square s) → p'.cells s = p.cells s) := by
  obtain ⟨⟨-, hallowed⟩, rfl⟩ := play_eq_some.1 h
  have hcells : (p.made square).advanceTurn.cells = apply p.cells p.turn square (flipsFor p.cells p.turn square) := by
    rw [advanceTurn_toBoard, cells_advanceTurn]
    rfl
  have hmem : s ∈ flipsFor p.cells p.turn square ↔ Bracketed p.cells p.turn square s :=
    mem_flipsFor.trans (and_iff_right hallowed.1)
  rw [hcells, ← hmem]
  exact ⟨fun hs => if_pos hs, fun hs => if_neg hs⟩

/-- **A game keeps the rules, and `Undo` restores what it takes back, if and only if the marker of the last move is not to
be restored at a pass**: the last ply is a move, or `LastMove()` is -1 already. -/
theorem keeps_iff {p : Position} (h : Played p) : Keeps p ↔ ∀ ply ∈ p.history.head?, ply.pass = true → p.lastMove = none := by
  have hroom := (accounted_of_reachable h.reachable).room
  obtain ⟨m, hm⟩ := h.moved
  have hplays : ∀ square, (p.play square).isSome ↔ Allowed p.cells p.turn square := by
    intro square
    rw [Option.isSome_iff_exists]
    refine ⟨fun ⟨p', hp⟩ => (play_eq_some.1 hp).1.2, fun hallowed => ⟨_, play_eq_some.2 ⟨⟨?_, hallowed⟩, rfl⟩⟩⟩
    unfold Room at hroom
    omega
  constructor
  · intro hk ply hply hpass
    obtain ⟨square, hsquare⟩ := exists_mem_of_ne_nil _ (hm.moves_of_pass hply hpass)
    obtain ⟨p', hp⟩ := Option.isSome_iff_exists.1 ((hplays square).2 (flipsFor_ne_nil_iff.1 (mem_legalMoves.1 hsquare)))
    obtain ⟨-, -, -, -, hmark⟩ := hk.undoes square p' hp
    rw [(undo_play hp).2, show p.history.head? = some ply from hply] at hmark
    rw [← hmark]
    exact hm.move_of_pass ply (mem_of_mem_head? hply) hpass
  · intro hpass
    have hmark : p.history.head?.bind Ply.move = p.lastMove := by
      cases hhead : p.history.head? with
      | none => exact (h.lastMove.2 (head?_eq_none_iff.1 hhead)).symm
      | some ply =>
        cases hp : ply.pass with
        | false => exact (h.lastMove.1 ply hhead hp).symm
        | true => exact (hm.move_of_pass ply (mem_of_mem_head? hhead) hp).trans (hpass ply hhead hp).symm
    refine ⟨hplays, fun square p' hp => cells_play hp, fun square p' hp => ?_, fun hover => ?_, ?_⟩
    · obtain ⟨hundone, hundo⟩ := undo_play hp
      rw [hundo]
      exact ⟨hundone, rfl, rfl, rfl, hmark⟩
    · obtain ⟨square, hsquare⟩ := exists_mem_of_ne_nil _ (hm.moves hover)
      exact ⟨square, flipsFor_ne_nil_iff.1 (mem_legalMoves.1 hsquare)⟩
    · unfold Room at hroom
      omega

def Position.playAll (p : Position) : List Square → Option Position
  | [] => some p
  | square :: squares => (p.play square).bind (fun p' => p'.playAll squares)

theorem Played.playAll : ∀ {squares : List Square} {p p' : Position}, Played p → p.playAll squares = some p' → Played p'
  | [], _, _, h, hp => Option.some.inj hp ▸ h
  | _ :: _, _, _, h, hp => by
    obtain ⟨q, hq, hrest⟩ := Option.bind_eq_some_iff.1 hp
    exact (h.play hq).playAll hrest

def passed : Position := (Position.start.playAll [19, 18, 17, 9, 37, 16, 0, 2]).getD .start

theorem played_passed : Played passed ∧ passed.history.head?.map Ply.pass = some true ∧ passed.lastMove = some 2 := by
  have hends : (Position.start.playAll [19, 18, 17, 9, 37, 16, 0, 2]).map (fun p => (p.history.head?.map Ply.pass, p.lastMove)) =
      some (some true, some 2) := by
    decide
  obtain ⟨p, hp, hends⟩ := Option.map_eq_some_iff.1 hends
  unfold passed
  rw [hp]
  exact ⟨Played.start.playAll hp, Prod.mk.inj hends⟩

/-- The marker was on the move before the pass, and is nowhere after a move is taken back. -/
theorem passed_not_kept : ¬ ∀ p, Played p → Keeps p := by
  intro h
  obtain ⟨hplayed, hpass, hlast⟩ := played_passed
  obtain ⟨ply, hply, hpass⟩ := Option.map_eq_some_iff.1 hpass
  have hnone := (keeps_iff hplayed).1 (h passed hplayed) ply hply hpass
  exact nomatch hlast.symm.trans hnone

theorem keeps_start : Keeps .start := (keeps_iff .start).2 (fun _ h => nomatch h)

end Othello
end Prose
