import Prose.OthelloExact
import Prose.Runs
/-!
# OthelloGame — the game window

`GameWindow` of `Othello.cpp`: the looper that owns the position, the threads it has started to think, and the messages
with their moves that wait in its port.  A thread copies the position, the level and the generation one after the other,
whenever it comes to it.  A generation is an `int32` that does not overflow.
-/
namespace Prose
namespace Othello

open List

/-! ## The window, its threads and its messages -/

/-- How far a `Thinker` has come. -/
inductive Thread
  | resumed
  | copied (snapshot : Position)
  | levelled (snapshot : Position) (level : Level)
  | searching (snapshot : Position) (level : Level) (generation : Int)

/-- `MSG_AI_MOVE`. -/
structure AiMove where
  square : Option Square
  generation : Int

structure GameWindow where
  fGame : Position := .start
  fLevel : Level := .medium
  fGeneration : Int := 0
  fThinking : Bool := false
  threads : List Thread := []
  port : List AiMove := []

/-- `spawned` is whether `spawn_thread` gives a thread. -/
def GameWindow.startThinking (g : GameWindow) (spawned : Bool) : GameWindow :=
  if g.fThinking then g
  else if spawned then { g with fThinking := true, threads := g.threads ++ [.resumed] }
  else { g with fThinking := false }

def GameWindow.newGame (g : GameWindow) : GameWindow := { g with fGeneration := g.fGeneration + 1, fGame := .start }

/-- `MSG_UNDO`: the machine's answer and your move. -/
def GameWindow.undo (g : GameWindow) : GameWindow :=
  { g with fGeneration := g.fGeneration + 1, fGame := g.fGame.undo.undo }

def Position.awaitsWhite (p : Position) : Bool := !p.over && decide (p.turn = .white)

def GameWindow.moved (g : GameWindow) (p : Position) (spawned : Bool) : GameWindow :=
  if p.over then { g with fGame := p }
  else if p.turn = .white then { g with fGame := p }.startThinking spawned
  else { g with fGame := p }

def GameWindow.playMove (g : GameWindow) (square : Square) (spawned : Bool) : GameWindow :=
  match g.fGame.play square with
  | none => g
  | some p => g.moved p spawned

def GameWindow.finishAiMove (g : GameWindow) (move : AiMove) (spawned : Bool) : GameWindow :=
  let g := { g with fThinking := false }
  if move.generation ≠ g.fGeneration then g
  else
    match move.square with
    | none => g
    | some square =>
      if g.fGame.over ∨ g.fGame.turn ≠ .white then g
      else
        match g.fGame.play square with
        | none => g
        | some p => g.moved p spawned

def GameWindow.read (g : GameWindow) : Thread → Option Thread
  | .resumed => some (.copied g.fGame)
  | .copied snapshot => some (.levelled snapshot g.fLevel)
  | .levelled snapshot level => some (.searching snapshot level g.fGeneration)
  | .searching _ _ _ => none

/-! ## Events -/

/-- A message the window handles, or a step of the thread of an index. -/
inductive Event
  | newGame
  | undo
  | level (level : Level)
  | play (square : Square) (spawned : Bool)
  | think (spawned : Bool)
  | aiMove (spawned : Bool)
  | read (i : Nat)
  | post (i : Nat) (late : Nat → Bool) (rand : Nat)

def GameWindow.step (g : GameWindow) : Event → Option GameWindow
  | .newGame => some g.newGame
  | .undo => some g.undo
  | .level level => some { g with fLevel := level }
  | .play square spawned => some (g.playMove square spawned)
  | .think spawned => some (g.startThinking spawned)
  | .aiMove spawned =>
    match g.port with
    | [] => none
    | move :: port => some ({ g with port := port }.finishAiMove move spawned)
  | .read i => (g.threads[i]?.bind g.read).map (fun t => { g with threads := g.threads.set i t })
  | .post i late rand =>
    match g.threads[i]? with
    | some (.searching snapshot level generation) => some { g with
        threads := g.threads.eraseIdx i
        port := g.port ++ [⟨(think late rand snapshot level).square, generation⟩] }
    | _ => none

/-! ## At most one thinks -/

def Thread.generation : Thread → Option Int
  | .searching _ _ generation => some generation
  | _ => none

/-- One thread thinks or one move waits while `fThinking`, none else; and their generations have been. -/
structure Outstanding (g : GameWindow) : Prop where
  one : g.threads.length + g.port.length = if g.fThinking then 1 else 0
  threads : ∀ t ∈ g.threads, ∀ n ∈ t.generation, n ≤ g.fGeneration
  port : ∀ m ∈ g.port, m.generation ≤ g.fGeneration

theorem Outstanding.startThinking {g : GameWindow} (h : Outstanding g) (spawned : Bool) :
    Outstanding (g.startThinking spawned) := by
  unfold GameWindow.startThinking
  split
  · exact h
  rename_i hn
  have h1 := h.one
  rw [if_neg hn] at h1
  split
  · refine ⟨?_, fun t ht n hgen => ?_, h.port⟩
    · show (g.threads ++ [_]).length + g.port.length = 1
      rw [length_append, length_singleton]
      omega
    · rcases mem_append.1 ht with ht | ht
      · exact h.threads t ht n hgen
      · rw [mem_singleton.1 ht] at hgen
        cases hgen
  · exact ⟨h1, h.threads, h.port⟩

theorem Outstanding.later {g : GameWindow} (h : Outstanding g) (p : Position) :
    Outstanding { g with fGeneration := g.fGeneration + 1, fGame := p } :=
  ⟨h.one, fun t ht n hn => Int.le_trans (h.threads t ht n hn) (Int.le_of_lt (Int.lt_succ _)),
    fun m hm => Int.le_trans (h.port m hm) (Int.le_of_lt (Int.lt_succ _))⟩

theorem Outstanding.moved {g : GameWindow} (h : Outstanding g) (p : Position) (spawned : Bool) :
    Outstanding (g.moved p spawned) := by
  have hp : Outstanding { g with fGame := p } := ⟨h.one, h.threads, h.port⟩
  unfold GameWindow.moved
  split
  · exact hp
  · split
    · exact hp.startThinking spawned
    · exact hp

theorem Outstanding.playMove {g : GameWindow} (h : Outstanding g) (square : Square) (spawned : Bool) :
    Outstanding (g.playMove square spawned) := by
  unfold GameWindow.playMove
  split
  · exact h
  · exact h.moved _ spawned

theorem Outstanding.alone {g : GameWindow} (h : Outstanding g) {move : AiMove} {port : List AiMove}
    (hp : g.port = move :: port) : g.threads = [] ∧ port = [] := by
  have h1 := h.one
  rw [hp, length_cons] at h1
  have h2 : g.threads.length = 0 ∧ port.length = 0 := by
    split at h1 <;> omega
  exact ⟨length_eq_zero_iff.1 h2.1, length_eq_zero_iff.1 h2.2⟩

theorem Outstanding.finishAiMove {g : GameWindow} (h : Outstanding g) {move : AiMove} {port : List AiMove}
    (hp : g.port = move :: port) (spawned : Bool) : Outstanding ({ g with port := port }.finishAiMove move spawned) := by
  obtain ⟨ht, rfl⟩ := h.alone hp
  have h0 : Outstanding { g with port := [], fThinking := false } :=
    ⟨by rw [ht]; rfl, h.threads, fun _ hm => nomatch hm⟩
  unfold GameWindow.finishAiMove
  dsimp only
  split
  · exact h0
  split
  · exact h0
  split
  · exact h0
  · split
    · exact h0
    · exact h0.moved _ spawned

theorem Outstanding.step {g g' : GameWindow} (h : Outstanding g) {e : Event} (hs : g.step e = some g') : Outstanding g' := by
  cases e with
  | newGame =>
    rw [← Option.some.inj hs]
    exact h.later .start
  | undo =>
    rw [← Option.some.inj hs]
    exact h.later _
  | level level =>
    rw [← Option.some.inj hs]
    exact ⟨h.one, h.threads, h.port⟩
  | play square spawned =>
    rw [← Option.some.inj hs]
    exact h.playMove square spawned
  | think spawned =>
    rw [← Option.some.inj hs]
    exact h.startThinking spawned
  | aiMove spawned =>
    unfold GameWindow.step at hs
    cases hp : g.port with
    | nil =>
      rw [hp] at hs
      cases hs
    | cons move port =>
      rw [hp] at hs
      rw [← Option.some.inj hs]
      exact h.finishAiMove hp spawned
  | read i =>
    obtain ⟨t, ht, rfl⟩ := Option.map_eq_some_iff.1 hs
    obtain ⟨t₀, -, ht⟩ := Option.bind_eq_some_iff.1 ht
    refine ⟨?_, fun t' ht' n hn => ?_, h.port⟩
    · show (g.threads.set i t).length + g.port.length = _
      rw [length_set]
      exact h.one
    · rcases mem_or_eq_of_mem_set ht' with hmem | rfl
      · exact h.threads t' hmem n hn
      cases t₀ with
      | levelled snapshot level =>
        rw [← Option.some.inj ht] at hn
        rw [← Option.some.inj hn]
      | searching => cases ht
      | resumed | copied =>
        rw [← Option.some.inj ht] at hn
        cases hn
  | post i late rand =>
    unfold GameWindow.step at hs
    dsimp only at hs
    split at hs
    · rename_i snapshot level generation hi
      rw [← Option.some.inj hs]
      have hmem := mem_of_getElem? hi
      obtain ⟨hlt, -⟩ := List.getElem?_eq_some_iff.1 hi
      refine ⟨?_, fun t ht n hn => h.threads t (mem_of_mem_eraseIdx ht) n hn, fun m hm => ?_⟩
      · show (g.threads.eraseIdx i).length + (g.port ++ [_]).length = _
        rw [length_eraseIdx_of_lt hlt, length_append, length_singleton, ← h.one]
        omega
      · rcases mem_append.1 hm with hm | hm
        · exact h.port m hm
        · rw [mem_singleton.1 hm]
          exact h.threads _ hmem generation rfl
    · cases hs

/-! ## White to move -/

/-- A thread that has not read another generation yet, or a waiting move of this one. -/
def Served (g : GameWindow) : Prop :=
  (∃ t ∈ g.threads, ∀ n ∈ t.generation, n = g.fGeneration) ∨ ∃ m ∈ g.port, m.generation = g.fGeneration

/-- **While the game waits for White, the machine's move is on its way.** -/
def NotStalled (g : GameWindow) : Prop := g.fGame.awaitsWhite = true → Served g

/-- The event does not stall the game: a move that leaves White on finds the machine's move on its way, or starts a thread
that thinks of one; an `Undo` that leaves White on finds a thread that has not read the generation yet; and the machine's
move, when White is on, is of this generation and legal, and starts a thread if White is on again. -/
def Continues (g : GameWindow) : Event → Prop
  | .undo => g.fGame.undo.undo.awaitsWhite = true → ∃ t ∈ g.threads, t.generation = none
  | .play square spawned => ∀ p ∈ g.fGame.play square, p.awaitsWhite = true →
      Served g ∨ g.fThinking = false ∧ spawned = true
  | .aiMove spawned => ∀ move ∈ g.port.head?, g.fGame.awaitsWhite = true →
      move.generation = g.fGeneration ∧ ∃ square ∈ move.square, ∃ p ∈ g.fGame.play square,
        p.awaitsWhite = true → spawned = true
  | _ => True

theorem not_served_of_idle {g : GameWindow} (h : Outstanding g) (ht : g.fThinking = false) : ¬ Served g := by
  have h1 := h.one
  rw [ht, if_neg Bool.false_ne_true] at h1
  have h2 : g.threads = [] := length_eq_zero_iff.1 (by omega)
  have h3 : g.port = [] := length_eq_zero_iff.1 (by omega)
  rintro (⟨t, hm, -⟩ | ⟨m, hm, -⟩)
  · rw [h2] at hm
    cases hm
  · rw [h3] at hm
    cases hm

theorem served_startThinking {g : GameWindow} (h : Outstanding g) (spawned : Bool) :
    Served (g.startThinking spawned) ↔ Served g ∨ g.fThinking = false ∧ spawned = true := by
  unfold GameWindow.startThinking
  split
  · rename_i ht
    rw [ht]
    exact ⟨Or.inl, fun hs => hs.resolve_right (fun hc => Bool.false_ne_true hc.1.symm)⟩
  rename_i ht
  replace ht := Bool.eq_false_iff.2 ht
  split
  · rename_i hsp
    exact iff_of_true (Or.inl ⟨.resumed, mem_append_right _ (mem_singleton_self _), fun n hn => nomatch hn⟩)
      (Or.inr ⟨ht, hsp⟩)
  rename_i hsp
  refine iff_of_false (show ¬ Served g from not_served_of_idle h ht) ?_
  rintro (hs | hs)
  · exact not_served_of_idle h ht hs
  · exact hsp hs.2

theorem startThinking_fGame (g : GameWindow) (spawned : Bool) : (g.startThinking spawned).fGame = g.fGame := by
  unfold GameWindow.startThinking
  split
  · rfl
  · split <;> rfl

theorem moved_fGame (g : GameWindow) (p : Position) (spawned : Bool) : (g.moved p spawned).fGame = p := by
  unfold GameWindow.moved
  split
  · rfl
  · split
    · exact startThinking_fGame _ _
    · rfl

theorem notStalled_moved {g : GameWindow} (h : Outstanding g) (p : Position) (spawned : Bool) :
    NotStalled (g.moved p spawned) ↔ (p.awaitsWhite = true → Served g ∨ g.fThinking = false ∧ spawned = true) := by
  unfold NotStalled
  rw [moved_fGame]
  refine forall_congr' (fun hw => ?_)
  have hover : p.over = false ∧ p.turn = .white := by
    unfold Position.awaitsWhite at hw
    simpa using hw
  unfold GameWindow.moved
  rw [if_neg (by rw [hover.1]; exact Bool.false_ne_true), if_pos hover.2]
  exact served_startThinking (⟨h.one, h.threads, h.port⟩ : Outstanding { g with fGame := p }) spawned

theorem notStalled_finishAiMove {g : GameWindow} (h : Outstanding g) {move : AiMove} {port : List AiMove}
    (hp : g.port = move :: port) (spawned : Bool) :
    NotStalled ({ g with port := port }.finishAiMove move spawned) ↔ (g.fGame.awaitsWhite = true →
      move.generation = g.fGeneration ∧ ∃ square ∈ move.square, ∃ p ∈ g.fGame.play square,
        p.awaitsWhite = true → spawned = true) := by
  obtain ⟨ht, rfl⟩ := h.alone hp
  have h0 : Outstanding { g with port := [], fThinking := false } :=
    ⟨by rw [ht]; rfl, h.threads, fun _ hm => nomatch hm⟩
  have hidle : NotStalled { g with port := [], fThinking := false } ↔ ¬ g.fGame.awaitsWhite = true :=
    forall_congr' (fun _ => iff_false_intro (not_served_of_idle h0 rfl))
  have hwhite : g.fGame.awaitsWhite = true ↔ ¬ (g.fGame.over = true ∨ g.fGame.turn ≠ .white) := by
    unfold Position.awaitsWhite
    simp
  unfold GameWindow.finishAiMove
  dsimp only
  split
  · rename_i hgen
    rw [hidle]
    exact forall_congr' (fun _ => ⟨False.elim, fun hs => hgen hs.1⟩)
  rename_i hgen
  split
  · rename_i hsq
    rw [hidle]
    refine forall_congr' (fun _ => ⟨False.elim, fun ⟨_, square, hs, _⟩ => ?_⟩)
    rw [hsq] at hs
    cases hs
  rename_i square hsq
  split
  · rename_i hturn
    have hw : ¬ g.fGame.awaitsWhite = true := fun hw => hwhite.1 hw hturn
    exact iff_of_true (hidle.2 hw) (fun hw' => absurd hw' hw)
  rename_i hturn
  have hw := hwhite.2 hturn
  split
  · rename_i hplay
    rw [hidle]
    refine forall_congr' (fun _ => ⟨False.elim, fun ⟨_, square', hs, p, hpl, _⟩ => ?_⟩)
    rw [hsq] at hs
    cases hs
    rw [hplay] at hpl
    cases hpl
  · rename_i p hplay
    rw [notStalled_moved h0 p spawned]
    constructor
    · exact fun hs _ => ⟨not_not.1 hgen, square, hsq, p, hplay, fun hpw =>
        ((hs hpw).resolve_left (not_served_of_idle h0 rfl)).2⟩
    · intro hs hpw
      obtain ⟨-, square', hs', p', hpl, hsp⟩ := hs hw
      rw [hsq] at hs'
      cases hs'
      rw [hplay] at hpl
      cases hpl
      exact Or.inr ⟨rfl, hsp hpw⟩

theorem start_not_awaitsWhite : ¬ Position.start.awaitsWhite = true := by
  intro h
  have hturn : Position.start.turn = .white := of_decide_eq_true (Bool.and_eq_true_iff.1 h).2
  cases hturn

/-- **An event leaves the game unstalled if and only if `Continues`.** -/
theorem notStalled_step_iff {g : GameWindow} (h : Outstanding g) (hg : NotStalled g) (e : Event) :
    (∀ g' ∈ g.step e, NotStalled g') ↔ Continues g e := by
  have hsome : ∀ g', (∀ g'' ∈ some g', NotStalled g'') ↔ NotStalled g' := fun g' =>
    ⟨fun hs => hs g' rfl, fun hs g'' he => by rw [← Option.some.inj he]; exact hs⟩
  cases e with
  | newGame =>
    exact (hsome _).trans (iff_of_true (fun hw => absurd hw start_not_awaitsWhite) trivial)
  | undo =>
    refine (hsome _).trans (forall_congr' fun hw => ?_)
    constructor
    · rintro (⟨t, ht, hn⟩ | ⟨m, hm, hn⟩)
      · refine ⟨t, ht, ?_⟩
        cases hgen : t.generation with
        | none => rfl
        | some n =>
          have h1 := hn n hgen
          have h2 := h.threads t ht n hgen
          change n = g.fGeneration + 1 at h1
          omega
      · have h2 := h.port m hm
        change m.generation = g.fGeneration + 1 at hn
        omega
    · rintro ⟨t, ht, hn⟩
      refine Or.inl ⟨t, ht, fun n hgen => ?_⟩
      rw [hn] at hgen
      cases hgen
  | level level => exact (hsome _).trans (iff_of_true hg trivial)
  | play square spawned =>
    refine (hsome _).trans ?_
    unfold GameWindow.playMove
    cases hp : g.fGame.play square with
    | none =>
      refine iff_of_true hg (fun p' hp' => ?_)
      rw [hp] at hp'
      cases hp'
    | some p =>
      refine (notStalled_moved h p spawned).trans ⟨fun hs p' hp' => ?_, fun hs => hs p hp⟩
      rw [hp] at hp'
      rw [← Option.some.inj hp']
      exact hs
  | think spawned =>
    refine (hsome _).trans (iff_of_true (fun hw => ?_) trivial)
    rw [startThinking_fGame] at hw
    exact (served_startThinking h spawned).2 (Or.inl (hg hw))
  | aiMove spawned =>
    cases hp : g.port with
    | nil =>
      have hnone : g.step (.aiMove spawned) = none := by
        unfold GameWindow.step
        rw [hp]
      rw [hnone]
      refine iff_of_true (fun _ hg' => nomatch hg') (fun move hm => ?_)
      rw [hp] at hm
      cases hm
    | cons move port =>
      have hstep : g.step (.aiMove spawned) = some ({ g with port := port }.finishAiMove move spawned) := by
        unfold GameWindow.step
        rw [hp]
      rw [hstep, hsome]
      have hhead : Continues g (.aiMove spawned) ↔ (g.fGame.awaitsWhite = true →
          move.generation = g.fGeneration ∧ ∃ square ∈ move.square, ∃ p ∈ g.fGame.play square,
            p.awaitsWhite = true → spawned = true) := by
        unfold Continues
        rw [hp]
        exact ⟨fun hs => hs move rfl, fun hs m hm => by rw [← Option.some.inj hm]; exact hs⟩
      rw [hhead]
      exact notStalled_finishAiMove h hp spawned
  | read i =>
    refine iff_of_true (fun g' hs hw => ?_) trivial
    obtain ⟨t, ht, rfl⟩ := Option.map_eq_some_iff.1 hs
    obtain ⟨t₀, hi, ht⟩ := Option.bind_eq_some_iff.1 ht
    obtain ⟨hlt, -⟩ := List.getElem?_eq_some_iff.1 hi
    refine Or.inl ⟨t, mem_set hlt t, fun n hn => ?_⟩
    cases t₀ with
    | levelled snapshot level =>
      rw [← Option.some.inj ht] at hn
      exact (Option.some.inj hn).symm
    | searching => cases ht
    | resumed | copied =>
      rw [← Option.some.inj ht] at hn
      cases hn
  | post i late rand =>
    refine iff_of_true (fun g' hs hw => ?_) trivial
    unfold GameWindow.step at hs
    dsimp only at hs
    split at hs
    · rename_i snapshot level generation hi
      rw [← Option.some.inj hs] at hw ⊢
      obtain ⟨hlt, -⟩ := List.getElem?_eq_some_iff.1 hi
      have h1 := h.one
      have hone : g.threads.length = 1 := by
        split at h1 <;> omega
      obtain ⟨x, hx⟩ := length_eq_one_iff.1 hone
      have hx' : x = .searching snapshot level generation := by
        have h0 : i = 0 := by omega
        rw [hx, h0] at hi
        exact Option.some.inj hi
      rcases hg hw with ⟨t, ht, hn⟩ | ⟨m, hm, hn⟩
      · rw [hx, mem_singleton] at ht
        refine Or.inr ⟨_, mem_append_right _ (mem_singleton_self _), hn generation ?_⟩
        rw [ht, hx']
        rfl
      · exact Or.inr ⟨m, mem_append_left _ hm, hn⟩
    · cases hs

/-- **In every run, the game is never stalled if and only if every event of the run continues it.** -/
theorem never_stalls_iff (level : Level) (es : List Event) :
    (∀ pre post g, es = pre ++ post → Runs.run GameWindow.step { fLevel := level } pre = some g → NotStalled g) ↔
      Runs.Along GameWindow.step Continues { fLevel := level } es := by
  have hstart : NotStalled { fLevel := level } := fun hw => absurd hw start_not_awaitsWhite
  refine Runs.along_states.trans ((and_iff_right hstart).trans ?_)
  refine Runs.along_congr (I := fun g => Outstanding g ∧ NotStalled g) (fun g e g' hi hc hs => ?_)
    (fun g e hi => notStalled_step_iff hi.1 hi.2 e) ⟨⟨rfl, fun _ ht => (nomatch ht), fun _ hm => (nomatch hm)⟩, hstart⟩
  exact ⟨hi.1.step hs, (notStalled_step_iff hi.1 hi.2 e).2 hc g' hs⟩

/-- Black moves, the thread copies what it needs, a new game begins, and black moves again before the answer. -/
def quickMove : List Event := [.play 19 true, .read 0, .read 0, .read 0, .newGame, .play 19 true]

/-- The thread of the old game keeps the new one from getting its own. -/
theorem quickMove_stalls : ¬ ∀ (level : Level) (es : List Event), ∀ pre post g, es = pre ++ post →
    Runs.run GameWindow.step { fLevel := level } pre = some g → NotStalled g := by
  intro h
  have hplay : (Position.start.play 19).map (fun p => (p.over, p.turn)) = some (false, .white) := by decide
  obtain ⟨p, hp, hturn⟩ := Option.map_eq_some_iff.1 hplay
  obtain ⟨hover, hturn⟩ := Prod.mk.inj hturn
  have hg : Runs.run GameWindow.step { fLevel := .medium } quickMove =
      some { fGame := p, fLevel := .medium, fGeneration := 1, fThinking := true,
             threads := [.searching p .medium 0], port := [] } := by
    simp [quickMove, Runs.run, GameWindow.step, GameWindow.playMove, GameWindow.moved, GameWindow.startThinking, GameWindow.read,
      GameWindow.newGame, hp, hover, hturn]
  have hw : p.awaitsWhite = true := by simp [Position.awaitsWhite, hover, hturn]
  rcases h .medium quickMove quickMove [] _ (append_nil _).symm hg hw with ⟨t, ht, hn⟩ | ⟨m, hm, -⟩
  · rw [mem_singleton.1 ht] at hn
    exact absurd (hn 0 rfl) (by show ¬ (0 : Int) = 1; decide)
  · cases hm

end Othello
end Prose
