import Prose.ClangdJson
import Prose.Runs
/-!
# ClangdServer — the server, its sessions and its workers

`ServerApp` of `main.cpp`: the looper that opens and ends sessions, and a worker thread for each question, which holds the
pointer to its session for as long as clangd thinks.  A session is told by its address, and no address is given out twice.
-/
namespace Prose
namespace Clangd

open List

/-! ## Sessions -/

structure Reply where
  id : Int
  error : Bool
  value : JVal

/-- `EditorSession`, with what its `LspSession` keeps for the requests. -/
structure EditorSession where
  address : Nat
  token : Int
  docs : List (Bytes × Bytes) := []
  fNextId : Int := 1
  fReplies : List Reply := []
  fReaderGone : Bool := false

def skipLines : Nat → Bytes → Option Bytes
  | 0, text        => some text
  | line + 1, text =>
    match text.dropWhile (· ≠ 10) with
    | []        => none
    | _ :: text => skipLines line text

def EditorSession.lineOf (s : EditorSession) (name : Bytes) (line : Int) : Bytes :=
  match s.docs.find? (·.1 = name) with
  | none => []
  | some doc => ((skipLines line.toNat doc.2).getD []).takeWhile (· ≠ 10)

def EditorSession.rememberText (s : EditorSession) (name text : Bytes) : EditorSession :=
  match s.docs.findIdx? (·.1 = name) with
  | some i => { s with docs := s.docs.set i (name, text) }
  | none   => { s with docs := s.docs ++ [(name, text)] }

def EditorSession.forgetText (s : EditorSession) (name : Bytes) : EditorSession :=
  { s with docs := s.docs.eraseP (·.1 = name) }

/-! ## Workers -/

inductive Question
  | complete | definition

/-- `Work`. -/
structure Work where
  session : Nat
  what : Question
  reqid : Int
  name : Bytes
  line : Int
  col : Int

/-- How far a worker has come in `WorkerEntry` and the `Request` in it. -/
inductive Phase
  | start
  | request (lineText : Bytes)
  | send (lineText : Bytes) (id : Int)
  | wait (id : Int)
  | answer (reply : Option JVal)

structure Worker where
  work : Work
  phase : Phase := .start

structure Answer where
  work : Work
  reply : Option JVal

structure ServerApp where
  fSessions : List EditorSession := []
  fNextToken : Int := 0
  /-- The next address. -/
  heap : Nat := 0
  workers : List Worker := []
  /-- The questions of live sessions, in the order they were handled. -/
  accepted : List Work := []
  answers : List Answer := []

def ServerApp.sessionByToken (g : ServerApp) (token : Int) : Option EditorSession := g.fSessions.find? (·.token = token)

def ServerApp.session (g : ServerApp) (address : Nat) : Option EditorSession := g.fSessions.find? (·.address = address)

def ServerApp.update (g : ServerApp) (address : Nat) (f : EditorSession → EditorSession) : ServerApp :=
  { g with fSessions := g.fSessions.map (fun s => if s.address = address then f s else s) }

def ServerApp.setPhase (g : ServerApp) (i : Nat) (w : Worker) (phase : Phase) : ServerApp :=
  { g with workers := g.workers.set i { w with phase := phase } }

/-- The next step of a worker; `sent` is whether the pipe took the request, `late` whether the deadline is over. -/
def ServerApp.work (g : ServerApp) (i : Nat) (w : Worker) (s : EditorSession) (sent late : Bool) : ServerApp :=
  match w.phase with
  | .start => g.setPhase i w (.request (s.lineOf w.work.name w.work.line))
  | .request lineText =>
    (g.update s.address (fun s => { s with fNextId := s.fNextId + 1 })).setPhase i w (.send lineText (s.fNextId + 1))
  | .send _ id => g.setPhase i w (if sent then .wait id else .answer none)
  | .wait id =>
    match s.fReplies.findIdx? (·.id = id) with
    | some k =>
      (g.update s.address (fun s => { s with fReplies := s.fReplies.eraseIdx k })).setPhase i w
        (.answer (s.fReplies[k]?.bind (fun r => if r.error then none else some r.value)))
    | none => if s.fReaderGone || late then g.setPhase i w (.answer none) else g
  | .answer reply => { g with workers := g.workers.eraseIdx i, answers := g.answers ++ [⟨w.work, reply⟩] }

/-! ## Messages -/

/-- `LSP_SESSION`; `found` is whether there is a clangd, `started` whether it could be started. -/
def ServerApp.newSession (g : ServerApp) (found started : Bool) : ServerApp :=
  let token := g.fNextToken + 1
  if !found then g
  else if started then
    { g with
      fSessions := g.fSessions ++ [{ address := g.heap, token := token }]
      fNextToken := token
      heap := g.heap + 1 }
  else { g with fNextToken := token, heap := g.heap + 1 }

/-- `LSP_COMPLETE` and `LSP_DEFINITION`; `spawned` is whether `spawn_thread` gives a thread. -/
def ServerApp.ask (g : ServerApp) (what : Question) (token reqid : Int) (name : Bytes) (line col : Int) (spawned : Bool) :
    ServerApp :=
  match g.sessionByToken token with
  | none => g
  | some s =>
    let w : Work := ⟨s.address, what, reqid, name, line, col⟩
    { g with
      accepted := g.accepted ++ [w]
      workers := if spawned then g.workers ++ [{ work := w }] else g.workers }

def ServerApp.endSession (g : ServerApp) (token : Int) : ServerApp :=
  match g.sessionByToken token with
  | none   => g
  | some s => { g with fSessions := g.fSessions.eraseP (·.address = s.address) }

/-- A message the looper handles, a step of a worker, or what the reader thread of a session does. -/
inductive Event
  | lspSession (found started : Bool)
  | lspOpen (token : Int) (name text : Bytes)
  | lspChange (token : Int) (name text : Bytes)
  | lspClose (token : Int) (name : Bytes)
  | lspAsk (what : Question) (token reqid : Int) (name : Bytes) (line col : Int) (spawned : Bool)
  | lspEnd (token : Int)
  | worker (i : Nat) (sent late : Bool)
  | deliver (address : Nat) (reply : Reply)
  | readerGone (address : Nat)

/-- A worker whose session has been deleted has no step that is defined. -/
def ServerApp.step (g : ServerApp) : Event → Option ServerApp
  | .lspSession found started => some (g.newSession found started)
  | .lspOpen token name text | .lspChange token name text =>
    match g.sessionByToken token with
    | none   => some g
    | some s => some (g.update s.address (·.rememberText name text))
  | .lspClose token name =>
    match g.sessionByToken token with
    | none   => some g
    | some s => some (g.update s.address (·.forgetText name))
  | .lspAsk what token reqid name line col spawned => some (g.ask what token reqid name line col spawned)
  | .lspEnd token => some (g.endSession token)
  | .worker i sent late =>
    match g.workers[i]? with
    | none   => none
    | some w => (g.session w.work.session).map (fun s => g.work i w s sent late)
  | .deliver address reply =>
    (g.session address).map (fun _ => g.update address (fun s => { s with fReplies := s.fReplies ++ [reply] }))
  | .readerGone address =>
    (g.session address).map (fun _ => g.update address (fun s => { s with fReaderGone := true }))

/-! ## What the steps keep -/

def ServerApp.addresses (g : ServerApp) : List Nat := g.fSessions.map (·.address)

/-- No two sessions at one address, and none where the next will be. -/
structure Allocated (g : ServerApp) : Prop where
  nodup : g.addresses.Nodup
  below : ∀ a ∈ g.addresses, a < g.heap

def Safe (g : ServerApp) : Prop := ∀ w ∈ g.workers, w.work.session ∈ g.addresses

def Accounted (g : ServerApp) : Prop :=
  g.accepted.Perm (g.workers.map Worker.work ++ g.answers.map Answer.work)

/-- A worker that goes on when its deadline is over answers its own question. -/
def Answerable (g : ServerApp) : Prop := ∀ i w, g.workers[i]? = some w → ∃ es reply g',
  (∀ e ∈ es, ∃ sent late, e = .worker i sent late) ∧ Runs.run ServerApp.step g es = some g' ∧
    g'.answers = g.answers ++ [⟨w.work, reply⟩] ∧ g'.workers = g.workers.eraseIdx i

/-- **No worker's session has been deleted, and every question is answered exactly once.** -/
def Served (g : ServerApp) : Prop := Safe g ∧ Accounted g ∧ Answerable g

theorem session_isSome {g : ServerApp} {a : Nat} (h : a ∈ g.addresses) : ∃ s, g.session a = some s ∧ s.address = a := by
  obtain ⟨s₀, hs₀, ha₀⟩ := mem_map.1 h
  cases hf : g.session a with
  | none =>
    have := find?_eq_none.1 hf s₀ hs₀
    rw [decide_eq_true_eq] at this
    exact absurd ha₀ this
  | some s =>
    have ha := find?_some hf
    exact ⟨s, rfl, of_decide_eq_true ha⟩

theorem mem_addresses_of_token {g : ServerApp} {token : Int} {s : EditorSession} (h : g.sessionByToken token = some s) :
    s.address ∈ g.addresses := mem_map_of_mem (mem_of_find?_eq_some h)

theorem addresses_update (g : ServerApp) (a : Nat) {f : EditorSession → EditorSession}
    (hf : ∀ s, (f s).address = s.address) : (g.update a f).addresses = g.addresses := by
  unfold ServerApp.addresses ServerApp.update
  rw [map_map]
  refine map_congr_left (fun s _ => ?_)
  show (if s.address = a then f s else s).address = s.address
  split
  · exact hf s
  · rfl

theorem address_rememberText (s : EditorSession) (name text : Bytes) : (s.rememberText name text).address = s.address := by
  unfold EditorSession.rememberText
  split <;> rfl

/-- **What a worker's step does**: it answers and is gone, or it goes on, and the sessions stay. -/
theorem work_cases (g : ServerApp) (i : Nat) (w : Worker) (hi : g.workers[i]? = some w) (s : EditorSession) (sent late : Bool) :
    (∃ reply, w.phase = .answer reply ∧ g.work i w s sent late =
      { g with workers := g.workers.eraseIdx i, answers := g.answers ++ [⟨w.work, reply⟩] }) ∨
    (∃ phase, (g.work i w s sent late).workers = g.workers.set i { w with phase := phase }) ∧
      (g.work i w s sent late).answers = g.answers ∧ (g.work i w s sent late).accepted = g.accepted ∧
      (g.work i w s sent late).heap = g.heap ∧ (g.work i w s sent late).addresses = g.addresses := by
  unfold ServerApp.work
  split
  · exact Or.inr ⟨⟨_, rfl⟩, rfl, rfl, rfl, rfl⟩
  · exact Or.inr ⟨⟨_, rfl⟩, rfl, rfl, rfl, addresses_update g _ (fun _ => rfl)⟩
  · exact Or.inr ⟨⟨_, rfl⟩, rfl, rfl, rfl, rfl⟩
  · split
    · exact Or.inr ⟨⟨_, rfl⟩, rfl, rfl, rfl, addresses_update g _ (fun _ => rfl)⟩
    split
    · exact Or.inr ⟨⟨_, rfl⟩, rfl, rfl, rfl, rfl⟩
    · refine Or.inr ⟨⟨w.phase, ?_⟩, rfl, rfl, rfl, rfl⟩
      obtain ⟨hlt, hw⟩ := List.getElem?_eq_some_iff.1 hi
      rw [← hw, set_getElem_self]
  · exact Or.inl ⟨_, by assumption, rfl⟩

theorem addresses_endSession {g : ServerApp} {token : Int} {s : EditorSession} (h : g.sessionByToken token = some s) :
    (g.endSession token).addresses = g.addresses.erase s.address := by
  unfold ServerApp.endSession ServerApp.addresses
  rw [h]
  dsimp only
  rw [erase_eq_eraseP, eraseP_map]
  congr 2
  funext x
  exact Bool.eq_iff_iff.2 (by rw [Function.comp_apply, decide_eq_true_eq, beq_iff_eq]; exact eq_comm)

theorem Allocated.step {g g' : ServerApp} (h : Allocated g) {e : Event} (hs : g.step e = some g') : Allocated g' := by
  have hsame : ∀ {g' : ServerApp}, g'.addresses = g.addresses → g'.heap = g.heap → Allocated g' :=
    fun ha hh => ⟨ha ▸ h.nodup, fun a hm => hh ▸ h.below a (ha ▸ hm)⟩
  cases e with
  | lspSession found started =>
    rw [← Option.some.inj hs]
    unfold ServerApp.newSession
    dsimp only
    split
    · exact h
    split
    · have ha : ∀ s : EditorSession, (g.fSessions ++ [s]).map (·.address) = g.addresses ++ [s.address] :=
        fun s => map_append
      refine ⟨?_, fun a hm => ?_⟩
      · show ((g.fSessions ++ [_]).map EditorSession.address).Nodup
        rw [ha]
        refine nodup_append.2 ⟨h.nodup, nodup_cons.2 ⟨not_mem_nil, nodup_nil⟩, fun a hm b hb he => ?_⟩
        have := h.below a hm
        rw [he, mem_singleton.1 hb] at this
        exact absurd this (Nat.lt_irrefl _)
      · change a ∈ (g.fSessions ++ [_]).map EditorSession.address at hm
        rw [ha] at hm
        rcases mem_append.1 hm with hm | hm
        · exact Nat.lt_succ_of_lt (h.below a hm)
        · rw [mem_singleton.1 hm]
          exact Nat.lt_succ_self _
    · exact ⟨h.nodup, fun a hm => Nat.lt_succ_of_lt (h.below a hm)⟩
  | lspOpen token name text | lspChange token name text =>
    unfold ServerApp.step at hs
    dsimp only at hs
    split at hs
    · rw [← Option.some.inj hs]
      exact h
    · rw [← Option.some.inj hs]
      exact hsame (addresses_update g _ (fun s => address_rememberText s name text)) rfl
  | lspClose token name =>
    unfold ServerApp.step at hs
    dsimp only at hs
    split at hs
    · rw [← Option.some.inj hs]
      exact h
    · rw [← Option.some.inj hs]
      exact hsame (addresses_update g _ (fun _ => rfl)) rfl
  | lspAsk what token reqid name line col spawned =>
    rw [← Option.some.inj hs]
    unfold ServerApp.ask
    split
    · exact h
    · exact hsame rfl rfl
  | lspEnd token =>
    rw [← Option.some.inj hs]
    cases ht : g.sessionByToken token with
    | none =>
      unfold ServerApp.endSession
      rw [ht]
      exact h
    | some s =>
      have hheap : (g.endSession token).heap = g.heap := by
        unfold ServerApp.endSession
        rw [ht]
      refine ⟨?_, fun a hm => ?_⟩
      · rw [addresses_endSession ht]
        exact h.nodup.erase _
      · rw [addresses_endSession ht] at hm
        rw [hheap]
        exact h.below a (mem_of_mem_erase hm)
  | worker i sent late =>
    unfold ServerApp.step at hs
    dsimp only at hs
    split at hs
    · cases hs
    rename_i w hi
    obtain ⟨s, -, rfl⟩ := Option.map_eq_some_iff.1 hs
    rcases work_cases g i w hi s sent late with ⟨reply, -, hw⟩ | ⟨-, -, -, hheap, ha⟩
    · rw [hw]
      exact hsame rfl rfl
    · exact hsame ha hheap
  | deliver a reply =>
    obtain ⟨s, -, rfl⟩ := Option.map_eq_some_iff.1 hs
    exact hsame (addresses_update g _ (fun _ => rfl)) rfl
  | readerGone a =>
    obtain ⟨s, -, rfl⟩ := Option.map_eq_some_iff.1 hs
    exact hsame (addresses_update g _ (fun _ => rfl)) rfl

/-! ## Answers -/

def Phase.left : Phase → Nat
  | .start     => 4
  | .request _ => 3
  | .send _ _  => 2
  | .wait _    => 1
  | .answer _  => 0

theorem work_late {g : ServerApp} {i : Nat} {w : Worker} (s : EditorSession) (h : w.phase.left ≠ 0) :
    ∃ phase, (g.work i w s true true).workers = g.workers.set i { w with phase := phase } ∧ phase.left < w.phase.left := by
  unfold ServerApp.work
  cases hp : w.phase with
  | start => exact ⟨_, rfl, Nat.lt_succ_self 3⟩
  | request lineText => exact ⟨_, rfl, Nat.lt_succ_self 2⟩
  | send lineText id => exact ⟨_, rfl, Nat.lt_succ_self 1⟩
  | wait id =>
    dsimp only
    split
    · exact ⟨_, rfl, Nat.lt_succ_self 0⟩
    · rw [Bool.or_true, if_pos rfl]
      exact ⟨_, rfl, Nat.lt_succ_self 0⟩
  | answer reply =>
    rw [hp] at h
    exact absurd rfl h

theorem set_work {ws : List Worker} {i : Nat} {w : Worker} (hi : ws[i]? = some w) (phase : Phase) :
    (ws.set i { w with phase := phase }).map Worker.work = ws.map Worker.work := by
  have hwork : (ws.map Worker.work)[i]? = some w.work := by rw [getElem?_map, hi, Option.map_some]
  obtain ⟨hlt, hw⟩ := List.getElem?_eq_some_iff.1 hwork
  rw [map_set]
  exact (congrArg ((ws.map Worker.work).set i) hw.symm).trans (set_getElem_self hlt)

theorem safe_set {g g' : ServerApp} (h : Safe g) {i : Nat} {w : Worker} (hi : g.workers[i]? = some w) {phase : Phase}
    (hw : g'.workers = g.workers.set i { w with phase := phase }) (ha : g'.addresses = g.addresses) : Safe g' := by
  intro x hx
  rw [ha]
  have hm : x.work ∈ g.workers.map Worker.work := by
    rw [← set_work hi phase, ← hw]
    exact mem_map_of_mem hx
  obtain ⟨y, hy, hwork⟩ := mem_map.1 hm
  rw [← hwork]
  exact h y hy

theorem step_worker {g : ServerApp} (h : Safe g) {i : Nat} {w : Worker} (hi : g.workers[i]? = some w) (sent late : Bool) :
    ∃ s, g.step (.worker i sent late) = some (g.work i w s sent late) := by
  obtain ⟨s, hs, -⟩ := session_isSome (h w (mem_of_getElem? hi))
  refine ⟨s, ?_⟩
  unfold ServerApp.step
  dsimp only
  rw [hi]
  dsimp only
  rw [hs]
  rfl

theorem answerable_of_safe : ∀ (k : Nat) {g : ServerApp} {i : Nat} {w : Worker}, Safe g → g.workers[i]? = some w →
    w.phase.left ≤ k → ∃ es reply g', (∀ e ∈ es, ∃ sent late, e = .worker i sent late) ∧
      Runs.run ServerApp.step g es = some g' ∧ g'.answers = g.answers ++ [⟨w.work, reply⟩] ∧
        g'.workers = g.workers.eraseIdx i
  | k, g, i, w, h, hi, hk => by
    obtain ⟨s, hs⟩ := step_worker h hi true true
    have hlt := (List.getElem?_eq_some_iff.1 hi).1
    by_cases h0 : w.phase.left = 0
    · obtain ⟨reply, hp⟩ : ∃ reply, w.phase = .answer reply := by
        cases hp : w.phase with
        | answer reply => exact ⟨reply, rfl⟩
        | _ =>
          rw [hp] at h0
          cases h0
      refine ⟨[.worker i true true], reply, g.work i w s true true, fun e he => ⟨true, true, mem_singleton.1 he⟩, ?_, ?_, ?_⟩
      · rw [Runs.run_cons, hs]
        rfl
      · unfold ServerApp.work
        rw [hp]
      · unfold ServerApp.work
        rw [hp]
    · obtain ⟨phase, hworkers, hless⟩ := work_late (g := g) (i := i) s h0
      rcases work_cases g i w hi s true true with ⟨reply, hp, -⟩ | ⟨-, hanswers, -, -, ha⟩
      · rw [hp] at h0
        exact absurd rfl h0
      match k, hk with
      | 0, hk => exact absurd (Nat.le_zero.1 hk) h0
      | k + 1, hk =>
        obtain ⟨es, reply, g', hes, hrun, hans, hwk⟩ := answerable_of_safe k (safe_set h hi hworkers ha)
          (w := { w with phase := phase }) (by rw [hworkers, getElem?_set_self hlt]) (by show phase.left ≤ k; omega)
        refine ⟨.worker i true true :: es, reply, g', ?_, ?_, ?_, ?_⟩
        · intro e he
          rcases mem_cons.1 he with rfl | he
          · exact ⟨true, true, rfl⟩
          · exact hes e he
        · rw [Runs.run_cons, hs]
          exact hrun
        · rw [hans, hanswers]
        · rw [hwk, hworkers, eraseIdx_set_eq]

/-! ## When they do -/

/-- The event deletes no session that a worker holds, and a question of a live session gets a thread. -/
def Keeps (g : ServerApp) : Event → Prop
  | .lspAsk _ token _ _ _ _ spawned => (g.sessionByToken token).isSome → spawned = true
  | .lspEnd token => ∀ s ∈ g.sessionByToken token, ∀ w ∈ g.workers, w.work.session ≠ s.address
  | _ => True

theorem served_same {g g' : ServerApp} (h : Served g) (hw : g'.workers = g.workers) (hacc : g'.accepted = g.accepted)
    (hans : g'.answers = g.answers) (ha : ∀ a ∈ g.addresses, a ∈ g'.addresses) : Served g' := by
  have hsafe : Safe g' := fun w hm => ha _ (h.1 w (hw ▸ hm))
  refine ⟨hsafe, ?_, fun i w hi => answerable_of_safe w.phase.left hsafe hi (Nat.le_refl _)⟩
  unfold Accounted
  rw [hw, hacc, hans]
  exact h.2.1

theorem served_iff_of_safe {g : ServerApp} (h : Safe g) : Served g ↔ Accounted g :=
  ⟨fun hs => hs.2.1, fun ha => ⟨h, ha, fun _ w hi => answerable_of_safe w.phase.left h hi (Nat.le_refl _)⟩⟩

theorem served_ask_iff {g : ServerApp} (h : Served g) (what : Question) (token reqid : Int) (name : Bytes) (line col : Int)
    (spawned : Bool) : Served (g.ask what token reqid name line col spawned) ↔
      ((g.sessionByToken token).isSome → spawned = true) := by
  unfold ServerApp.ask
  cases ht : g.sessionByToken token with
  | none => exact iff_of_true h (fun hn => nomatch hn)
  | some s =>
    have hacc := h.2.1
    unfold Accounted at hacc
    cases spawned with
    | true =>
      refine iff_of_true ?_ (fun _ => rfl)
      refine (served_iff_of_safe (fun w hw => ?_)).2 ?_
      · rcases mem_append.1 hw with hw | hw
        · exact h.1 w hw
        · rw [mem_singleton.1 hw]
          exact mem_addresses_of_token ht
      · show (g.accepted ++ [_]).Perm ((g.workers ++ [_]).map Worker.work ++ g.answers.map Answer.work)
        rw [map_append, append_assoc]
        refine (hacc.append_right _).trans ?_
        rw [append_assoc]
        exact perm_append_comm.append_left _
    | false =>
      refine iff_of_false (fun hs => ?_) (fun hn => nomatch hn rfl)
      have hlen := (show (g.accepted ++ [_]).Perm (g.workers.map Worker.work ++ g.answers.map Answer.work) from hs.2.1).length_eq
      rw [length_append, length_singleton, hacc.length_eq] at hlen
      omega

theorem served_endSession_iff {g : ServerApp} (hg : Allocated g) (h : Served g) (token : Int) : Served (g.endSession token) ↔
    ∀ s ∈ g.sessionByToken token, ∀ w ∈ g.workers, w.work.session ≠ s.address := by
  cases ht : g.sessionByToken token with
  | none =>
    have hsame : g.endSession token = g := by
      unfold ServerApp.endSession
      rw [ht]
    rw [hsame]
    exact iff_of_true h (fun _ hn => nomatch hn)
  | some s =>
    have haddr := addresses_endSession ht
    have hworkers : (g.endSession token).workers = g.workers := by
      unfold ServerApp.endSession
      rw [ht]
    have hsafe : Safe (g.endSession token) ↔ ∀ w ∈ g.workers, w.work.session ≠ s.address := by
      unfold Safe
      rw [haddr, hworkers]
      refine forall_congr' (fun w => forall_congr' (fun hw => ?_))
      rw [hg.nodup.mem_erase_iff]
      exact and_iff_left (h.1 w hw)
    have hacc : Accounted (g.endSession token) := by
      have := h.2.1
      unfold Accounted ServerApp.endSession at *
      rw [ht]
      exact this
    constructor
    · intro hs x hx
      rw [← Option.some.inj hx]
      exact hsafe.1 hs.1
    · intro hc
      exact (served_iff_of_safe (hsafe.2 (hc s rfl))).2 hacc

theorem served_work {g : ServerApp} (h : Served g) {i : Nat} {w : Worker} (hi : g.workers[i]? = some w) (s : EditorSession)
    (sent late : Bool) : Served (g.work i w s sent late) := by
  have hacc := h.2.1
  unfold Accounted at hacc
  rcases work_cases g i w hi s sent late with ⟨reply, -, hw⟩ | ⟨⟨phase, hw⟩, hans, haccepted, -, ha⟩
  · rw [hw]
    have hsafe : Safe { g with workers := g.workers.eraseIdx i, answers := g.answers ++ [⟨w.work, reply⟩] } :=
      fun x hx => h.1 x (mem_of_mem_eraseIdx (show x ∈ g.workers.eraseIdx i from hx))
    refine (served_iff_of_safe hsafe).2 ?_
    show g.accepted.Perm ((g.workers.eraseIdx i).map Worker.work ++ (g.answers ++ [_]).map Answer.work)
    obtain ⟨hlt, hwi⟩ := List.getElem?_eq_some_iff.1 hi
    have hperm : (g.workers.map Worker.work).Perm (w.work :: (g.workers.eraseIdx i).map Worker.work) := by
      have := (getElem_cons_eraseIdx_perm hlt).symm.map Worker.work
      rwa [hwi, map_cons] at this
    rw [map_append, ← append_assoc]
    exact (hacc.trans (hperm.append_right _)).trans (@perm_append_comm _ [w.work] _)
  · refine (served_iff_of_safe (safe_set h.1 hi hw ha)).2 ?_
    unfold Accounted
    rw [haccepted, hw, set_work hi, hans]
    exact hacc

/-- **An event leaves every session that is held alive, and every question accounted for, if and only if** it `Keeps`. -/
theorem served_step_iff {g : ServerApp} (hg : Allocated g) (h : Served g) (e : Event) :
    (∀ g' ∈ g.step e, Served g') ↔ Keeps g e := by
  have hsome : ∀ g', (∀ g'' ∈ some g', Served g'') ↔ Served g' := fun g' =>
    ⟨fun hs => hs g' rfl, fun hs g'' he => by rw [← Option.some.inj he]; exact hs⟩
  have hupdate : ∀ (a : Nat) {f : EditorSession → EditorSession}, (∀ s, (f s).address = s.address) → Served (g.update a f) :=
    fun a f hf => served_same h rfl rfl rfl (fun x hx => by rwa [addresses_update g a hf])
  cases e with
  | lspSession found started =>
    refine (hsome _).trans (iff_of_true ?_ trivial)
    unfold ServerApp.newSession
    dsimp only
    split
    · exact h
    split
    · refine served_same h rfl rfl rfl (fun a hm => ?_)
      obtain ⟨s, hs, ha⟩ := mem_map.1 hm
      exact mem_map.2 ⟨s, mem_append_left _ hs, ha⟩
    · exact served_same h rfl rfl rfl (fun a hm => hm)
  | lspOpen token name text | lspChange token name text =>
    refine iff_of_true (fun g' hs => ?_) trivial
    unfold ServerApp.step at hs
    dsimp only at hs
    split at hs
    · rw [← Option.some.inj hs]
      exact h
    · rw [← Option.some.inj hs]
      exact hupdate _ (fun s => address_rememberText s name text)
  | lspClose token name =>
    refine iff_of_true (fun g' hs => ?_) trivial
    unfold ServerApp.step at hs
    dsimp only at hs
    split at hs
    · rw [← Option.some.inj hs]
      exact h
    · rw [← Option.some.inj hs]
      exact hupdate _ (fun _ => rfl)
  | lspAsk what token reqid name line col spawned => exact (hsome _).trans (served_ask_iff h what token reqid name line col spawned)
  | lspEnd token => exact (hsome _).trans (served_endSession_iff hg h token)
  | worker i sent late =>
    refine iff_of_true (fun g' hs => ?_) trivial
    unfold ServerApp.step at hs
    dsimp only at hs
    split at hs
    · cases hs
    · rename_i w hi
      obtain ⟨s, -, rfl⟩ := Option.map_eq_some_iff.1 hs
      exact served_work h hi s sent late
  | deliver a reply =>
    refine iff_of_true (fun g' hs => ?_) trivial
    obtain ⟨s, -, rfl⟩ := Option.map_eq_some_iff.1 hs
    exact hupdate a (fun _ => rfl)
  | readerGone a =>
    refine iff_of_true (fun g' hs => ?_) trivial
    obtain ⟨s, -, rfl⟩ := Option.map_eq_some_iff.1 hs
    exact hupdate a (fun _ => rfl)

theorem served_start : Served {} :=
  ⟨fun _ hw => (nomatch hw), List.Perm.refl _, fun _ _ hi => (nomatch hi)⟩

/-- **In every run, no worker is left with a deleted session and every question is answered exactly once, if and only if**
every event of the run `Keeps`. -/
theorem run_served_iff (es : List Event) :
    (∀ pre post g, es = pre ++ post → Runs.run ServerApp.step {} pre = some g → Served g) ↔
      Runs.Along ServerApp.step Keeps {} es := by
  refine Runs.along_states.trans ((and_iff_right served_start).trans ?_)
  refine Runs.along_congr (I := fun g => Allocated g ∧ Served g) (fun g e g' hi hk hs => ?_)
    (fun g e hi => served_step_iff hi.1 hi.2 e) ⟨⟨nodup_nil, fun _ hm => (nomatch hm)⟩, served_start⟩
  exact ⟨hi.1.step hs, (served_step_iff hi.1 hi.2 e).2 hk g' hs⟩

def hastyEnd : List Event := [.lspSession true true, .lspAsk .complete 1 7 [] 0 0 true, .lspEnd 1]

/-- The worker is left with the deleted session. -/
theorem hastyEnd_unsafe : ¬ ∀ es pre post g, es = pre ++ post → Runs.run ServerApp.step {} pre = some g → Served g := by
  intro h
  have hrun : Runs.run ServerApp.step {} hastyEnd = some
      { fSessions := [], fNextToken := 1, heap := 1, workers := [{ work := ⟨0, .complete, 7, [], 0, 0⟩ }],
        accepted := [⟨0, .complete, 7, [], 0, 0⟩] } := rfl
  have hsafe := (h hastyEnd hastyEnd [] _ (append_nil _).symm hrun).1
  exact nomatch hsafe _ (mem_singleton_self _)

end Clangd
end Prose
