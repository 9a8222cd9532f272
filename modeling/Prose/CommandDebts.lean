import Prose.CommandModel
/-!
# CommandDebts — what a call has of the command page

Who has the lock knows, step by step, what is in flight: nothing, a command left behind, or its own; and once its own is off the
used ring, that the answer on the page is to it.
-/
namespace Prose
namespace Command

open Tasks

inductive Place
  /-- nothing yet, or no more -/
  | nowhere
  /-- one command, which it waits for; has a count of the semaphore for; has looked for, and not found -/
  | outstanding
  | taken
  | polling
  /-- none, but this is not marked yet -/
  | got
  | clear
  | written
  /-- its own, but this is not marked yet -/
  | queued

structure Debt where
  lock : Bool := false
  place : Place := .nowhere
  /-- its own command, on the page -/
  own : Option (UInt64 × Request) := none
  /-- it has been in flight -/
  sent : Bool := false
  /-- the answer it has copied -/
  copied : Option (Request × Reply) := none

def after : (a : Act) → Answer a → Debt → Debt
  | .lock, _, g => { g with lock := true }
  | .unlock, _, g => { g with lock := false, place := .nowhere, own := none }
  | .outstanding, b, g => { g with place := if b then .outstanding else .clear }
  | .acquire _ _, ok, g => if ok then { g with place := .taken } else { g with place := .nowhere, own := none }
  | .dequeue, ok, g => { g with place := if ok then .got else .polling }
  | .collected, _, g => { g with place := .clear }
  | .giveUp _ _, _, g => { g with place := .nowhere, own := none }
  | .writePage seq request, _, g => { g with place := .written, own := some (seq, request) }
  | .queue, ok, g => if ok then { g with place := .queued, sent := true } else { g with place := .clear, own := none }
  | .setOutstanding, _, g => { g with place := .outstanding }
  | .copyOut, answer, g => { g with copied := g.own.map fun x => (x.2, answer) }
  | _, _, g => g

def ready : Act → Debt → Prop
  | .lock, g => g.lock = false ∧ g.place = .nowhere
  | .unlock, g => g.lock = true ∧ (g.place = .nowhere ∨ g.place = .clear)
  | .outstanding, g => g.lock = true ∧ g.place = .nowhere ∧ g.own = none
  | .acquire own _, g => g.lock = true ∧ g.place = .outstanding ∧ own = g.own.isSome
  | .dequeue, g => g.lock = true ∧ (g.place = .taken ∨ g.place = .polling)
  | .collected, g => g.lock = true ∧ g.place = .got
  | .giveUp own _, g => g.lock = true ∧ g.place = .polling ∧ own = g.own.isSome
  | .writePage _ _, g => g.lock = true ∧ g.place = .clear ∧ g.own = none
  | .queue, g => g.lock = true ∧ g.place = .written ∧ g.sent = false ∧ g.own.isSome = true
  | .setOutstanding, g => g.lock = true ∧ g.place = .queued
  | .copyOut, g => g.lock = true ∧ g.place = .clear
  | .finish request outcome, g => ∀ answer, outcome = .ok answer → g.copied = some (request, answer)
  | _, _ => True

abbrev Owing (p : Hook Unit) (g : Debt) : Prop := Honest ready after (fun _ _ => True) (fun g => g.lock = false) p g

abbrev From {α : Type} (p : Hook α) (g : Debt) (Q : α → Debt → Prop) : Prop := Settles ready after (fun _ _ => True) p g Q

theorem fail_owing {g : Debt} (hl : g.lock = true) (hp : g.place = .nowhere ∨ g.place = .clear) (request : Request)
    {outcome : Outcome} (hn : ∀ answer, outcome ≠ .ok answer) : Owing (do
      ask .unlock
      ask (.finish request outcome)) g :=
  settles_bind.2 (settles_one.2 ⟨⟨hl, hp⟩, fun _ _ => settles_one.2 ⟨fun answer he => absurd he (hn answer), fun _ _ => rfl⟩⟩)

/-- **The loop of `collect`**: it has the command, or gives up. -/
theorem attempts_settles {own : Bool} (since : Nat) {Q : Collected → Debt → Prop} : ∀ (n : Nat) {g : Debt}, g.lock = true →
    own = g.own.isSome → (g.place = .polling ∨ g.place = .taken ∧ n ≠ 0) → Q .ok { g with place := .clear } →
    (∀ c, Q c { g with place := .nowhere, own := none } ∨ c ≠ .error) → From (attempts own since n) g Q
  | 0, g, hl, ho, hp, _, herr => by
    have hpolling : g.place = .polling := hp.resolve_right fun h => h.2 rfl
    refine settles_bind.2 (settles_one.2 ⟨⟨hl, hpolling, ho⟩, fun _ _ => ?_⟩)
    exact (herr .error).resolve_right (not_not_intro rfl)
  | n + 1, g, hl, ho, hp, hok, herr => by
    have hplace : g.place = .taken ∨ g.place = .polling := hp.symm.imp_left And.left
    refine settles_bind.2 (settles_one.2 ⟨⟨hl, hplace⟩, fun found _ => ?_⟩)
    cases found
    · refine settles_bind.2 (settles_one.2 ⟨trivial, fun now _ => settles_bind.2 (settles_one.2 ⟨trivial, fun _ _ => ?_⟩)⟩)
      exact attempts_settles since n hl ho (.inl rfl) hok herr
    · exact settles_bind.2 (settles_one.2 ⟨⟨hl, rfl⟩, fun _ _ => hok⟩)

/-- **`collect`**: the command is off the used ring, or its caller knows no more of it. -/
theorem collect_settles {own : Bool} {g : Debt} {Q : Collected → Debt → Prop} (hl : g.lock = true)
    (hp : g.place = .outstanding) (ho : own = g.own.isSome) (hok : Q .ok { g with place := .clear })
    (hno : ∀ c, c ≠ .ok → Q c { g with place := .nowhere, own := none }) : From (collect own) g Q := by
  refine settles_bind.2 (settles_one.2 ⟨trivial, fun since _ => settles_bind.2 (settles_one.2 ⟨⟨hl, hp, ho⟩, fun got _ => ?_⟩)⟩)
  cases got
  · exact hno .timedOut nofun
  · refine attempts_settles since dequeueAttempts hl ho (.inr ⟨rfl, by decide⟩) hok fun c => ?_
    by_cases hc : c = .error
    · exact .inl (hno c (by rw [hc]; nofun))
    · exact .inr hc

theorem answered_owing {g : Debt} {seq : UInt64} {request : Request} (hl : g.lock = true) (hp : g.place = .clear)
    (ho : g.own = some (seq, request)) : Owing (answered seq request) g := by
  refine settles_bind.2 (settles_one.2 ⟨trivial, fun answerSeq _ => ?_⟩)
  show From (if answerSeq ≠ seq then _ else _) g _
  split
  · exact fail_owing hl (.inr hp) request nofun
  refine settles_bind.2 (settles_one.2 ⟨⟨hl, hp⟩, fun answer _ => ?_⟩)
  refine settles_bind.2 (settles_one.2 ⟨⟨hl, .inr hp⟩, fun _ _ => settles_one.2 ⟨fun a ha => ?_, fun _ _ => rfl⟩⟩)
  split at ha
  · obtain rfl := Outcome.ok.inj ha
    show g.own.map _ = _
    rw [ho]
    rfl
  · exact nomatch ha

theorem send_owing {g : Debt} (hl : g.lock = true) (hp : g.place = .clear) (ho : g.own = none) (hs : g.sent = false)
    (request : Request) : Owing (send request) g := by
  refine settles_bind.2 (settles_one.2 ⟨trivial, fun seq _ => ?_⟩)
  refine settles_bind.2 (settles_one.2 ⟨⟨hl, hp, ho⟩, fun _ _ => ?_⟩)
  refine settles_bind.2 (settles_one.2 ⟨⟨hl, rfl, hs, rfl⟩, fun queued _ => ?_⟩)
  cases queued
  · exact fail_owing (by exact hl) (.inr rfl) request nofun
  · refine settles_bind.2 (settles_one.2 ⟨⟨hl, rfl⟩, fun _ _ => settles_bind.2 ?_⟩)
    refine collect_settles hl rfl rfl (answered_owing hl rfl rfl) fun c hc => ?_
    cases c with
    | ok => exact absurd rfl hc
    | timedOut => exact fail_owing (by exact hl) (.inl rfl) request nofun
    | error => exact fail_owing (by exact hl) (.inl rfl) request nofun

/-- **A call ends without the lock**, and returns an answer only as it has copied it. -/
theorem command_owing (d : Driver) (request : Request) : Owing (command d request) {} := by
  unfold command
  split
  · exact settles_one.2 ⟨nofun, fun _ _ => rfl⟩
  refine settles_bind.2 (settles_one.2 ⟨⟨rfl, rfl⟩, fun _ _ => ?_⟩)
  refine settles_bind.2 (settles_one.2 ⟨⟨rfl, rfl, rfl⟩, fun outstanding _ => settles_bind.2 ?_⟩)
  cases outstanding
  · exact send_owing rfl rfl rfl rfl request
  · refine collect_settles rfl rfl rfl (send_owing rfl rfl rfl rfl request) fun c hc => ?_
    cases c with
    | ok => exact absurd rfl hc
    | timedOut => exact fail_owing rfl (.inl rfl) request nofun
    | error => exact fail_owing rfl (.inl rfl) request nofun

end Command
end Prose
