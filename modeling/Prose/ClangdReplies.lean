import Prose.ClangdServer
/-!
# ClangdReplies — the requests of a session and their replies

`Request` and `Deliver` of `LspSession`.  Each request is on a thread of its own, which takes a number, sends, and looks
for its reply in a list that the reader thread appends to.  A request that gives up does not come back to the list.
-/
namespace Prose
namespace Clangd

open List

/-! ## `Deliver` -/

def JVal.has (j : JVal) (key : Bytes) : Bool := decide (key ∈ j.fKeys)

def JVal.get (j : JVal) (key : Bytes) : JVal := ((j.fKeys.findIdx? (· = key)).bind (j.fArray[·]?)).getD {}

/-- `"id"`, `"result"` and `"error"` -/
def idKey : Bytes := [105, 100]
def resultKey : Bytes := [114, 101, 115, 117, 108, 116]
def errorKey : Bytes := [101, 114, 114, 111, 114]

def replyOf (msg : JVal) : Option Reply :=
  if msg.has idKey ∧ (msg.has resultKey ∨ msg.has errorKey) then
    some ⟨toInt64 (msg.get idKey).fNumber, msg.has errorKey, if msg.has errorKey then msg.get errorKey else msg.get resultKey⟩
  else none

/-! ## Requests -/

/-- What a thread in `Request` does next: it sends, it looks through the replies, or it looks at the clock. -/
inductive Stage
  | send
  | scan
  | clock

structure Pending where
  id : Int
  stage : Stage := .send

/-- What `Request` returns: `B_OK` or the server's `B_ERROR` with a reply, or no answer. -/
inductive Returned
  | ok (reply : JVal)
  | error (reply : JVal)
  | unsent
  | gone
  | timedOut

def Reply.returned (r : Reply) : Returned := if r.error then .error r.value else .ok r.value

structure Exchange where
  fNextId : Int := 0
  fReplies : List Reply := []
  fReaderGone : Bool := false
  /-- The requests that have not returned. -/
  outstanding : List Pending := []
  /-- Those that have, and what. -/
  results : List (Int × Returned) := []
  /-- Every reply that came. -/
  delivered : List Reply := []

def Exchange.goOn (x : Exchange) (i : Nat) (p : Pending) (stage : Stage) : Exchange :=
  { x with outstanding := x.outstanding.set i { p with stage } }

def Exchange.giveBack (x : Exchange) (i : Nat) (p : Pending) (result : Returned) : Exchange :=
  { x with outstanding := x.outstanding.eraseIdx i, results := x.results ++ [(p.id, result)] }

/-- A thread's next step; `sent` is whether the pipe took the message, `late` whether the deadline is over. -/
def Exchange.request (x : Exchange) (i : Nat) (p : Pending) (sent late : Bool) : Exchange :=
  match p.stage with
  | .send => if sent then x.goOn i p .scan else x.giveBack i p .unsent
  | .scan =>
    match x.fReplies.findIdx? (·.id = p.id), x.fReplies.find? (·.id = p.id) with
    | some k, some r => { x with fReplies := x.fReplies.eraseIdx k }.giveBack i p r.returned
    | _, _ => if x.fReaderGone then x.giveBack i p .gone else x.goOn i p .clock
  | .clock => if late then x.giveBack i p .timedOut else x.goOn i p .scan

def Exchange.deliver (x : Exchange) (msg : JVal) : Exchange :=
  match replyOf msg with
  | none   => x
  | some r => { x with fReplies := x.fReplies ++ [r], delivered := x.delivered ++ [r] }

inductive Move
  | begin
  | request (i : Nat) (sent late : Bool)
  | deliver (msg : JVal)
  | readerGone

def Exchange.step (x : Exchange) : Move → Option Exchange
  | .begin => some { x with fNextId := x.fNextId + 1, outstanding := x.outstanding ++ [{ id := x.fNextId + 1 }] }
  | .request i sent late => x.outstanding[i]?.map (fun p => x.request i p sent late)
  | .deliver msg => some (x.deliver msg)
  | .readerGone => some { x with fReaderGone := true }

/-! ## What a thread's step does -/

theorem findIdx?_find? {α : Type} {p : α → Bool} : ∀ {l : List α} {k : Nat}, l.findIdx? p = some k →
    ∃ a, l.find? p = some a ∧ l[k]? = some a ∧ p a = true
  | [], _, h => nomatch h
  | a :: l, k, h => by
    rw [findIdx?_cons] at h
    rw [find?_cons]
    cases ha : p a with
    | true =>
      rw [ha] at h
      cases h
      exact ⟨a, rfl, rfl, ha⟩
    | false =>
      rw [ha] at h
      obtain ⟨j, hj, rfl⟩ := Option.map_eq_some_iff.1 h
      obtain ⟨b, hb, hget, hp⟩ := findIdx?_find? hj
      exact ⟨b, hb, hget, hp⟩

/-- **What a thread's step does**: it goes on, takes a stored reply of its number, or returns without one. -/
theorem request_cases (x : Exchange) (i : Nat) (p : Pending) (sent late : Bool) :
    (∃ stage, x.request i p sent late = x.goOn i p stage) ∨
    (∃ (k : Nat) (r : Reply), x.fReplies[k]? = some r ∧ r.id = p.id ∧
      x.request i p sent late = { x with fReplies := x.fReplies.eraseIdx k }.giveBack i p r.returned) ∨
    ((p.stage = .send ∧ sent = false ∧ x.request i p sent late = x.giveBack i p .unsent) ∨
      (p.stage = .scan ∧ (∀ r ∈ x.fReplies, r.id ≠ p.id) ∧ x.request i p sent late = x.giveBack i p .gone) ∨
      (p.stage = .clock ∧ late = true ∧ x.request i p sent late = x.giveBack i p .timedOut)) := by
  unfold Exchange.request
  cases hstage : p.stage with
  | send =>
    cases sent with
    | true => exact Or.inl ⟨.scan, rfl⟩
    | false => exact Or.inr (Or.inr (Or.inl ⟨rfl, rfl, rfl⟩))
  | scan =>
    dsimp only
    cases hk : x.fReplies.findIdx? (·.id = p.id) with
    | some k =>
      obtain ⟨r, hr, hget, hid⟩ := findIdx?_find? hk
      rw [hr]
      exact Or.inr (Or.inl ⟨k, r, hget, of_decide_eq_true hid, rfl⟩)
    | none =>
      dsimp only
      split
      · refine Or.inr (Or.inr (Or.inr (Or.inl ⟨rfl, fun r hr => ?_, rfl⟩)))
        exact of_decide_eq_false (findIdx?_eq_none_iff.1 hk r hr)
      · exact Or.inl ⟨.clock, rfl⟩
  | clock =>
    cases late with
    | true => exact Or.inr (Or.inr (Or.inr (Or.inr ⟨rfl, rfl, rfl⟩)))
    | false => exact Or.inl ⟨.scan, rfl⟩

/-! ## Every request gets its own reply -/

/-- What is stored was delivered, and what was returned with a reply was delivered with the request's number. -/
structure Matched (x : Exchange) : Prop where
  stored : ∀ r ∈ x.fReplies, r ∈ x.delivered
  ok : ∀ id reply, (id, Returned.ok reply) ∈ x.results → ⟨id, false, reply⟩ ∈ x.delivered
  error : ∀ id reply, (id, Returned.error reply) ∈ x.results → ⟨id, true, reply⟩ ∈ x.delivered

theorem Matched.giveBack {x : Exchange} (h : Matched x) (i : Nat) (p : Pending) {result : Returned}
    (hok : ∀ reply, result = .ok reply → ⟨p.id, false, reply⟩ ∈ x.delivered)
    (herror : ∀ reply, result = .error reply → ⟨p.id, true, reply⟩ ∈ x.delivered) : Matched (x.giveBack i p result) := by
  refine ⟨h.stored, fun id reply hmem => ?_, fun id reply hmem => ?_⟩
  · rcases mem_append.1 hmem with hmem | hmem
    · exact h.ok id reply hmem
    · obtain ⟨rfl, hr⟩ := Prod.mk.inj (mem_singleton.1 hmem)
      exact hok reply hr.symm
  · rcases mem_append.1 hmem with hmem | hmem
    · exact h.error id reply hmem
    · obtain ⟨rfl, hr⟩ := Prod.mk.inj (mem_singleton.1 hmem)
      exact herror reply hr.symm

theorem Matched.step {x x' : Exchange} (h : Matched x) {m : Move} (hs : x.step m = some x') : Matched x' := by
  cases m with
  | begin | readerGone =>
    rw [← Option.some.inj hs]
    exact ⟨h.stored, h.ok, h.error⟩
  | deliver msg =>
    rw [← Option.some.inj hs]
    unfold Exchange.deliver
    split
    · exact h
    rename_i r hr
    refine ⟨fun s hs => ?_, fun id reply hm => mem_append_left _ (h.ok id reply hm),
      fun id reply hm => mem_append_left _ (h.error id reply hm)⟩
    rcases mem_append.1 hs with hs | hs
    · exact mem_append_left _ (h.stored s hs)
    · exact mem_append_right _ hs
  | request i sent late =>
    obtain ⟨p, -, rfl⟩ := Option.map_eq_some_iff.1 hs
    rcases request_cases x i p sent late with ⟨stage, heq⟩ | ⟨k, r, hk, hid, heq⟩ | hnone
    · rw [heq]
      exact ⟨h.stored, h.ok, h.error⟩
    · rw [heq]
      have hr := h.stored r (mem_of_getElem? hk)
      have herased : Matched { x with fReplies := x.fReplies.eraseIdx k } :=
        ⟨fun s hs => h.stored s (mem_of_mem_eraseIdx hs), h.ok, h.error⟩
      refine herased.giveBack i p (fun reply hreply => ?_) (fun reply hreply => ?_)
      · obtain ⟨id, error, value⟩ := r
        unfold Reply.returned at hreply
        cases error with
        | true => cases hreply
        | false =>
          cases hreply
          rw [← hid]
          exact hr
      · obtain ⟨id, error, value⟩ := r
        unfold Reply.returned at hreply
        cases error with
        | true =>
          cases hreply
          rw [← hid]
          exact hr
        | false => cases hreply
    · rcases hnone with ⟨-, -, heq⟩ | ⟨-, -, heq⟩ | ⟨-, -, heq⟩
      all_goals
        rw [heq]
        exact h.giveBack i p (fun _ hr => nomatch hr) (fun _ hr => nomatch hr)

/-! ## No reply is left -/

/-- Every stored reply is for a request that has not returned, each for another. -/
structure Awaited (x : Exchange) : Prop where
  apart : x.fReplies.Pairwise (fun r s => r.id ≠ s.id)
  waiting : ∀ r ∈ x.fReplies, ∃ p ∈ x.outstanding, p.id = r.id

/-- A reply comes while its request is outstanding and has none yet, and no request gives up while its reply is stored. -/
def Timely (x : Exchange) : Move → Prop
  | .deliver msg => ∀ r ∈ replyOf msg, (∃ p ∈ x.outstanding, p.id = r.id) ∧ ∀ s ∈ x.fReplies, s.id ≠ r.id
  | .request i sent late => ∀ p ∈ x.outstanding[i]?, (p.stage = .send ∧ sent = false ∨ p.stage = .clock ∧ late = true) →
      ∀ r ∈ x.fReplies, r.id ≠ p.id
  | _ => True

theorem mem_eraseIdx_of_id {ps : List Pending} {i : Nat} {p q : Pending} (hi : ps[i]? = some p) (hq : q ∈ ps) (hid : q.id ≠ p.id) :
    q ∈ ps.eraseIdx i := by
  refine mem_eraseIdx_iff_getElem?.2 ?_
  obtain ⟨j, hj⟩ := mem_iff_getElem?.1 hq
  refine ⟨j, fun hij => hid ?_, hj⟩
  rw [hij, hi] at hj
  rw [Option.some.inj hj]

theorem Awaited.giveBack {x : Exchange} (h : Awaited x) {i : Nat} {p : Pending} (hi : x.outstanding[i]? = some p)
    (hnone : ∀ r ∈ x.fReplies, r.id ≠ p.id) (result : Returned) : Awaited (x.giveBack i p result) := by
  refine ⟨h.apart, fun r hr => ?_⟩
  obtain ⟨q, hq, hid⟩ := h.waiting r hr
  exact ⟨q, mem_eraseIdx_of_id hi hq (hid ▸ hnone r hr), hid⟩

theorem Awaited.goOn {x : Exchange} (h : Awaited x) {i : Nat} {p : Pending} (hi : x.outstanding[i]? = some p) (stage : Stage) :
    Awaited (x.goOn i p stage) := by
  refine ⟨h.apart, fun r hr => ?_⟩
  obtain ⟨q, hq, hid⟩ := h.waiting r hr
  obtain ⟨hlt, -⟩ := List.getElem?_eq_some_iff.1 hi
  by_cases hqp : q.id = p.id
  · exact ⟨{ p with stage }, mem_set hlt _, hqp.symm.trans hid⟩
  obtain ⟨j, hj⟩ := mem_iff_getElem?.1 hq
  have hij : i ≠ j := by
    rintro rfl
    rw [hi] at hj
    exact hqp (congrArg Pending.id (Option.some.inj hj)).symm
  exact ⟨q, mem_iff_getElem?.2 ⟨j, (getElem?_set_ne hij).trans hj⟩, hid⟩

theorem Awaited.take {x : Exchange} (h : Awaited x) {k : Nat} {r : Reply} (hk : x.fReplies[k]? = some r) :
    Awaited { x with fReplies := x.fReplies.eraseIdx k } ∧ ∀ s ∈ x.fReplies.eraseIdx k, s.id ≠ r.id := by
  refine ⟨⟨h.apart.sublist (eraseIdx_sublist ..), fun s hs => h.waiting s (mem_of_mem_eraseIdx hs)⟩, fun s hs => ?_⟩
  obtain ⟨hlt, hget⟩ := List.getElem?_eq_some_iff.1 hk
  have hcut : x.fReplies = x.fReplies.take k ++ r :: x.fReplies.drop (k + 1) := by
    rw [← hget, ← drop_eq_getElem_cons hlt, take_append_drop]
  have hapart := h.apart
  rw [hcut, pairwise_append, pairwise_cons] at hapart
  rw [eraseIdx_eq_take_drop_succ] at hs
  rcases mem_append.1 hs with hs | hs
  · exact hapart.2.2 s hs r mem_cons_self
  · exact (hapart.2.1.1 s hs).symm

theorem Awaited.step {x x' : Exchange} (h : Awaited x) {m : Move} (ht : Timely x m) (hs : x.step m = some x') : Awaited x' := by
  cases m with
  | begin =>
    rw [← Option.some.inj hs]
    refine ⟨h.apart, fun r hr => ?_⟩
    obtain ⟨p, hp, hid⟩ := h.waiting r hr
    exact ⟨p, mem_append_left _ hp, hid⟩
  | readerGone =>
    rw [← Option.some.inj hs]
    exact ⟨h.apart, h.waiting⟩
  | deliver msg =>
    rw [← Option.some.inj hs]
    unfold Exchange.deliver
    split
    · exact h
    rename_i r hr
    obtain ⟨hwait, hnew⟩ := ht r hr
    refine ⟨?_, fun s hs => ?_⟩
    · refine pairwise_append.2 ⟨h.apart, pairwise_singleton _ _, fun s hs t ht => ?_⟩
      rw [mem_singleton.1 ht]
      exact hnew s hs
    · rcases mem_append.1 hs with hs | hs
      · exact h.waiting s hs
      · rw [mem_singleton.1 hs]
        exact hwait
  | request i sent late =>
    obtain ⟨p, hp, rfl⟩ := Option.map_eq_some_iff.1 hs
    rcases request_cases x i p sent late with ⟨stage, heq⟩ | ⟨k, r, hk, hid, heq⟩ | hnone
    · rw [heq]
      exact h.goOn hp stage
    · rw [heq]
      obtain ⟨htaken, hothers⟩ := h.take hk
      exact htaken.giveBack hp (fun s hs => hid ▸ hothers s hs) _
    · rcases hnone with ⟨hsend, hsent, heq⟩ | ⟨-, hnone, heq⟩ | ⟨hclock, hlate, heq⟩
      · rw [heq]
        exact h.giveBack hp (ht p hp (Or.inl ⟨hsend, hsent⟩)) _
      · rw [heq]
        exact h.giveBack hp hnone _
      · rw [heq]
        exact h.giveBack hp (ht p hp (Or.inr ⟨hclock, hlate⟩)) _

/-- **Every request that returns a reply returns one of its own number**; and in a run in which no reply is late or double, no
reply is left once no request is outstanding. -/
theorem own_replies (moves pre post : List Move) (x : Exchange) (hmoves : moves = pre ++ post)
    (hrun : Runs.run Exchange.step {} pre = some x) :
    Matched x ∧ (Runs.Along Exchange.step Timely {} moves → x.outstanding = [] → x.fReplies = []) := by
  have hmatched : Matched x := by
    refine Runs.run_inv (Q := fun _ _ => True) (fun y m y' hy _ hs => hy.step hs) ?_ ?_ hrun
    · exact ⟨fun _ h => (nomatch h), fun _ _ h => (nomatch h), fun _ _ h => (nomatch h)⟩
    · exact Runs.along_iff.2 fun _ _ _ _ _ _ => trivial
  refine ⟨hmatched, fun htimely hidle => ?_⟩
  have hawaited : Awaited x := by
    refine Runs.run_inv (fun y m y' hy ht hs => hy.step ht hs) ⟨.nil, fun _ h => absurd h not_mem_nil⟩ ?_ hrun
    refine Runs.along_iff.2 fun pre' m post' y he hr => Runs.along_iff.1 htimely pre' m (post' ++ post) y ?_ hr
    rw [hmoves, he, append_assoc, cons_append]
  refine eq_nil_iff_forall_not_mem.2 fun r hr => ?_
  obtain ⟨p, hp, -⟩ := hawaited.waiting r hr
  rw [hidle] at hp
  cases hp

def firstReply : JVal := (({} : JVal).set idKey (.ofNumber (.finite 1))).set resultKey (.ofBool true)

theorem replyOf_firstReply : replyOf firstReply = some ⟨1, false, .ofBool true⟩ := by
  have hid : toInt64 (.finite 1) = 1 := by decide
  unfold replyOf
  rw [if_pos (by decide)]
  exact congrArg (fun id => some (Reply.mk id false (.ofBool true))) hid

def answered : List Move := [.begin, .request 0 true false, .deliver firstReply, .request 0 true false]

theorem timely_answered : Runs.Along Exchange.step Timely {} answered := by
  refine ⟨trivial, fun x hx => ?_⟩
  cases hx
  refine ⟨fun p _ _ r hr => absurd hr not_mem_nil, fun x hx => ?_⟩
  cases hx
  refine ⟨fun r hr => ?_, fun x hx => ?_⟩
  · rw [replyOf_firstReply] at hr
    cases hr
    exact ⟨⟨⟨1, .scan⟩, mem_singleton_self _, rfl⟩, fun s hs => absurd hs not_mem_nil⟩
  · cases hx
    refine ⟨fun p hp hgive => ?_, fun _ _ => trivial⟩
    cases hp
    rcases hgive with ⟨hstage, -⟩ | ⟨hstage, -⟩
    · cases hstage
    · cases hstage

theorem run_answered : ∃ x, Runs.run Exchange.step {} answered = some x ∧ x.outstanding = [] ∧
    x.results = [(1, .ok (.ofBool true))] := by
  have hdeliver : Exchange.deliver { fNextId := 1, outstanding := [⟨1, .scan⟩] } firstReply =
      { fNextId := 1, outstanding := [⟨1, .scan⟩], fReplies := [⟨1, false, .ofBool true⟩],
        delivered := [⟨1, false, .ofBool true⟩] } := by
    unfold Exchange.deliver
    rw [replyOf_firstReply]
    rfl
  refine ⟨{ fNextId := 1, results := [(1, .ok (.ofBool true))], delivered := [⟨1, false, .ofBool true⟩] }, ?_, rfl, rfl⟩
  show (some (Exchange.deliver { fNextId := 1, outstanding := [⟨1, .scan⟩] } firstReply)).bind
    (fun x => Runs.run Exchange.step x [.request 0 true false]) = _
  rw [hdeliver]
  rfl

theorem own_replies_answered : ∃ x, Runs.run Exchange.step {} answered = some x ∧ Matched x ∧ x.fReplies = [] := by
  obtain ⟨x, hrun, hidle, -⟩ := run_answered
  obtain ⟨hmatched, hdrained⟩ := own_replies answered answered [] x (append_nil _).symm hrun
  exact ⟨x, hrun, hmatched, hdrained timely_answered hidle⟩

def lateReply : List Move :=
  [.begin, .request 0 true false, .request 0 true false, .request 0 true true, .deliver firstReply]

/-- The reply stays. -/
theorem lateReply_left : ¬ ∀ moves x, Runs.run Exchange.step {} moves = some x → x.outstanding = [] → x.fReplies = [] := by
  intro h
  have hreplies := h lateReply _ rfl rfl
  exact nomatch hreplies

end Clangd
end Prose
