import Prose.Runs
import Mathlib.Data.List.Basic
/-!
# CommitHook — the commit hook of the accelerant

`prose_display_commit_rectangles`, which several threads call at once, beside the REDRAW events of the driver.  A call reads the
counter of the events, compares it with the one that was answered last, writes that, and waits for the host; others take their
steps between.
-/
namespace Prose
namespace Accelerant

open List

def maxCommitRects : Nat := 64

/-- `fill_rect_params`. -/
structure FillRect where
  left : UInt16
  top : UInt16
  right : UInt16
  bottom : UInt16
  deriving DecidableEq

structure PrdsRect where
  x : Nat
  y : Nat
  width : Nat
  height : Nat

def FillRect.degenerate (r : FillRect) : Bool := r.right < r.left || r.bottom < r.top

def FillRect.prds (r : FillRect) : PrdsRect :=
  ⟨r.left.toNat, r.top.toNat, r.right.toNat - r.left.toNat + 1, r.bottom.toNat - r.top.toNat + 1⟩

def pack : List FillRect → List PrdsRect → List PrdsRect
  | [], rects        => rects
  | r :: list, rects =>
    if rects.length < maxCommitRects then pack list (if r.degenerate then rects else rects ++ [r.prds]) else rects

/-- A call of the hook.  A commit of no rectangles is one of everything. -/
inductive Call
  /-- `redraw` is read; whether no event has come since -/
  | reading (list : List FillRect) (redraw : UInt32) (current : Bool)
  /-- what it has read is another than the one answered last, which it is about to write -/
  | changing (list : List FillRect) (redraw : UInt32)
  /-- the request is with the host; whether it was sent behind the last event -/
  | committing (list : List FillRect) (request : List PrdsRect) (fresh : Bool)

/-- The counters, the calls on their way, and whether an event still waits for a full commit. -/
structure State where
  redrawCount : UInt32
  lastRedraw : UInt32
  calls : List Call := []
  owed : Bool := false

inductive Event
  | redraw
  | read (list : List FillRect)
  | compare (k : Nat)
  | acknowledge (k : Nat)
  | answer (k : Nat) (accepted : Bool)

namespace State

variable (s : State)

/-- What a call is to send; `none` is its return without a commit. -/
def request (list : List FillRect) (redraw : UInt32) : Option (List PrdsRect) :=
  if redraw ≠ s.lastRedraw then some []
  else if pack list [] = [] then none
  else some (pack list [])

def outdated : Call → Call
  | .reading list redraw _     => .reading list redraw false
  | .changing list redraw      => .changing list redraw
  | .committing list request _ => .committing list request false

def step : Event → Option State
  | .redraw            =>
    some { s with redrawCount := s.redrawCount + 1, owed := true, calls := s.calls.map outdated }
  | .read list         => some { s with calls := s.calls ++ [.reading list s.redrawCount true] }
  | .compare k         => match s.calls[k]? with
    | some (.reading list redraw _) => some { s with
        calls := if redraw ≠ s.lastRedraw then s.calls.set k (.changing list redraw)
          else if pack list [] = [] then s.calls.eraseIdx k
          else s.calls.set k (.committing list (pack list []) true) }
    | _                             => none
  | .acknowledge k     => match s.calls[k]? with
    | some (.changing list redraw) =>
      some { s with lastRedraw := redraw, calls := s.calls.set k (.committing list [] true) }
    | _                            => none
  | .answer k accepted => match s.calls[k]? with
    | some (.committing _ request fresh) =>
      some { s with
        calls := s.calls.eraseIdx k
        owed := if accepted ∧ request = [] ∧ fresh then false else s.owed }
    | _                                  => none

end State

/-! ## What is promised -/

def FillRect.Has (r : FillRect) (x y : Nat) : Prop :=
  (r.left.toNat ≤ x ∧ x ≤ r.right.toNat) ∧ r.top.toNat ≤ y ∧ y ≤ r.bottom.toNat

instance (r : FillRect) (x y : Nat) : Decidable (r.Has x y) := inferInstanceAs (Decidable ((_ ∧ _) ∧ _ ∧ _))

def PrdsRect.Has (r : PrdsRect) (x y : Nat) : Prop := (r.x ≤ x ∧ x < r.x + r.width) ∧ r.y ≤ y ∧ y < r.y + r.height

instance (r : PrdsRect) (x y : Nat) : Decidable (r.Has x y) := inferInstanceAs (Decidable ((_ ∧ _) ∧ _ ∧ _))

/-- **The request has every pixel of every valid rectangle of the list.** -/
def Covers (request : List PrdsRect) (list : List FillRect) : Prop :=
  ∀ r ∈ list, r.degenerate = false → ∀ x y, r.Has x y → request = [] ∨ ∃ d ∈ request, d.Has x y

/-- **What has to come of a step**: a call that has read the counter behind a REDRAW sends everything while that is owed, one that
returns without a commit has nothing to present, and an accepted commit has all of its list. -/
def Keeps (s : State) : Event → Prop
  | .compare k     => ∀ list redraw current, s.calls[k]? = some (.reading list redraw current) →
    (s.owed = true ∧ current = true → s.request list redraw = some []) ∧
      (s.request list redraw = none → ∀ r ∈ list, r.degenerate = true)
  | .answer k true => ∀ list request fresh, s.calls[k]? = some (.committing list request fresh) → Covers request list
  | _              => True

def Call.full : Call → Bool
  | .committing _ [] true => true
  | _                     => false

def Call.begins : Call → Bool
  | .reading _ _ current => current
  | _                    => false

/-- **What the hook rests on**: no more valid rectangles than fit, a REDRAW's first commit alone on its way until it is accepted,
and no 2^32 events while a call or the last answer stands. -/
def Meets (s : State) : Event → Prop
  | .read list      => (list.filter fun r => !r.degenerate).length ≤ maxCommitRects
  | .redraw         => s.redrawCount + 1 ≠ s.lastRedraw ∧
    ∀ c ∈ s.calls, ∀ list current, c ≠ .reading list (s.redrawCount + 1) current
  | .compare k      => s.owed = true → (∀ c ∈ s.calls[k]?, c.begins = true → ∀ d ∈ s.calls, d.full = false)
  | .answer k false => s.owed = true → (∀ c ∈ s.calls[k]?, c.full = true → s.redrawCount ≠ s.lastRedraw)
  | _               => True

/-! ## Packing -/

theorem pack_eq : ∀ (list : List FillRect) (rects : List PrdsRect),
    rects.length + (list.filter fun r => !r.degenerate).length ≤ maxCommitRects →
    pack list rects = rects ++ (list.filter fun r => !r.degenerate).map FillRect.prds
  | [], rects, _ => by simp [pack]
  | r :: list, rects, h => by
    unfold pack
    by_cases hr : r.degenerate = true
    · rw [filter_cons_of_neg (by simp [hr])] at h ⊢
      rw [if_pos hr]
      split
      · exact pack_eq list rects h
      · rename_i hfull
        rw [length_eq_zero_iff.1 (show (list.filter fun r => !r.degenerate).length = 0 by omega)]
        simp
    · rw [filter_cons_of_pos (by simp [hr]), length_cons] at h
      rw [if_pos (by omega), if_neg hr, filter_cons_of_pos (by simp [hr]), pack_eq list _ (by simp; omega), map_cons,
        append_assoc]
      rfl

theorem prds_has {r : FillRect} {x y : Nat} (h : r.Has x y) : r.prds.Has x y := by
  obtain ⟨⟨hl, hr⟩, ht, hb⟩ := h
  refine ⟨⟨hl, ?_⟩, ht, ?_⟩
  · show x < r.left.toNat + (r.right.toNat - r.left.toNat + 1)
    omega
  · show y < r.top.toNat + (r.bottom.toNat - r.top.toNat + 1)
    omega

/-- **Where they fit, a call sends all of them, or everything.** -/
theorem request_covers {s : State} {list : List FillRect} {redraw : UInt32} {request : List PrdsRect}
    (hfits : (list.filter fun r => !r.degenerate).length ≤ maxCommitRects) (h : s.request list redraw = some request) :
    Covers request list := by
  intro r hr hvalid x y hxy
  unfold State.request at h
  split at h
  · cases h
    exact Or.inl rfl
  split at h
  · cases h
  · cases h
    rw [pack_eq list [] (by simpa using hfits)]
    exact Or.inr ⟨r.prds, mem_map_of_mem (mem_filter.2 ⟨hr, by simp [hvalid]⟩), prds_has hxy⟩

theorem request_none {s : State} {list : List FillRect} {redraw : UInt32}
    (hfits : (list.filter fun r => !r.degenerate).length ≤ maxCommitRects) (h : s.request list redraw = none) :
    ∀ r ∈ list, r.degenerate = true := by
  unfold State.request at h
  split at h
  · cases h
  split at h
  · rename_i hpack
    rw [pack_eq list [] (by simpa using hfits), nil_append, map_eq_nil_iff, filter_eq_nil_iff] at hpack
    simpa using hpack
  · cases h

/-! ## The invariant -/

def CallOk (redrawCount : UInt32) : Call → Prop
  | .reading list redraw current => (list.filter fun r => !r.degenerate).length ≤ maxCommitRects ∧
    (current = true ↔ redraw = redrawCount)
  | .changing _ _                => True
  | .committing list request _   => Covers request list

/-- **While an event is owed a full commit, one is on its way or the next comparison sees the event.** -/
structure Ok (s : State) : Prop where
  seen : s.owed = true → (∀ c ∈ s.calls, c.full = false) → s.redrawCount ≠ s.lastRedraw
  calls : ∀ c ∈ s.calls, CallOk s.redrawCount c

theorem ok_keeps {s : State} (hs : Ok s) {e : Event} (hm : Meets s e) : Keeps s e := by
  cases e with
  | redraw => trivial
  | read list => trivial
  | acknowledge k => trivial
  | compare k =>
    intro list redraw current hk
    obtain ⟨hfits, hcur⟩ := hs.calls _ (mem_of_getElem? hk)
    refine ⟨fun ⟨howed, hc⟩ => ?_, request_none hfits⟩
    have hne := hs.seen howed (hm howed _ hk hc)
    unfold State.request
    rw [if_pos (hcur.1 hc ▸ hne)]
  | answer k accepted =>
    cases accepted with
    | false => trivial
    | true => exact fun list request fresh hk => hs.calls _ (mem_of_getElem? hk)

theorem Ok.redraw {s : State} (hs : Ok s) (hm : Meets s .redraw) :
    Ok { s with redrawCount := s.redrawCount + 1, owed := true, calls := s.calls.map State.outdated } := by
  refine ⟨fun _ _ => hm.1, fun c hc => ?_⟩
  obtain ⟨d, hd, rfl⟩ := mem_map.1 hc
  have hdok := hs.calls d hd
  cases d with
  | reading list redraw current =>
    exact ⟨hdok.1, iff_of_false Bool.false_ne_true fun he => hm.2 _ hd list current (he ▸ rfl)⟩
  | changing list redraw => trivial
  | committing list request fresh => exact hdok

theorem Ok.read {s : State} (hs : Ok s) {list : List FillRect} (hm : Meets s (.read list)) :
    Ok { s with calls := s.calls ++ [.reading list s.redrawCount true] } := by
  refine ⟨fun howed hno => hs.seen howed fun c hc => hno c (mem_append_left _ hc), fun c hc => ?_⟩
  rcases mem_append.1 hc with hc | hc
  · exact hs.calls c hc
  · rw [mem_singleton.1 hc]
    exact ⟨hm, iff_of_true rfl rfl⟩

theorem full_of_eraseIdx {calls : List Call} {k : Nat} {c d : Call} (hk : calls[k]? = some c) (hc : c.full = false)
    (hd : d ∈ calls) (hfull : d.full = true) : d ∈ calls.eraseIdx k := by
  obtain ⟨i, hi⟩ := mem_iff_getElem?.1 hd
  refine mem_eraseIdx_iff_getElem?.2 ⟨i, fun he => ?_, hi⟩
  rw [he, hk] at hi
  cases hi
  exact Bool.false_ne_true (hc.symm.trans hfull)

theorem full_of_set {calls : List Call} {k : Nat} {c d e : Call} (hk : calls[k]? = some c) (hc : c.full = false)
    (hd : d ∈ calls) (hfull : d.full = true) : d ∈ calls.set k e := by
  obtain ⟨i, hi⟩ := mem_iff_getElem?.1 hd
  refine mem_iff_getElem?.2 ⟨i, ?_⟩
  rw [getElem?_set_ne, hi]
  rintro rfl
  rw [hk] at hi
  cases hi
  exact Bool.false_ne_true (hc.symm.trans hfull)

theorem Ok.congr {s : State} (hs : Ok s) {calls : List Call} (hfull : ∀ d ∈ s.calls, d.full = true → d ∈ calls)
    (hok : ∀ c ∈ calls, CallOk s.redrawCount c) : Ok { s with calls } := by
  refine ⟨fun howed hno => hs.seen howed fun c hc => ?_, hok⟩
  by_contra hcfull
  exact hcfull (hno c (hfull c hc (by simpa using hcfull)))

theorem Ok.compare {s : State} (hs : Ok s) {k : Nat} {list : List FillRect} {redraw : UInt32} {current : Bool}
    (hk : s.calls[k]? = some (.reading list redraw current)) :
    Ok { s with
      calls := if redraw ≠ s.lastRedraw then s.calls.set k (.changing list redraw)
        else if pack list [] = [] then s.calls.eraseIdx k
        else s.calls.set k (.committing list (pack list []) true) } := by
  obtain ⟨hfits, -⟩ := hs.calls _ (mem_of_getElem? hk)
  have hset {c : Call} (hc : CallOk s.redrawCount c) : Ok { s with calls := s.calls.set k c } :=
    hs.congr (fun d hd => full_of_set hk rfl hd) fun d hd => (mem_or_eq_of_mem_set hd).elim (hs.calls d) fun he => he ▸ hc
  split
  · exact hset trivial
  rename_i heq
  split
  · exact hs.congr (fun d hd => full_of_eraseIdx hk rfl hd) fun c hc => hs.calls c (mem_of_mem_eraseIdx hc)
  · rename_i hpack
    have hrequest : s.request list redraw = some (pack list []) := by
      unfold State.request
      rw [if_neg heq, if_neg hpack]
    exact hset (request_covers hfits hrequest)

theorem Ok.acknowledge {s : State} (hs : Ok s) {k : Nat} {list : List FillRect} {redraw : UInt32}
    (hk : s.calls[k]? = some (.changing list redraw)) :
    Ok { s with lastRedraw := redraw, calls := s.calls.set k (.committing list [] true) } := by
  have hlt : k < s.calls.length := (List.getElem?_eq_some_iff.1 hk).1
  refine ⟨fun _ hno => (Bool.false_ne_true (hno _ (mem_set hlt _)).symm).elim, fun c hc => ?_⟩
  rcases mem_or_eq_of_mem_set hc with hc | rfl
  · exact hs.calls c hc
  · exact fun _ _ _ _ _ _ => Or.inl rfl

theorem Ok.answer {s : State} (hs : Ok s) {k : Nat} {accepted : Bool} (hm : Meets s (.answer k accepted)) {list : List FillRect}
    {request : List PrdsRect} {fresh : Bool} (hk : s.calls[k]? = some (.committing list request fresh)) :
    Ok { s with calls := s.calls.eraseIdx k, owed := if accepted ∧ request = [] ∧ fresh then false else s.owed } := by
  refine ⟨fun howed hno => ?_, fun c hc => hs.calls c (mem_of_mem_eraseIdx hc)⟩
  dsimp only at howed hno ⊢
  split at howed
  · cases howed
  rename_i hnot
  by_cases hfull : (Call.committing list request fresh).full = true
  · have hparts : request = [] ∧ fresh = true := by
      cases request <;> cases fresh <;> simp_all [Call.full]
    cases accepted with
    | true => exact absurd ⟨rfl, hparts⟩ hnot
    | false => exact hm howed _ hk hfull
  · refine hs.seen howed fun c hc => ?_
    by_contra hcfull
    exact hcfull (hno c (full_of_eraseIdx hk (by simpa using hfull) hc (by simpa using hcfull)))

theorem step_ok {s s' : State} (hs : Ok s) {e : Event} (hm : Meets s e) (h : s.step e = some s') : Ok s' := by
  cases e with
  | redraw =>
    cases h
    exact hs.redraw hm
  | read list =>
    cases h
    exact hs.read hm
  | compare k =>
    unfold State.step at h
    dsimp only at h
    split at h
    · rename_i list redraw current hk
      cases h
      exact hs.compare hk
    · cases h
  | acknowledge k =>
    unfold State.step at h
    dsimp only at h
    split at h
    · rename_i list redraw hk
      cases h
      exact hs.acknowledge hk
    · cases h
  | answer k accepted =>
    unfold State.step at h
    dsimp only at h
    split at h
    · rename_i list request fresh hk
      cases h
      exact hs.answer hm hk
    · cases h

/-- **A run that meets the conditions keeps what is promised, step by step.** -/
theorem commits_kept (count : UInt32) (es : List Event)
    (hmeets : Runs.Along State.step Meets { redrawCount := count, lastRedraw := count } es) :
    Runs.Along State.step Keeps { redrawCount := count, lastRedraw := count } es :=
  Runs.along_of_inv (I := Ok) (fun _ _ _ hs hm h => step_ok hs hm h) (fun _ _ hs hm => ok_keeps hs hm)
    ⟨fun h => absurd h Bool.false_ne_true, fun _ hc => absurd hc not_mem_nil⟩ hmeets

def dots : List FillRect := (List.range 65).map fun i => ⟨.ofNat i, 0, .ofNat i, 0⟩

theorem dots_lost : ¬ ∀ (count : UInt32) (es : List Event),
    Runs.Along State.step Keeps { redrawCount := count, lastRedraw := count } es := by
  intro h
  have hanswer := Runs.along_iff.1 (h 0 [.read dots, .compare 0, .answer 0 true]) [.read dots, .compare 0] (.answer 0 true) [] _
    rfl rfl
  have hlast := hanswer dots _ _ rfl ⟨64, 0, 64, 0⟩ (by decide +kernel) rfl 64 0 (by decide)
  exact absurd hlast (by decide +kernel)

theorem commits_kept_dot : Runs.Along State.step Keeps { redrawCount := 7, lastRedraw := 7 }
    [.redraw, .read [⟨1, 2, 3, 4⟩], .compare 0, .acknowledge 0, .answer 0 true] :=
  commits_kept 7 _ (by simp [Runs.Along, State.step, Meets, FillRect.degenerate, maxCommitRects]; decide)

end Accelerant
end Prose
