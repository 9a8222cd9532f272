import Prose.PrdsTraps
/-!
# PrdsReset — the display device behind a reset

The device of `PrdsModel` with the buffers the guest posts for its events, and what a reset and a stop of the machine leave of
a history of commands.  Both take the mode, the buffers and the picture away, and neither touches the table of panes; and a
stop leaves the event mask.  So what is left can be read from the commands alone: `there` and `masked` do.
-/
namespace Prose
namespace Prds

open Trapping List

def eventSize : Nat := 32
def evtVsync : UInt32 := 0x2000
def evtModeHint : UInt32 := 0x2001

structure Evented (host : Host) where
  device : PRDSDevice host
  eventElements : List Element := []
  vsyncSeq : Nat := 0
  hintSeq : Nat := 0
  droppedEvents : Nat := 0

/-- What comes to it: what comes to the device, and what is about the event queue. -/
inductive QueueEvent
  | device (e : PRDSDevice.Event)
  /-- a buffer for an event, on the second queue -/
  | posted (e : Element)
  | willStop
  /-- with the time in nanoseconds, if that is a number -/
  | displayTick (nanos : Option UInt64)

namespace Evented

variable {host : Host}

def count (n : Nat) : Option Nat := when (n + 1 < 18446744073709551616) (n + 1)

/-- An event: the device behind it, and what was written into the first buffer. -/
def emit (s : Evented host) (event : Bytes) : Option (Evented host × Option Bytes) :=
  match s.eventElements with
  | []                 => do
    let droppedEvents ← plus s.droppedEvents 1
    some ({ s with droppedEvents }, none)
  | e :: eventElements =>
    let data := event ++ replicate (eventSize - event.length) 0
    some ({ s with eventElements }, if data.length ≤ e.writeBuffersByteCount then some data else none)

def displayTick (s : Evented host) (nanos : Option UInt64) : Option (Evented host × Option Bytes) :=
  if s.device.eventMask &&& eventMaskVsync ≠ 0 ∧ s.device.mode.isSome then do
    let vsyncSeq ← count s.vsyncSeq
    let nanos ← nanos
    emit { s with vsyncSeq } (le32 evtVsync ++ le32 0 ++ le64 (.ofNat vsyncSeq) ++ le64 nanos ++ le64 0)
  else some (s, none)

def hint (s : Evented host) : Option (Evented host × Option Bytes) :=
  if s.device.eventMask &&& eventMaskModeHint ≠ 0 then do
    let hintSeq ← count s.hintSeq
    let width ← PRDSDevice.fit32 s.device.prefWidth
    let height ← PRDSDevice.fit32 s.device.prefHeight
    emit { s with hintSeq } (le32 evtModeHint ++ le32 0 ++ le64 (.ofNat hintSeq) ++ le32 width ++ le32 height ++ le64 0)
  else some (s, none)

def step (s : Evented host) : QueueEvent → Option (Evented host)
  | .device e => do
    let device ← s.device.step e
    match e with
    | .vmDidStop | .willReset => some { s with device, eventElements := [] }
    | .windowResized width height =>
      if width > 0 ∧ height > 0 ∧ (width ≠ s.device.prefWidth ∨ height ≠ s.device.prefHeight) then
        (hint { s with device }).map fun x => x.1
      else some s
    | _ => some { s with device }
  | .posted e          => some { s with eventElements := s.eventElements ++ [e] }
  | .willStop          => some { s with eventElements := [] }
  | .displayTick nanos => (s.displayTick nanos).map (·.1)

def make (host : Host) (pool : Nat → UInt8) (memory : Bool) (width height : Int) : Option (Evented host) :=
  (PRDSDevice.make host pool memory width height).map fun device => { device }

end Evented

namespace PRDSDevice

variable {host : Host}

/-! ## Commands and panes -/

def Creates (poolSize id : Nat) (req : Bytes) : Prop :=
  leU32 req 0 = cmdPaneCreate ∧ 72 ≤ req.length ∧ u32 req 16 = id ∧ (paneOf req).bind (paneFits poolSize) = some true

instance (poolSize id : Nat) (req : Bytes) : Decidable (Creates poolSize id req) := inferInstanceAs (Decidable (_ ∧ _))

def Destroys (id : Nat) (req : Bytes) : Prop := leU32 req 0 = cmdPaneDestroy ∧ 24 ≤ req.length ∧ u32 req 16 = id

instance (id : Nat) (req : Bytes) : Decidable (Destroys id req) := inferInstanceAs (Decidable (_ ∧ _))

def Enables (req : Bytes) : Prop :=
  leU32 req 0 = cmdEnableEvents ∧ leU32 req 16 &&& ~~~(eventMaskVsync ||| eventMaskModeHint ||| eventMaskRedraw) = 0

instance (req : Bytes) : Decidable (Enables req) := inferInstanceAs (Decidable (_ ∧ _))

def thereAt (poolSize id : Nat) (req : Bytes) (was : Bool) : Bool :=
  if Creates poolSize id req then true else if Destroys id req then false else was

def maskedBy (req : Bytes) (was : UInt32) : UInt32 := if Enables req then leU32 req 16 ||| eventMaskRedraw else was

def Has (s : PRDSDevice host) (live : Nat → Bool) (mask : UInt32) : Prop :=
  s.eventMask = mask ∧ ∀ (id : Nat) (h : id < Pane.maxPanes), s.paneTable[id].live = live id

theorem thereAt_was {poolSize id : Nat} {req : Bytes} {was : Bool} (hc : ¬ Creates poolSize id req) (hd : ¬ Destroys id req) :
    thereAt poolSize id req was = was := by
  unfold thereAt
  rw [if_neg hc, if_neg hd]

section

variable {s s' : PRDSDevice host} {req : Bytes} {m : Moment} {st : UInt32} {live : Nat → Bool} {mask : UInt32}
  (hs : s.Has live mask)
include hs

theorem Has.congr (hm : s'.eventMask = s.eventMask) (hp : s'.paneTable = s.paneTable) : s'.Has live mask := by
  unfold Has
  rw [hm, hp]
  exact hs

theorem Has.eq {live' : Nat → Bool} (h : ∀ id < Pane.maxPanes, live id = live' id) : s.Has live' mask :=
  ⟨hs.1, fun id hid => (hs.2 id hid).trans (h id hid)⟩

theorem Has.same {e : UInt32} (h : some (s, e) = some (s', st)) : s'.Has live mask := by
  cases h
  exact hs

theorem Has.set {i : Nat} (hi : i < Pane.maxPanes) {p : PaneState} {pool : Nat → UInt8} {seq : Nat} :
    Has { s with pool, paneTable := s.paneTable.set i p, seq } (Function.update live i p.live) mask := by
  refine ⟨hs.1, fun id hid => ?_⟩
  change (s.paneTable.set i p)[id].live = _
  rw [Vector.getElem_set]
  unfold Function.update
  by_cases h : i = id
  · subst h
    simp
  · rw [if_neg h, dif_neg (Ne.symm h)]
    exact hs.2 id hid

theorem Has.replaced {i : Nat} (hi : i < Pane.maxPanes) {p : PaneState}
    (h : (do let s ← { s with paneTable := s.paneTable.set i p }.bump; some (s, respOK)) = some (s', st)) :
    s'.Has (Function.update live i p.live) mask := by
  obtain ⟨u, hu, h⟩ := Option.bind_eq_some_iff.1 h
  obtain ⟨-, rfl⟩ := bump_eq_some.1 hu
  cases h
  exact hs.set hi

theorem Has.updated {i : Nat} (hi : i < Pane.maxPanes) {p : PaneState} (hp : p.live = s.paneTable[i].live)
    (h : s'.Has (Function.update live i p.live) mask) : s'.Has live mask := by
  rw [hp, hs.2 i hi, Function.update_eq_self] at h
  exact h

theorem paneCreate_has (ht : leU32 req 0 = cmdPaneCreate) (h : s.paneCreate req = some (s', st)) :
    s'.Has (fun id => thereAt host.poolSize id req (live id)) mask := by
  have hd (id : Nat) : ¬ Destroys id req := fun h => absurd (ht.symm.trans h.1) (by decide)
  have hsame (hno : ∀ id < Pane.maxPanes, ¬ Creates host.poolSize id req) {e : UInt32} (h : some (s, e) = some (s', st)) :
      s'.Has (fun id => thereAt host.poolSize id req (live id)) mask :=
    (hs.same h).eq (fun id hid => (thereAt_was (hno id hid) (hd id)).symm)
  unfold paneCreate at h
  split at h
  · rename_i hlen
    exact hsame (fun id _ hc => absurd hc.2.1 (by omega)) h
  rename_i hlen
  split at h
  · rename_i hi
    obtain ⟨p, hp, h⟩ := Option.bind_eq_some_iff.1 h
    obtain ⟨fits, hf, h⟩ := Option.bind_eq_some_iff.1 h
    have hfits : (paneOf req).bind (paneFits host.poolSize) = some fits := by
      rw [hp]
      exact hf
    cases fits with
    | false => exact hsame (fun id _ hc => absurd (hfits.symm.trans hc.2.2.2) (by simp)) h
    | true =>
      refine (hs.replaced hi h).eq (fun id _ => ?_)
      by_cases hid : id = u32 req 16
      · subst hid
        unfold thereAt
        rw [if_pos ⟨ht, by omega, rfl, hfits⟩, Function.update_self]
      · rw [thereAt_was (fun hc => hid hc.2.2.1.symm) (hd id), Function.update_of_ne hid]
  · rename_i hi
    exact hsame (fun id hid hc => hi (hc.2.2.1 ▸ hid)) h

theorem paneDestroy_has (ht : leU32 req 0 = cmdPaneDestroy) (h : s.paneDestroy req = some (s', st)) :
    s'.Has (fun id => thereAt host.poolSize id req (live id)) mask := by
  have hc (id : Nat) : ¬ Creates host.poolSize id req := fun h => absurd (ht.symm.trans h.1) (by decide)
  have hsame (hno : ∀ id < Pane.maxPanes, ¬ Destroys id req) (h : some (s, errInvalid) = some (s', st)) :
      s'.Has (fun id => thereAt host.poolSize id req (live id)) mask :=
    (hs.same h).eq (fun id hid => (thereAt_was (hc id) (hno id hid)).symm)
  unfold paneDestroy at h
  split at h
  · rename_i hlen
    exact hsame (fun id _ hd => absurd hd.2.1 (by omega)) h
  rename_i hlen
  split at h
  · rename_i hi
    refine (hs.replaced hi h).eq (fun id _ => ?_)
    by_cases hid : id = u32 req 16
    · subst hid
      unfold thereAt
      rw [if_neg (hc _), if_pos ⟨ht, by omega, rfl⟩, Function.update_self]
    · rw [thereAt_was (hc id) (fun hd => hid hd.2.2.symm), Function.update_of_ne hid]
  · rename_i hi
    exact hsame (fun id hid hd => hi (hd.2.2 ▸ hid)) h

theorem paneConfig_has (h : s.paneConfig req = some (s', st)) : s'.Has live mask := by
  unfold paneConfig at h
  split at h
  · exact hs.same h
  split at h
  · rename_i hi
    dsimp only at h
    split at h
    · exact hs.same h
    split at h
    · exact hs.same h
    · exact hs.updated hi (by rfl) (hs.replaced hi h)
  · exact hs.same h

theorem panePresent_has (h : s.panePresent req = some (s', st)) : s'.Has live mask := by
  unfold panePresent at h
  split at h
  · exact hs.same h
  split at h
  · rename_i hi
    obtain ⟨offset, -, h⟩ := Option.bind_eq_some_iff.1 h
    obtain ⟨fits, -, h⟩ := Option.bind_eq_some_iff.1 h
    dsimp only at h
    split at h
    · exact hs.same h
    split at h
    · exact hs.same h
    split at h
    · exact hs.same h
    · exact hs.updated hi (by rfl) (hs.replaced hi h)
  · exact hs.same h

theorem paneShader_has (h : s.paneShader req m = some (s', st)) : s'.Has live mask := by
  have hlive {i : Nat} (hi : i < Pane.maxPanes) (filter : Bool) (source : Option Bytes) :
      (if filter then { s.paneTable[i] with filter := source } else { s.paneTable[i] with background := source }).live =
        s.paneTable[i].live := by
    cases filter <;> rfl
  unfold paneShader at h
  split at h
  · exact hs.same h
  split at h
  · rename_i hi
    obtain ⟨offset, -, h⟩ := Option.bind_eq_some_iff.1 h
    obtain ⟨fits, -, h⟩ := Option.bind_eq_some_iff.1 h
    split at h
    · exact hs.same h
    split at h
    · exact hs.updated hi (hlive hi _ _) (hs.replaced hi h)
    split at h
    · exact hs.same h
    · exact hs.updated hi (hlive hi _ _) (hs.replaced hi h)
    · cases h
      exact hs.updated hi (hlive hi _ _) (hs.set hi)
  · exact hs.same h

/-- **Only a command that makes or takes a pane changes which are live**, and only one changes the mask. -/
theorem command_has (hc : s.Counted) {payload : Bytes} (h : s.command req m = some (s', st, payload)) :
    s'.Has (fun id => thereAt host.poolSize id req (live id)) (maskedBy req mask) := by
  have hshows (hreq : Shows req) : s'.Has live mask := by
    cases command_outcome hc h with
    | same => exact hs
    | masked hno => exact absurd hreq hno
    | blanked => exact hs.congr rfl rfl
    | committed => exact hs.congr rfl rfl
    | pane hno => exact absurd hreq hno
  -- a command of another type makes no pane, takes none and sets no mask
  have hother {t : UInt32} (ht : leU32 req 0 = t) (hh : s'.Has live mask)
      (hc : t ≠ cmdPaneCreate := by decide) (hd : t ≠ cmdPaneDestroy := by decide) (he : t ≠ cmdEnableEvents := by decide) :
      s'.Has (fun id => thereAt host.poolSize id req (live id)) (maskedBy req mask) := by
    unfold maskedBy
    rw [if_neg (fun h => he (ht.symm.trans h.1))]
    exact hh.eq (fun id _ => (thereAt_was (fun h => hc (ht.symm.trans h.1)) (fun h => hd (ht.symm.trans h.1))).symm)
  have hbare {t : UInt32} {o : Option (PRDSDevice host × UInt32)} (ht : leU32 req 0 = t)
      (h : o.map (fun x => (x.1, x.2, ([] : Bytes))) = some (s', st, payload)) (ho : o = some (s', st) → s'.Has live mask)
      (hc : t ≠ cmdPaneCreate := by decide) (hd : t ≠ cmdPaneDestroy := by decide) (he : t ≠ cmdEnableEvents := by decide) :
      s'.Has (fun id => thereAt host.poolSize id req (live id)) (maskedBy req mask) := by
    obtain ⟨⟨u, e⟩, hu, hx⟩ := Option.map_eq_some_iff.1 h
    cases hx
    exact hother ht (ho hu) hc hd he
  unfold command at h
  dsimp only at h
  split at h
  · rename_i ht
    exact hother ht (hshows (Or.inl ht))
  split at h
  · rename_i ht
    exact hother ht (hshows (Or.inr ht))
  split at h
  · rename_i ht
    have hlive (id : Nat) (was : Bool) : was = thereAt host.poolSize id req was :=
      (thereAt_was (fun h => absurd (ht.symm.trans h.1) (by decide)) (fun h => absurd (ht.symm.trans h.1) (by decide))).symm
    unfold maskedBy
    split at h
    · rename_i hm
      cases h
      rw [if_neg (fun h => hm h.2)]
      exact hs.eq (fun id _ => hlive id _)
    rename_i hm
    cases h
    rw [if_pos ⟨ht, not_not.1 hm⟩]
    exact ⟨rfl, fun id hid => (hs.2 id hid).trans (hlive id _)⟩
  split at h
  · rename_i ht
    obtain ⟨d, -, hx⟩ := Option.map_eq_some_iff.1 h
    cases hx
    exact hother ht hs
  split at h
  · rename_i ht
    obtain ⟨⟨u, e⟩, hu, hx⟩ := Option.map_eq_some_iff.1 h
    cases hx
    unfold maskedBy
    rw [if_neg (fun h => absurd (ht.symm.trans h.1) (by decide))]
    exact paneCreate_has hs ht hu
  split at h
  · rename_i ht
    exact hbare ht h (paneConfig_has hs)
  split at h
  · rename_i ht
    exact hbare ht h (panePresent_has hs)
  split at h
  · rename_i ht
    obtain ⟨⟨u, e⟩, hu, hx⟩ := Option.map_eq_some_iff.1 h
    cases hx
    unfold maskedBy
    rw [if_neg (fun h => absurd (ht.symm.trans h.1) (by decide))]
    exact paneDestroy_has hs ht hu
  split at h
  · rename_i ht
    exact hbare ht h (paneShader_has hs)
  · cases h
    exact hother rfl hs ‹_› ‹_› ‹_›

end

/-! ## Events -/

def thereBehind (poolSize id : Nat) (was : Bool) : Event → Bool
  | .control e _ => if e.readBytes.length < 16 then was else thereAt poolSize id e.readBytes was
  | _            => was

def maskedBehind (was : UInt32) : Event → UInt32
  | .control e _ => if e.readBytes.length < 16 then was else maskedBy e.readBytes was
  | .willReset   => eventMaskRedraw
  | _            => was

theorem step_has {s s' : PRDSDevice host} (hsound : s.Sound) {live : Nat → Bool} {mask : UInt32} (hs : s.Has live mask)
    (e : Event) (h : s.step e = some s') :
    s'.Has (fun id => thereBehind host.poolSize id (live id) e) (maskedBehind mask e) := by
  cases e with
  | didCreateDevice _ =>
    cases h
    exact hs
  | didMap =>
    cases h
    exact hs
  | vmDidStop =>
    obtain ⟨-, rfl⟩ := bump_eq_some.1 h
    exact hs
  | willReset =>
    obtain ⟨-, rfl⟩ := bump_eq_some.1 h
    exact ⟨rfl, hs.2⟩
  | windowResized width height =>
    change (if width > 0 ∧ height > 0 ∧ (width ≠ s.prefWidth ∨ height ≠ s.prefHeight) then _ else some s) = some s' at h
    split at h
    · obtain ⟨d, -, h⟩ := Option.bind_eq_some_iff.1 h
      cases h
      exact hs
    · cases h
      exact hs
  | control e m =>
    obtain ⟨⟨t, data⟩, ht, rfl⟩ := Option.map_eq_some_iff.1 h
    unfold handle at ht
    unfold thereBehind maskedBehind
    split at ht
    · rename_i hlen
      cases ht
      simp only [if_pos hlen]
      exact hs
    rename_i hlen
    obtain ⟨⟨u, st, payload⟩, hu, ht⟩ := Option.bind_eq_some_iff.1 ht
    cases ht
    simp only [if_neg hlen]
    exact command_has hs hsound.counted hu
  | stats =>
    cases h
    exact hs
  | draws _ =>
    cases h
    exact hs

end PRDSDevice

namespace Evented

open PRDSDevice

variable {host : Host}

/-- **As at power-on**, as far as the next guest can tell or the presenter can draw. -/
structure PowerOn (s : Evented host) : Prop where
  mode : s.device.mode = none
  eventMask : s.device.eventMask = eventMaskRedraw
  eventElements : s.eventElements = []
  presented : s.device.presented = false
  black : ∀ f, s.device.surface = some f → f.width = 0 ∧ f.height = 0 ∧ ∀ a < f.length, f.base a = 0
  panes : ∀ (id : Nat) (h : id < Pane.maxPanes), s.device.paneTable[id].live = false

def thereAfter (poolSize id : Nat) (was : Bool) : QueueEvent → Bool
  | .device e => thereBehind poolSize id was e
  | _         => was

def maskedAfter (was : UInt32) : QueueEvent → UInt32
  | .device e => maskedBehind was e
  | _         => was

/-- Whether a history leaves the pane: it was made, and not taken away since. -/
def there (poolSize id : Nat) (es : List QueueEvent) : Bool := es.foldl (thereAfter poolSize id) false

/-- The mask a history leaves: that of the last command that set one, and none is older than the last reset. -/
def masked (es : List QueueEvent) : UInt32 := es.foldl maskedAfter eventMaskRedraw

theorem emit_device {s s' : Evented host} {event : Bytes} {data : Option Bytes} (h : s.emit event = some (s', data)) :
    s'.device = s.device := by
  unfold emit at h
  split at h
  · obtain ⟨n, -, h⟩ := Option.bind_eq_some_iff.1 h
    cases h
    rfl
  · cases h
    rfl

theorem displayTick_device {s s' : Evented host} {nanos : Option UInt64} {data : Option Bytes}
    (h : s.displayTick nanos = some (s', data)) : s'.device = s.device := by
  unfold displayTick at h
  split at h
  · obtain ⟨n, -, h⟩ := Option.bind_eq_some_iff.1 h
    obtain ⟨t, -, h⟩ := Option.bind_eq_some_iff.1 h
    exact (emit_device h).trans rfl
  · cases h
    rfl

theorem hint_device {s s' : Evented host} {data : Option Bytes} (h : s.hint = some (s', data)) : s'.device = s.device := by
  unfold hint at h
  split at h
  · obtain ⟨n, -, h⟩ := Option.bind_eq_some_iff.1 h
    obtain ⟨w, -, h⟩ := Option.bind_eq_some_iff.1 h
    obtain ⟨l, -, h⟩ := Option.bind_eq_some_iff.1 h
    exact (emit_device h).trans rfl
  · cases h
    rfl

theorem step_device {s s' : Evented host} {e : Event} (h : s.step (.device e) = some s') :
    s.device.step e = some s'.device ∧ (e = .vmDidStop ∨ e = .willReset → s'.eventElements = []) := by
  obtain ⟨d, hd, h⟩ := Option.bind_eq_some_iff.1 h
  rw [hd]
  split at h
  · cases h
    exact ⟨rfl, fun _ => rfl⟩
  · cases h
    exact ⟨rfl, fun _ => rfl⟩
  · rename_i width height
    refine ⟨?_, fun he => he.elim nofun nofun⟩
    split at h
    · obtain ⟨⟨t, data⟩, ht, rfl⟩ := Option.map_eq_some_iff.1 h
      exact congrArg some (hint_device ht).symm
    · rename_i hsame
      cases h
      exact hd.symm.trans (if_neg hsame)
  · rename_i hstop hreset _
    cases h
    exact ⟨rfl, fun he => he.elim (fun h => absurd h hstop) (fun h => absurd h hreset)⟩

theorem step_kept {s s' : Evented host} (hsound : s.device.Sound) {live : Nat → Bool} {mask : UInt32}
    (hs : s.device.Has live mask) (e : QueueEvent) (h : s.step e = some s') :
    s'.device.Sound ∧ s'.device.Has (fun id => thereAfter host.poolSize id (live id) e) (maskedAfter mask e) := by
  cases e with
  | device e =>
    have hd := (step_device h).1
    exact ⟨step_sound hsound e hd, step_has hsound hs e hd⟩
  | posted e =>
    cases h
    exact ⟨hsound, hs⟩
  | willStop =>
    cases h
    exact ⟨hsound, hs⟩
  | displayTick nanos =>
    obtain ⟨⟨t, data⟩, ht, rfl⟩ := Option.map_eq_some_iff.1 h
    rw [displayTick_device ht]
    exact ⟨hsound, hs⟩

/-- **What a history leaves can be read from it.** -/
theorem run_kept : ∀ {es : List QueueEvent} {s s' : Evented host} {l : Nat → Bool} {mask : UInt32}, s.device.Sound →
    s.device.Has l mask → Runs.run step s es = some s' →
    s'.device.Has (fun id => es.foldl (thereAfter host.poolSize id) (l id)) (es.foldl maskedAfter mask)
  | [], s, s', l, mask, _, hs, h => by
    cases h
    exact hs
  | e :: es, s, s', l, mask, hsound, hs, h => by
    rw [Runs.run_cons, Option.bind_eq_some_iff] at h
    obtain ⟨t, ht, h⟩ := h
    obtain ⟨hsound', hs'⟩ := step_kept hsound hs e ht
    exact run_kept (l := fun id => thereAfter host.poolSize id (l id) e) hsound' hs' h

theorem make_kept {pool : Nat → UInt8} {memory : Bool} {width height : Int} {s : Evented host}
    (h : make host pool memory width height = some s) : s.device.Sound ∧ s.device.Has (fun _ => false) eventMaskRedraw := by
  obtain ⟨d, hd, rfl⟩ := Option.map_eq_some_iff.1 h
  refine ⟨make_sound hd, ?_⟩
  obtain ⟨_, -, hd⟩ := Option.bind_eq_some_iff.1 hd
  cases hd
  refine ⟨rfl, fun id hid => ?_⟩
  change (Vector.replicate Pane.maxPanes ({} : PaneState))[id].live = false
  rw [Vector.getElem_replicate]

/-- **Behind a reset or a stop there is no mode and no picture**, and the panes are as before it. -/
theorem cleared {s s' : PRDSDevice host} {e : Event} (he : e = .vmDidStop ∨ e = .willReset) (h : s.step e = some s') :
    s'.mode = none ∧ s'.presented = false ∧
      ∀ f, s'.surface = some f → f.width = 0 ∧ f.height = 0 ∧ ∀ a < f.length, f.base a = 0 := by
  have hblank {t : PRDSDevice host} (ht : t.mode = none) (h : t.clearPresentation = some s') : s'.mode = none ∧
      s'.presented = false ∧ ∀ f, s'.surface = some f → f.width = 0 ∧ f.height = 0 ∧ ∀ a < f.length, f.base a = 0 := by
    obtain ⟨-, rfl⟩ := bump_eq_some.1 h
    refine ⟨ht, rfl, fun f hf => ?_⟩
    obtain ⟨f, -, rfl⟩ := Option.map_eq_some_iff.1 hf
    exact ⟨rfl, rfl, fun a ha => if_pos ha⟩
  rcases he with rfl | rfl
  · exact hblank (t := { s with poolMapped := false, mode := none }) rfl h
  · exact hblank (t := { s with mode := none, eventMask := eventMaskRedraw }) rfl h

/-- **A reset or a stop brings the power-on state back exactly where the history has left no pane**, and a stop where it has
left no mask. -/
theorem power_on_iff (host : Host) (pool : Nat → UInt8) (memory : Bool) (width height : Int) (es : List QueueEvent)
    (s0 s s' : Evented host) (e : Event) (hmake : make host pool memory width height = some s0)
    (hrun : Runs.run step s0 es = some s) (he : e = .vmDidStop ∨ e = .willReset) (hstep : s.step (.device e) = some s') :
    PowerOn s' ↔
      (∀ id < Pane.maxPanes, there host.poolSize id es = false) ∧ (e = .vmDidStop → masked es = eventMaskRedraw) := by
  obtain ⟨hsound, hnew⟩ := make_kept hmake
  have hrun' : Runs.run step s0 (es ++ [.device e]) = some s' := by
    rw [Runs.run_append, hrun, Option.bind_some, Runs.run_cons, hstep]
    rfl
  obtain ⟨hmask, hlive⟩ := run_kept hsound hnew hrun'
  obtain ⟨hd, hel⟩ := step_device hstep
  obtain ⟨hmode, hpres, hblack⟩ := cleared he hd
  have hthere (id : Nat) : (es ++ [QueueEvent.device e]).foldl (thereAfter host.poolSize id) false = there host.poolSize id es := by
    rw [foldl_append]
    rcases he with rfl | rfl <;> rfl
  have hmasked : (es ++ [QueueEvent.device e]).foldl maskedAfter eventMaskRedraw = eventMaskRedraw ↔
      (e = .vmDidStop → masked es = eventMaskRedraw) := by
    rw [foldl_append]
    rcases he with rfl | rfl
    · exact ⟨fun h _ => h, fun h => h rfl⟩
    · exact ⟨fun _ => nofun, fun _ => rfl⟩
  constructor
  · intro h
    exact ⟨fun id hid => (hthere id).symm.trans ((hlive id hid).symm.trans (h.panes id hid)),
      hmasked.1 (hmask.symm.trans h.eventMask)⟩
  · intro h
    exact ⟨hmode, hmask.trans (hmasked.2 h.2), hel he, hpres, hblack,
      fun id hid => (hlive id hid).trans ((hthere id).trans (h.1 id hid))⟩

def makePane : QueueEvent :=
  .device (.control ⟨le32 cmdPaneCreate ++ le32 0 ++ le64 7 ++ le32 0 ++ le32 Pane.formatIndexed8 ++ le32 8 ++ le32 1 ++
    le32 8 ++ le32 1 ++ le64 8192 ++ le64 8 ++ le64 0 ++ le64 16384, 16⟩ ⟨0, none⟩)

/-- It is there for the next guest. -/
theorem pane_left_behind : ¬ ∀ host pool memory width height es (s0 s s' : Evented host) e,
    make host pool memory width height = some s0 → Runs.run step s0 es = some s → (e = .vmDidStop ∨ e = .willReset) →
    s.step (.device e) = some s' → PowerOn s' := by
  intro h
  obtain ⟨s0, s, s', hmake, hrun, hstep, hpane⟩ : ∃ s0 s s' : Evented smallHost,
      make smallHost (fun _ => 0) true 1280 800 = some s0 ∧ Runs.run step s0 [makePane] = some s ∧
      s.step (.device .willReset) = some s' ∧ s'.device.paneTable[0].live = true :=
    ⟨_, _, _, rfl, rfl, rfl, rfl⟩
  exact Bool.false_ne_true (((h _ _ _ _ _ _ _ _ _ _ hmake hrun (Or.inr rfl) hstep).panes 0 (by decide)).symm.trans hpane)

theorem power_on_iff_takePane : ∃ (takePane : QueueEvent) (s0 s s' : Evented smallHost),
    make smallHost (fun _ => 0) true 1280 800 = some s0 ∧ Runs.run step s0 [makePane, takePane] = some s ∧
    s.step (.device .vmDidStop) = some s' ∧ PowerOn s' := by
  obtain ⟨s0, s, s', hmake, hrun, hstep⟩ : ∃ s0 s s' : Evented smallHost,
      make smallHost (fun _ => 0) true 1280 800 = some s0 ∧ Runs.run step s0 [makePane,
        .device (.control ⟨le32 cmdPaneDestroy ++ le32 0 ++ le64 8 ++ le32 0 ++ le32 0, 16⟩ ⟨0, none⟩)] = some s ∧
      s.step (.device .vmDidStop) = some s' :=
    ⟨_, _, _, rfl, rfl, rfl⟩
  exact ⟨_, s0, s, s', hmake, hrun, hstep,
    (power_on_iff smallHost _ true 1280 800 _ s0 s s' _ hmake hrun (Or.inl rfl) hstep).2
      ⟨by decide, fun _ => by decide⟩⟩

end Evented

end Prds
end Prose
