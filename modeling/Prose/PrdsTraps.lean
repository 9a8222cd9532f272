import Prose.PrdsSteps
/-!
# PrdsTraps — requests that stop the host

The 64-bit fields of a request are converted to `Int` before anything else is asked of them, and the checks multiply and
add them before they compare: so a request can stop the host.  `answered_iff` says which requests, in which states, do not.
-/
namespace Prose
namespace Prds
namespace PRDSDevice

open Trapping List

variable {host : Host}

/-! ## When a computation has an outcome -/

theorem isSome_when_bind {α β : Type} {p : Prop} [Decidable p] {x : α} {f : α → Option β} :
    (when p x >>= f).isSome = true ↔ p ∧ (f x).isSome = true := by
  rw [when_bind]
  split <;> simp [*]

theorem isSome_ite {α : Type} {p : Prop} [Decidable p] {a b : Option α} :
    (if p then a else b).isSome = true ↔ (p → a.isSome = true) ∧ (¬ p → b.isSome = true) := by
  split <;> simp [*]

theorem isSome_dite {α : Type} {p : Prop} [Decidable p] {a : p → Option α} {b : ¬ p → Option α} :
    (if h : p then a h else b h).isSome = true ↔ (∀ h : p, (a h).isSome = true) ∧ (∀ h : ¬ p, (b h).isSome = true) := by
  split <;> simp [*]

theorem isSome_some {α : Type} {x : α} : (some x).isSome = true ↔ True := iff_of_true rfl trivial

def Room (s : PRDSDevice host) : Prop := s.seq + 1 ≤ top

theorem isSome_bump {s : PRDSDevice host} {α : Type} {f : PRDSDevice host → α} :
    (s.bump >>= fun s => some (f s)).isSome = true ↔ s.Room := by
  unfold bump plus word when Room
  split <;> simp [*]

/-! ## The modes -/

def ModeLines (req : Bytes) : Prop :=
  leU32 req 16 = 0 ∧ leU32 req 32 = formatB8G8R8X8 ∧ 1 ≤ u32 req 20 ∧ 1 ≤ u32 req 24 ∧ u32 req 20 * 4 ≤ u32 req 28 ∧
    u32 req 28 % strideAlign = 0

def ModeFits (req : Bytes) : Prop :=
  u32 req 20 ≤ maxWidth ∧ u32 req 24 ≤ maxHeight ∧ u64 req 40 % shmAlign = 0

def modeEnd (req : Bytes) : Nat := u64 req 40 + u32 req 28 * u32 req 24

def SetModeOk (s : PRDSDevice host) (req : Bytes) : Prop :=
  48 ≤ req.length → u64 req 40 ≤ top ∧ (s.poolMapped = true →
    (u32 req 20 = 0 ∧ u32 req 24 = 0 → s.Room) ∧
    (ModeLines req → ModeFits req → modeEnd req ≤ top ∧ (modeEnd req ≤ host.poolSize → s.Room)))

theorem isSome_setMode (s : PRDSDevice host) (req : Bytes) : (s.setMode req).isSome = true ↔ s.SetModeOk req := by
  unfold setMode SetModeOk times plus word
  simp only [isSome_ite, isSome_dite, isSome_when_bind, isSome_some, clearPresentation_eq, isSome_bump, implies_true,
    true_and, and_true, Nat.not_lt]
  refine forall_congr' fun _ => and_congr_right fun _ => ?_
  cases s.poolMapped
  · simp
  refine ⟨fun h _ => ?_, fun h _ => ?_⟩
  · have h := h (by decide)
    refine ⟨h.1, fun hl hf => ?_⟩
    have h := h.2 (fun h0 => absurd h0.1 (Nat.ne_of_gt hl.2.2.1)) hl hf
    exact ⟨h.2.1, h.2.2⟩
  · have h := h rfl
    refine ⟨h.1, fun _ hl hf => ?_⟩
    have h := h.2 hl hf
    exact ⟨(Nat.le_add_left _ _).trans h.1, h.1, h.2⟩

/-! ## Commits -/

def CommitOk (s : PRDSDevice host) (req : Bytes) (m : Moment) : Prop :=
  ∀ mode, s.mode = some mode → s.surface.isSome = true → 24 ≤ req.length → u32 req 20 ≤ maxCommitRects →
    24 + u32 req 20 * 16 ≤ req.length →
    let rects := rectsOf mode.width mode.height req
    (host.commitStats = true → ∀ r ∈ rects, s.rectHistogram r + rects.count r ≤ top) ∧
    s.commitRects + rects.length ≤ top ∧ s.commitBytes + (rects.map area).sum ≤ top ∧
    s.copyNanos + m.elapsed.toNat < 18446744073709551616 ∧ s.commits + 1 ≤ top ∧ s.Room

theorem isSome_foldlM_countShape : ∀ {l : List Rect} {s : PRDSDevice host},
    (l.foldlM countShape s).isSome = true ↔ ∀ r ∈ l, s.rectHistogram r + l.count r ≤ top
  | [], s => iff_of_true rfl (fun _ h => absurd h not_mem_nil)
  | r :: l, s => by
    have hone : countShape s r = when (s.rectHistogram r + 1 ≤ top)
        { s with rectHistogram := Function.update s.rectHistogram r (s.rectHistogram r + 1) } := by
      unfold countShape plus word when
      split <;> rfl
    rw [foldlM_cons, hone, isSome_when_bind, isSome_foldlM_countShape]
    dsimp only
    constructor
    · rintro ⟨hr, hl⟩ x hx
      rw [List.count_cons]
      by_cases hxr : r = x
      · subst hxr
        rw [beq_self_eq_true, if_pos rfl]
        by_cases hmem : r ∈ l
        · have := hl r hmem
          rw [Function.update_self] at this
          omega
        · rw [count_eq_zero_of_not_mem hmem]
          exact hr
      · rw [beq_eq_false_iff_ne.2 hxr, if_neg (by decide), Nat.add_zero]
        have := hl x ((mem_cons.1 hx).resolve_left (fun h => hxr h.symm))
        rwa [Function.update_of_ne (fun h => hxr h.symm)] at this
    · intro h
      have hcount : (r :: l).count r = l.count r + 1 := count_cons_self
      have hr := h r mem_cons_self
      rw [hcount] at hr
      refine ⟨by omega, fun x hx => ?_⟩
      have hx' := h x (mem_cons_of_mem r hx)
      by_cases hxr : r = x
      · subst hxr
        rw [Function.update_self]
        omega
      · rw [Function.update_of_ne (fun h => hxr h.symm)]
        rw [List.count_cons, beq_eq_false_iff_ne.2 hxr, if_neg (by decide), Nat.add_zero] at hx'
        exact hx'

theorem isSome_commit {s : PRDSDevice host} (hc : s.Counted) (req : Bytes) (m : Moment) :
    (s.commit req m).isSome = true ↔ s.CommitOk req m := by
  unfold CommitOk commit
  cases hm : s.mode with
  | none => exact iff_of_true rfl (fun _ h => (nomatch h))
  | some mode =>
    cases hf : s.surface with
    | none => exact iff_of_true rfl (fun _ _ h => (nomatch h))
    | some f =>
      -- the counting of the shapes changes nothing that is asked later
      have hrest (n : Rect → Nat) : ((do
          let copies ← (rectsOf mode.width mode.height req).mapM (copyLines f mode)
          let s ← (rectsOf mode.width mode.height req).foldlM countRect
            ({ s with rectHistogram := n }.present f mode copies.flatten)
          let copyNanos ← when (s.copyNanos + m.elapsed.toNat < 18446744073709551616) (s.copyNanos + m.elapsed.toNat)
          let commits ← plus s.commits 1
          let s ← { s with copyNanos, copyMaxNanos := max s.copyMaxNanos m.elapsed.toNat, commits }.bump
          some (s, respOK)) : Option (PRDSDevice host × UInt32)).isSome = true ↔
          s.commitRects + (rectsOf mode.width mode.height req).length ≤ top ∧
          s.commitBytes + ((rectsOf mode.width mode.height req).map area).sum ≤ top ∧
          s.copyNanos + m.elapsed.toNat < 18446744073709551616 ∧ s.commits + 1 ≤ top ∧ s.Room := by
        rw [mapM_copyLines, Option.bind_eq_bind, Option.bind_some,
          foldlM_countRect (rectsOf_small mode req) (by exact hc.1) (by exact hc.2)]
        unfold plus word
        simp only [isSome_when_bind, isSome_bump, and_assoc]
        rfl
      simp only [isSome_ite, isSome_some, implies_true, true_and, Nat.not_lt, Decidable.not_not, Option.some.injEq]
      refine ⟨fun h mode' he _ hlen hcount hroom => ?_, fun h hlen hroom => ?_⟩
      · subst he
        have h := h hlen ⟨hcount, hroom⟩
        obtain ⟨⟨t, st⟩, ht⟩ := Option.isSome_iff_exists.1 h
        obtain ⟨u, hu, ht⟩ := Option.bind_eq_some_iff.1 ht
        have hshapes : ∃ n, u = { s with rectHistogram := n } := by
          split at hu
          · exact foldlM_countShape hu
          · exact ⟨s.rectHistogram, (Option.some.inj hu).symm⟩
        obtain ⟨n, rfl⟩ := hshapes
        refine ⟨fun hstats => ?_, (hrest n).1 (by rw [ht]; rfl)⟩
        rw [if_pos hstats] at hu
        exact isSome_foldlM_countShape.1 (by rw [hu]; rfl)
      · obtain ⟨hstats, hall⟩ := h mode rfl trivial hlen hroom.1 hroom.2
        have hu : ∃ n, (if host.commitStats = true then (rectsOf mode.width mode.height req).foldlM countShape s
            else some s) = some { s with rectHistogram := n } := by
          split
          · rename_i hon
            obtain ⟨u, hu⟩ := Option.isSome_iff_exists.1 (isSome_foldlM_countShape.2 (hstats hon))
            obtain ⟨n, rfl⟩ := foldlM_countShape hu
            exact ⟨n, hu⟩
          · exact ⟨s.rectHistogram, rfl⟩
        obtain ⟨n, hu⟩ := hu
        rw [hu]
        exact (hrest n).2 hall

/-! ## Panes -/

def paneIn (req : Bytes) : PaneState where
  format := leU32 req 20
  worldWidth := u32 req 24
  worldHeight := u32 req 28
  stride := u32 req 32
  buffers := max 1 (min Pane.maxBuffers (u32 req 36))
  offset := u64 req 40
  bufferStride := u64 req 48
  paletteOffset := u64 req 56
  frontOffset := u64 req 64

theorem paneOf_eq (req : Bytes) : paneOf req =
    when (u64 req 40 ≤ top ∧ u64 req 48 ≤ top ∧ u64 req 56 ≤ top ∧ u64 req 64 ≤ top) (paneIn req) := by
  unfold paneOf word
  refine when_bind_when _ (when_bind_when _ (when_bind_when _ ?_))
  unfold when
  split <;> rfl

/-- **No number the checks of a pane come to is too large.** -/
def Reckoned (poolSize : Nat) (p : PaneState) : Prop :=
  0 < p.worldWidth ∧ 0 < p.worldHeight ∧ (p.format = Pane.formatIndexed8 ∨ p.format = Pane.formatB8G8R8X8) ∧
    p.paletteOffset % 4 = 0 →
  p.stride * p.worldHeight ≤ top ∧ (p.stride * p.worldHeight ≤ p.bufferStride →
    p.offset + p.bufferStride * p.buffers ≤ top ∧ (p.offset + p.bufferStride * p.buffers ≤ poolSize →
      p.paletteOffset + paletteWords p.worldHeight * 4 ≤ top ∧
      (p.paletteOffset + paletteWords p.worldHeight * 4 ≤ poolSize → p.frontOffset ≠ 0 →
        p.frontOffset + p.bufferStride * p.buffers ≤ top)))

theorem isSome_paneFits (poolSize : Nat) (p : PaneState) : (paneFits poolSize p).isSome = true ↔ Reckoned poolSize p := by
  unfold paneFits Reckoned times plus word
  simp only [isSome_ite, isSome_when_bind, isSome_some, implies_true, true_and, and_true, Nat.zero_le]
  refine forall_congr' fun _ => and_congr_right fun _ => forall_congr' fun _ => ?_
  exact and_iff_right_of_imp (fun h => (Nat.le_add_left _ _).trans h.1)

theorem paneFits_of_admitted {poolSize : Nat} {p : PaneState} (h : Admitted poolSize p)
    (hr : (paneFits poolSize p).isSome = true) : paneFits poolSize p = some true := by
  have hr := (isSome_paneFits poolSize p).1 hr ⟨h.world.1, h.world.2, h.format, h.aligned⟩
  have h2 := hr.2 h.plane
  have h3 := h2.2 h.planes
  unfold paneFits times plus word
  rw [if_pos ⟨h.world.1, h.world.2, h.format, h.aligned, Nat.zero_le _⟩, when_of hr.1, Option.bind_eq_bind, Option.bind_some,
    if_pos h.plane, when_of ((Nat.le_add_left _ _).trans h2.1), Option.bind_some, when_of h2.1, Option.bind_some,
    if_pos h.planes, when_of h3.1, Option.bind_some, if_pos ⟨h.palette, Nat.zero_le _⟩]
  split
  · rfl
  · rename_i hne
    rw [when_of (h3.2 h.palette hne), Option.bind_some, decide_eq_true (h.front.resolve_left hne)]

def CreateOk (s : PRDSDevice host) (req : Bytes) : Prop :=
  72 ≤ req.length → u32 req 16 < Pane.maxPanes →
    (u64 req 40 ≤ top ∧ u64 req 48 ≤ top ∧ u64 req 56 ≤ top ∧ u64 req 64 ≤ top) ∧ Reckoned host.poolSize (paneIn req) ∧
    (Admitted host.poolSize (paneIn req) → s.Room)

theorem isSome_paneCreate (s : PRDSDevice host) (req : Bytes) : (s.paneCreate req).isSome = true ↔ s.CreateOk req := by
  unfold paneCreate CreateOk
  rw [paneOf_eq]
  simp only [isSome_ite, isSome_dite, isSome_when_bind, isSome_some, implies_true, true_and, and_true, Nat.not_lt]
  refine forall_congr' fun _ => forall_congr' fun _ => and_congr_right fun _ => ?_
  rw [← isSome_paneFits]
  cases hf : paneFits host.poolSize (paneIn req) with
  | none => exact iff_of_false (by simp) (by simp)
  | some fits =>
    rw [Option.bind_eq_bind, Option.bind_some]
    cases fits with
    | false =>
      refine iff_of_true rfl ⟨rfl, fun hadm => ?_⟩
      have := paneFits_of_admitted hadm (by rw [hf]; rfl)
      rw [hf] at this
      exact absurd (Option.some.inj this) (by decide)
    | true =>
      have hadm := paneFits_admitted hf
      refine isSome_bump.trans ⟨fun h => ⟨rfl, fun _ => h⟩, fun h => h.2 hadm⟩

def ConfigOk (s : PRDSDevice host) (req : Bytes) : Prop :=
  64 ≤ req.length → ∀ h : u32 req 16 < Pane.maxPanes, u32 req 60 ≤ Pane.maxClipRects → 64 + u32 req 60 * 16 ≤ req.length →
    s.paneTable[u32 req 16].live = true → s.Room

theorem isSome_paneConfig (s : PRDSDevice host) (req : Bytes) : (s.paneConfig req).isSome = true ↔ s.ConfigOk req := by
  unfold paneConfig ConfigOk
  simp only [isSome_ite, isSome_dite, isSome_some, implies_true, true_and, and_true, Nat.not_lt, isSome_bump,
    Decidable.not_not, and_imp, Bool.not_eq_true', Bool.not_eq_false]
  rfl

def PresentOk (s : PRDSDevice host) (req : Bytes) : Prop :=
  40 ≤ req.length → ∀ h : u32 req 16 < Pane.maxPanes, u64 req 32 ≤ top ∧
    (u32 req 24 ≤ Pane.maxSprites → u64 req 32 % 4 = 0 → u64 req 32 + u32 req 24 * Pane.spriteStride ≤ top ∧
      (u64 req 32 + u32 req 24 * Pane.spriteStride ≤ host.poolSize → s.paneTable[u32 req 16].live = true →
        u32 req 20 < s.paneTable[u32 req 16].buffers → s.Room))

theorem isSome_check {α : Type} {c : Prop} [Decidable c] {a b k : Nat} {x y : Option α} (hx : x.isSome = true) :
    ((do let fits ← (if c then do let last ← plus a b; some (decide (last ≤ k)) else some false)
         if !fits then x else y) : Option α).isSome = true ↔ (c → a + b ≤ top ∧ (a + b ≤ k → y.isSome = true)) := by
  unfold plus word
  by_cases hc : c
  · rw [if_pos hc]
    by_cases hp : a + b ≤ top
    · rw [when_of hp]
      by_cases hq : a + b ≤ k
      · simp [hc, hp, hq]
      · simp [hc, hp, hq, hx]
    · rw [when_not hp]
      simp [hc, hp]
  · simp [hc, hx]

theorem isSome_panePresent (s : PRDSDevice host) (req : Bytes) : (s.panePresent req).isSome = true ↔ s.PresentOk req := by
  unfold panePresent PresentOk
  rw [isSome_ite, isSome_dite]
  refine (and_iff_right (fun _ => rfl)).trans (imp_congr Nat.not_lt ((and_iff_left (fun _ => rfl)).trans ?_))
  refine forall_congr' fun hid => ?_
  unfold word
  refine isSome_when_bind.trans (and_congr_right fun _ => (isSome_check rfl).trans ?_)
  simp only [isSome_ite, isSome_some, implies_true, true_and, isSome_bump, Decidable.not_not, and_imp, Bool.not_eq_true',
    Bool.not_eq_false]
  rfl

def DestroyOk (s : PRDSDevice host) (req : Bytes) : Prop := 24 ≤ req.length → u32 req 16 < Pane.maxPanes → s.Room

theorem isSome_paneDestroy (s : PRDSDevice host) (req : Bytes) : (s.paneDestroy req).isSome = true ↔ s.DestroyOk req := by
  unfold paneDestroy DestroyOk
  simp only [isSome_ite, isSome_dite, isSome_some, implies_true, true_and, and_true, Nat.not_lt, isSome_bump]
  rfl

def ShaderOk (s : PRDSDevice host) (req : Bytes) (m : Moment) : Prop :=
  40 ≤ req.length → u32 req 16 < Pane.maxPanes → u64 req 24 ≤ top ∧
    (u32 req 20 ≤ Pane.maxShaderBytes → u64 req 24 + max (u32 req 20) 1 ≤ top ∧
      (u64 req 24 + max (u32 req 20) 1 ≤ host.poolSize → (u32 req 20 = 0 ∨ m.compiled = some (.ok ())) → s.Room))

theorem isSome_paneShader (s : PRDSDevice host) (req : Bytes) (m : Moment) :
    (s.paneShader req m).isSome = true ↔ s.ShaderOk req m := by
  unfold paneShader ShaderOk
  rw [isSome_ite, isSome_dite]
  refine (and_iff_right (fun _ => rfl)).trans (imp_congr Nat.not_lt ((and_iff_left (fun _ => rfl)).trans ?_))
  refine forall_congr' fun hid => ?_
  unfold word
  refine isSome_when_bind.trans (and_congr_right fun _ => (isSome_check rfl).trans ?_)
  rw [and_iff_left (Nat.zero_le _)]
  refine forall_congr' fun _ => and_congr_right fun _ => forall_congr' fun _ => ?_
  by_cases hlen : u32 req 20 = 0
  · rw [if_pos hlen]
    exact isSome_bump.trans ⟨fun h _ => h, fun h => h (Or.inl hlen)⟩
  rw [if_neg hlen]
  cases hm : m.compiled with
  | none => exact iff_of_true rfl (fun h => by simp [hlen] at h)
  | some c =>
    cases c with
    | ok _ => exact isSome_bump.trans ⟨fun h _ => h, fun h => h (Or.inr rfl)⟩
    | error text => exact iff_of_true rfl (fun h => by simp [hlen] at h)

/-! ## Every reachable state -/

structure Sound (s : PRDSDevice host) : Prop where
  counted : s.Counted
  width : 0 ≤ s.prefWidth ∧ s.prefWidth < 4294967296
  height : 0 ≤ s.prefHeight ∧ s.prefHeight < 4294967296

theorem isSome_configData (s : PRDSDevice host) : s.configData.isSome = true ↔
    (0 ≤ s.prefWidth ∧ s.prefWidth < 4294967296) ∧ 0 ≤ s.prefHeight ∧ s.prefHeight < 4294967296 := by
  unfold configData fit32
  simp only [isSome_when_bind, isSome_some, and_true]

theorem Outcome.sound {s s' : PRDSDevice host} {req : Bytes} {m : Moment} {st : UInt32} (h : Outcome s req m s' st)
    (hs : s.Sound) : s'.Sound := by
  cases h with
  | same _ _ => exact hs
  | masked _ _ => exact ⟨hs.counted, hs.width, hs.height⟩
  | blanked _ _ => exact ⟨hs.counted, hs.width, hs.height⟩
  | committed _ f mode hf hm shapes hr hb => exact ⟨⟨hr, hb⟩, hs.width, hs.height⟩
  | pane _ _ _ _ _ _ _ _ => exact ⟨hs.counted, hs.width, hs.height⟩

theorem step_sound {s s' : PRDSDevice host} (hs : s.Sound) (e : Event) (h : s.step e = some s') : s'.Sound := by
  have hclear {t : PRDSDevice host} (ht : t.Sound) (h : t.clearPresentation = some s') : s'.Sound := by
    obtain ⟨-, rfl⟩ := bump_eq_some.1 h
    exact ⟨ht.counted, ht.width, ht.height⟩
  cases e with
  | didCreateDevice _ =>
    cases h
    exact ⟨hs.counted, hs.width, hs.height⟩
  | didMap =>
    cases h
    exact ⟨hs.counted, hs.width, hs.height⟩
  | vmDidStop => exact hclear (t := { s with poolMapped := false, mode := none }) ⟨hs.counted, hs.width, hs.height⟩ h
  | willReset =>
    exact hclear (t := { s with mode := none, eventMask := eventMaskRedraw }) ⟨hs.counted, hs.width, hs.height⟩ h
  | windowResized width height =>
    change (if width > 0 ∧ height > 0 ∧ (width ≠ s.prefWidth ∨ height ≠ s.prefHeight) then _ else some s) = some s' at h
    split at h
    · obtain ⟨d, hd, h⟩ := Option.bind_eq_some_iff.1 h
      cases h
      have hfit := (isSome_configData _).1 (Option.isSome_iff_exists.2 ⟨d, hd⟩)
      exact ⟨hs.counted, hfit.1, hfit.2⟩
    · cases h
      exact hs
  | control e m =>
    obtain ⟨⟨t, data⟩, ht, rfl⟩ := Option.map_eq_some_iff.1 h
    unfold handle at ht
    split at ht
    · cases ht
      exact hs
    · obtain ⟨⟨u, st, payload⟩, hu, ht⟩ := Option.bind_eq_some_iff.1 ht
      cases ht
      exact (command_outcome hs.counted hu).sound hs
  | stats =>
    cases h
    exact ⟨hs.counted, hs.width, hs.height⟩
  | draws _ =>
    cases h
    exact ⟨hs.counted, hs.width, hs.height⟩

theorem make_sound {pool : Nat → UInt8} {memory : Bool} {width height : Int} {s : PRDSDevice host}
    (h : make host pool memory width height = some s) : s.Sound := by
  obtain ⟨d, hd, h⟩ := Option.bind_eq_some_iff.1 h
  cases h
  have hfit := (isSome_configData _).1 (Option.isSome_iff_exists.2 ⟨d, hd⟩)
  exact ⟨⟨Nat.zero_le _, Nat.zero_le _⟩, hfit.1, hfit.2⟩

theorem run_sound {s : PRDSDevice host} (hs : s.Sound) {es : List Event} {s' : PRDSDevice host}
    (h : Runs.run step s es = some s') : s'.Sound :=
  Runs.run_inv (I := Sound) (Q := fun _ _ => True) (fun _ e _ hs _ ht => step_sound hs e ht) hs
    (Runs.along_iff.2 fun _ _ _ _ _ _ => trivial) h

/-! ## Requests -/

/-- **A command the device can carry out.** -/
def CommandOk (s : PRDSDevice host) (req : Bytes) (m : Moment) : Prop :=
  let type := leU32 req 0
  if type = cmdSetMode then s.SetModeOk req
  else if type = cmdCommit then s.CommitOk req m
  else if type = cmdEnableEvents then True
  else if type = cmdGetInfo then True
  else if type = cmdPaneCreate then s.CreateOk req
  else if type = cmdPaneConfig then s.ConfigOk req
  else if type = cmdPanePresent then s.PresentOk req
  else if type = cmdPaneDestroy then s.DestroyOk req
  else if type = cmdPaneShader then s.ShaderOk req m
  else True

def RequestOk (s : PRDSDevice host) (e : Element) (m : Moment) : Prop :=
  16 ≤ e.writeBuffersByteCount ∧ s.CommandOk e.readBytes m

def Answers (e : Element) (data : Bytes) : Prop :=
  ∃ status payload, data = le32 status ++ le32 0 ++ le64 (leU64 e.readBytes 8) ++ payload

theorem isSome_command {s : PRDSDevice host} (hs : s.Sound) (req : Bytes) (m : Moment) :
    (s.command req m).isSome = true ↔ s.CommandOk req m := by
  unfold command CommandOk
  dsimp only
  split
  · rw [Option.isSome_map, isSome_setMode]
  split
  · rw [Option.isSome_map, isSome_commit hs.counted]
  split
  · split <;> exact iff_of_true rfl trivial
  split
  · rw [Option.isSome_map]
    exact iff_of_true ((isSome_configData s).2 ⟨hs.width, hs.height⟩) trivial
  split
  · rw [Option.isSome_map, isSome_paneCreate]
  split
  · rw [Option.isSome_map, isSome_paneConfig]
  split
  · rw [Option.isSome_map, isSome_panePresent]
  split
  · rw [Option.isSome_map, isSome_paneDestroy]
  split
  · rw [Option.isSome_map, isSome_paneShader]
  · exact iff_of_true rfl trivial

theorem isSome_answer (e : Element) (st : UInt32) (payload : Bytes) :
    (answer e st payload).isSome = true ↔ 16 ≤ e.writeBuffersByteCount := by
  have hlen (st : UInt32) : (le32 st ++ le32 0 ++ le64 (leU64 e.readBytes 8)).length = 16 := rfl
  unfold answer
  dsimp only
  rw [isSome_ite]
  simp only [isSome_some, implies_true, true_and, Option.isSome_none, Bool.false_eq_true, imp_false, Decidable.not_not]
  rw [length_append, hlen]
  split
  · rw [hlen]
  · rw [length_append, hlen]
    omega

theorem answers_answer {e : Element} {st : UInt32} {payload data : Bytes} (h : answer e st payload = some data) :
    Answers e data := by
  unfold answer at h
  dsimp only at h
  split at h
  · obtain ⟨-, h⟩ := Option.ite_none_right_eq_some.1 h
    exact ⟨errInvalid, [], by rw [← Option.some.inj h, append_nil]⟩
  · obtain ⟨-, h⟩ := Option.ite_none_right_eq_some.1 h
    exact ⟨st, payload, (Option.some.inj h).symm⟩

/-- **In every reachable state, a request is handled and answered exactly if it is one the device can carry out**: no offset
in it is beyond `Int`, no sum or product its checks come to is, the counters have room, and there is room for the answer. -/
theorem answered_iff (host : Host) (pool : Nat → UInt8) (memory : Bool) (width height : Int)
    (es : List Event) (s0 s : PRDSDevice host) (hmake : make host pool memory width height = some s0)
    (hrun : Runs.run step s0 es = some s) (e : Element) (m : Moment) (hlen : 16 ≤ e.readBytes.length) :
    (∃ s' data, s.handle e m = some (s', some data) ∧ Answers e data) ↔ s.RequestOk e m := by
  have hs := run_sound (make_sound hmake) hrun
  unfold handle RequestOk
  rw [if_neg (Nat.not_lt.2 hlen), ← isSome_command hs]
  constructor
  · rintro ⟨s', data, h, -⟩
    obtain ⟨⟨t, st, payload⟩, ht, h⟩ := Option.bind_eq_some_iff.1 h
    obtain ⟨-, hans⟩ := Prod.mk.inj (Option.some.inj h)
    exact ⟨(isSome_answer e st payload).1 (by rw [hans]; rfl), by rw [ht]; rfl⟩
  · rintro ⟨hroom, hcommand⟩
    obtain ⟨⟨t, st, payload⟩, ht⟩ := Option.isSome_iff_exists.1 hcommand
    obtain ⟨data, hdata⟩ := Option.isSome_iff_exists.1 ((isSome_answer e st payload).2 hroom)
    refine ⟨t, data, ?_, answers_answer hdata⟩
    rw [ht, ← hdata]
    rfl

def smallHost : Host where
  poolSize := 1048576
  page := 16384
  commitStats := false
  mapped := by decide
  pages := by decide

def farMode : Element where
  readBytes := le32 cmdSetMode ++ le32 0 ++ le64 7 ++ le32 0 ++ le32 640 ++ le32 480 ++ le32 2560 ++
    le32 formatB8G8R8X8 ++ le32 0 ++ le64 0x8000000000000000
  writeBuffersByteCount := 16

/-- It stops the host before the guest has done anything else. -/
theorem farMode_traps : ¬ ∀ host pool memory width height es (s0 s : PRDSDevice host),
    make host pool memory width height = some s0 → Runs.run step s0 es = some s →
    ∀ e m, 16 ≤ e.readBytes.length → ∃ s' data, s.handle e m = some (s', some data) ∧ Answers e data := by
  intro h
  have hmake : ∃ s0, make smallHost (fun _ => 0) true 1280 800 = some s0 := ⟨_, rfl⟩
  obtain ⟨s0, hmake⟩ := hmake
  obtain ⟨s', data, hh, -⟩ := h smallHost _ true 1280 800 [] s0 s0 hmake rfl farMode ⟨0, none⟩ (by decide)
  have hnone : s0.handle farMode ⟨0, none⟩ = none := rfl
  rw [hnone] at hh
  exact nomatch hh

/-- A mode in the first page of the pool is not such a request. -/
theorem answered_iff_nearMode :
    let e : Element := Element.mk (le32 cmdSetMode ++ le32 0 ++ le64 7 ++ le32 0 ++ le32 640 ++ le32 400 ++ le32 2560 ++
      le32 formatB8G8R8X8 ++ le32 0 ++ le64 0) 16
    ∃ s0 : PRDSDevice smallHost, make smallHost (fun _ => 0) true 1280 800 = some s0 ∧ 16 ≤ e.readBytes.length ∧
      ((∃ s' data, s0.handle e ⟨0, none⟩ = some (s', some data) ∧ Answers e data) ↔ s0.RequestOk e ⟨0, none⟩) := by
  refine ⟨_, rfl, by decide, ?_⟩
  exact answered_iff smallHost (fun _ => 0) true 1280 800 [] _ _ rfl rfl _ ⟨0, none⟩ (by decide)

end PRDSDevice
end Prds
end Prose
