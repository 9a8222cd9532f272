import Prose.PrdsModel
/-!
# PrdsSteps — what a command can do

A command leaves the device alone, changes the event mask, blanks the display for another mode, copies a commit, or replaces
one pane; and a shader that does not compile writes its complaint into the pool.  `command_outcome` says so once.
-/
namespace Prose
namespace Prds
namespace PRDSDevice

open Trapping List

variable {host : Host}

def blank (s : PRDSDevice host) : PRDSDevice host :=
  { s with
    presented := false
    surface := s.surface.map fun f =>
      { f with width := 0, height := 0, base := fun a => if a < f.length then 0 else f.base a } }

theorem bump_eq_some {s s' : PRDSDevice host} : s.bump = some s' ↔ s.seq + 1 ≤ top ∧ { s with seq := s.seq + 1 } = s' := by
  unfold bump plus word
  rw [Option.bind_eq_bind, Option.bind_eq_some_iff]
  simp only [when_eq_some, Option.some.injEq]
  constructor
  · rintro ⟨_, ⟨h, rfl⟩, hs⟩
    exact ⟨h, hs⟩
  · rintro ⟨h, hs⟩
    exact ⟨_, ⟨h, rfl⟩, hs⟩

theorem clearPresentation_eq (s : PRDSDevice host) : s.clearPresentation = s.blank.bump := rfl

theorem word_eq_some {a n : Nat} : word a = some n ↔ a ≤ top ∧ a = n := when_eq_some

theorem plus_eq_some {a b n : Nat} : plus a b = some n ↔ a + b ≤ top ∧ a + b = n := when_eq_some

theorem times_eq_some {a b n : Nat} : times a b = some n ↔ a * b ≤ top ∧ a * b = n := when_eq_some

/-! ## Panes -/

/-- **A pane the checks let through.** -/
structure Admitted (poolSize : Nat) (p : PaneState) : Prop where
  world : 0 < p.worldWidth ∧ 0 < p.worldHeight
  format : p.format = Pane.formatIndexed8 ∨ p.format = Pane.formatB8G8R8X8
  plane : p.stride * p.worldHeight ≤ p.bufferStride
  planes : p.offset + p.bufferStride * p.buffers ≤ poolSize
  aligned : p.paletteOffset % 4 = 0
  palette : p.paletteOffset + paletteWords p.worldHeight * 4 ≤ poolSize
  front : p.frontOffset = 0 ∨ p.frontOffset + p.bufferStride * p.buffers ≤ poolSize

theorem paneFits_admitted {poolSize : Nat} {p : PaneState} (h : paneFits poolSize p = some true) : Admitted poolSize p := by
  unfold paneFits at h
  split at h
  · rename_i hshape
    obtain ⟨plane, hp, h⟩ := Option.bind_eq_some_iff.1 h
    obtain ⟨-, rfl⟩ := times_eq_some.1 hp
    split at h
    · rename_i hplane
      obtain ⟨planes, hp, h⟩ := Option.bind_eq_some_iff.1 h
      obtain ⟨-, rfl⟩ := times_eq_some.1 hp
      obtain ⟨last, hl, h⟩ := Option.bind_eq_some_iff.1 h
      obtain ⟨-, rfl⟩ := plus_eq_some.1 hl
      split at h
      · rename_i hin
        obtain ⟨last, hl, h⟩ := Option.bind_eq_some_iff.1 h
        obtain ⟨-, rfl⟩ := plus_eq_some.1 hl
        split at h
        · rename_i hpal
          refine ⟨⟨hshape.1, hshape.2.1⟩, hshape.2.2.1, hplane, hin, hshape.2.2.2.1, hpal.1, ?_⟩
          split at h
          · rename_i hfront
            exact Or.inl hfront
          · obtain ⟨last, hl, h⟩ := Option.bind_eq_some_iff.1 h
            obtain ⟨-, rfl⟩ := plus_eq_some.1 hl
            exact Or.inr (of_decide_eq_true (Option.some.inj h))
        · exact absurd h (by simp)
      · exact absurd h (by simp)
    · exact absurd h (by simp)
  · exact absurd h (by simp)

/-- **What holds of a live pane**: it was let through, and so were the buffer it shows and its sprites. -/
structure PaneOk (poolSize : Nat) (p : PaneState) : Prop where
  admitted : Admitted poolSize p
  world : p.worldWidth < 4294967296 ∧ p.worldHeight < 4294967296 ∧ p.stride < 4294967296
  shown : p.bufferIndex < p.buffers
  sprites : p.spriteCount ≤ Pane.maxSprites
  aligned : p.spriteOffset % 4 = 0
  inside : p.spriteOffset + p.spriteCount * Pane.spriteStride ≤ poolSize

theorem paneOk_created {poolSize : Nat} {req : Bytes} {p : PaneState} (hp : paneOf req = some p)
    (hf : paneFits poolSize p = some true) : PaneOk poolSize { p with live := true } := by
  have hadm := paneFits_admitted hf
  unfold paneOf at hp
  obtain ⟨_, -, hp⟩ := Option.bind_eq_some_iff.1 hp
  obtain ⟨_, -, hp⟩ := Option.bind_eq_some_iff.1 hp
  obtain ⟨_, -, hp⟩ := Option.bind_eq_some_iff.1 hp
  obtain ⟨_, -, hp⟩ := Option.bind_eq_some_iff.1 hp
  cases hp
  refine ⟨⟨hadm.1, hadm.2, hadm.3, hadm.4, hadm.5, hadm.6, hadm.7⟩, ?_, ?_, Nat.zero_le _, rfl, ?_⟩
  · exact ⟨UInt32.toNat_lt _, UInt32.toNat_lt _, UInt32.toNat_lt _⟩
  · exact Nat.lt_of_lt_of_le Nat.one_pos (Nat.le_max_left _ _)
  · exact Nat.zero_le _

theorem PaneOk.congr {poolSize : Nat} {p q : PaneState} (h : PaneOk poolSize p)
    (hg : q.format = p.format ∧ q.worldWidth = p.worldWidth ∧ q.worldHeight = p.worldHeight ∧ q.stride = p.stride ∧
      q.buffers = p.buffers ∧ q.offset = p.offset ∧ q.bufferStride = p.bufferStride ∧ q.paletteOffset = p.paletteOffset ∧
      q.frontOffset = p.frontOffset)
    (hs : q.bufferIndex = p.bufferIndex ∧ q.spriteCount = p.spriteCount ∧ q.spriteOffset = p.spriteOffset) :
    PaneOk poolSize q := by
  obtain ⟨h1, h2, h3, h4, h5, h6, h7, h8, h9⟩ := hg
  obtain ⟨h10, h11, h12⟩ := hs
  constructor
  · constructor <;> simp only [h1, h2, h3, h4, h5, h6, h7, h8, h9]
    · exact h.admitted.world
    · exact h.admitted.format
    · exact h.admitted.plane
    · exact h.admitted.planes
    · exact h.admitted.aligned
    · exact h.admitted.palette
    · exact h.admitted.front
  · rw [h2, h3, h4]
    exact h.world
  · rw [h10, h5]
    exact h.shown
  · rw [h11]
    exact h.sprites
  · rw [h12]
    exact h.aligned
  · rw [h11, h12]
    exact h.inside

/-! ## Commits -/

def area (r : Rect) : Nat := (r.x1 - r.x0) * 4 * (r.y1 - r.y0)

def Small (r : Rect) : Prop := r.x1 ≤ maxWidth ∧ r.y1 ≤ maxHeight

theorem area_small {r : Rect} (h : Small r) : (r.x1 - r.x0) * 4 ≤ top ∧ area r ≤ top := by
  unfold Small maxWidth maxHeight at h
  have hw : (r.x1 - r.x0) * 4 ≤ 15360 := by omega
  have ha : area r ≤ 15360 * 2160 := Nat.mul_le_mul hw (by omega)
  unfold top
  omega

theorem rectAt_small {width height : Nat} {req : Bytes} {o : Nat} {r : Rect} (h : rectAt width height req o = some r) :
    (r.x0 < r.x1 ∧ r.x1 ≤ width) ∧ r.y0 < r.y1 ∧ r.y1 ≤ height := by
  unfold rectAt at h
  dsimp only at h
  split at h
  · rename_i hne
    cases h
    exact ⟨⟨hne.1, Nat.min_le_left _ _⟩, hne.2, Nat.min_le_left _ _⟩
  · exact absurd h (by simp)

/-- **The rectangles of a commit lie in the mode.** -/
theorem rectsOf_inside {width height : Nat} {req : Bytes} : ∀ r ∈ rectsOf width height req,
    (r.x0 ≤ r.x1 ∧ r.x1 ≤ width) ∧ r.y0 ≤ r.y1 ∧ r.y1 ≤ height := by
  intro r hr
  unfold rectsOf at hr
  split at hr
  · rw [mem_singleton.1 hr]
    exact ⟨⟨Nat.zero_le _, Nat.le_refl _⟩, Nat.zero_le _, Nat.le_refl _⟩
  · obtain ⟨i, -, hi⟩ := mem_filterMap.1 hr
    have h := rectAt_small hi
    exact ⟨⟨h.1.1.le, h.1.2⟩, h.2.1.le, h.2.2⟩

theorem rectsOf_small (mode : PRDSMode host.poolSize) (req : Bytes) : ∀ r ∈ rectsOf mode.width mode.height req, Small r :=
  fun r hr =>
    have h := rectsOf_inside r hr
    ⟨h.1.2.trans mode.fits.1, h.2.2.trans mode.fits.2⟩

theorem foldlM_countRect : ∀ {l : List Rect} {s : PRDSDevice host}, (∀ r ∈ l, Small r) →
    s.commitRects ≤ top → s.commitBytes ≤ top →
    l.foldlM countRect s = when (s.commitRects + l.length ≤ top ∧ s.commitBytes + (l.map area).sum ≤ top)
      { s with commitRects := s.commitRects + l.length, commitBytes := s.commitBytes + (l.map area).sum }
  | [], s, _, hr, hb => (when_of ⟨hr, hb⟩).symm
  | r :: l, s, hl, _, _ => by
    obtain ⟨hbytes, harea⟩ := area_small (hl r mem_cons_self)
    have hone : countRect s r = when (s.commitRects + 1 ≤ top ∧ s.commitBytes + area r ≤ top)
        { s with commitRects := s.commitRects + 1, commitBytes := s.commitBytes + area r } := by
      unfold countRect times plus word
      rw [when_of hbytes, Option.bind_eq_bind, Option.bind_some]
      refine when_bind_when _ ?_
      rw [when_of (show (r.x1 - r.x0) * 4 * (r.y1 - r.y0) ≤ top from harea), Option.bind_some]
      change (when (s.commitBytes + area r ≤ top) (s.commitBytes + area r)).bind _ = _
      unfold when
      split <;> rfl
    rw [foldlM_cons, hone, when_bind]
    have hlen : (r :: l).length = l.length + 1 := rfl
    have hsum : ((r :: l).map area).sum = area r + (l.map area).sum := rfl
    rw [hlen, hsum]
    split
    · rename_i h
      refine (foldlM_countRect (fun x hx => hl x (mem_cons_of_mem r hx)) h.1 h.2).trans ?_
      simp only [Nat.add_assoc, Nat.add_comm 1]
    · rename_i h
      refine (when_not (fun hh => h ?_)).symm
      omega

/-- The lines of a rectangle in the mode: where they come from and where they go. -/
def linesOf (f : FrameSurface) (mode : PRDSMode host.poolSize) (r : Rect) : List Copy :=
  (List.range' r.y0 (r.y1 - r.y0)).map fun y =>
    { dst := y * f.stride + r.x0 * 4, src := mode.offset + y * mode.stride + r.x0 * 4, bytes := (r.x1 - r.x0) * 4 }

/-- **Copying a rectangle in the mode traps nowhere.** -/
theorem copyLines_eq (f : FrameSurface) (mode : PRDSMode host.poolSize) {r : Rect} (hx : r.x0 ≤ r.x1 ∧ r.x1 ≤ mode.width)
    (hy : r.y1 ≤ mode.height) : copyLines f mode r = some (linesOf f mode r) := by
  have hw : r.x1 ≤ 3840 := hx.2.trans mode.fits.1
  have hh : r.y1 ≤ 2160 := hy.trans mode.fits.2
  unfold copyLines
  rw [mapM_when (P := fun _ => True) (g := fun y => Copy.mk (y * f.stride + r.x0 * 4)
    (mode.offset + y * mode.stride + r.x0 * 4) ((r.x1 - r.x0) * 4)) ?_]
  · exact when_of (fun _ _ => trivial)
  · intro y hin
    have hlt : y < 2160 := by
      have := mem_range'_1.1 hin
      omega
    have hdown : y * f.stride ≤ top := by
      change y * 15360 ≤ 9223372036854775807
      omega
    have hline : y * mode.stride ≤ top :=
      (Nat.mul_le_mul hlt.le mode.lines.2.le).trans (by decide)
    unfold copyLine times word
    rw [when_of (show (r.x1 - r.x0) * 4 ≤ top by unfold top; omega), when_of hdown,
      when_of (show r.x0 * 4 ≤ top by unfold top; omega), when_of hline, when_of trivial]
    rfl

def copiesOf (f : FrameSurface) (mode : PRDSMode host.poolSize) (req : Bytes) : List Copy :=
  (rectsOf mode.width mode.height req).flatMap (linesOf f mode)

theorem mapM_copyLines (f : FrameSurface) (mode : PRDSMode host.poolSize) (req : Bytes) :
    (rectsOf mode.width mode.height req).mapM (copyLines f mode) =
      some ((rectsOf mode.width mode.height req).map (linesOf f mode)) := by
  rw [mapM_when (P := fun _ => True) (g := linesOf f mode) (fun r hr => ?_)]
  · exact when_of (fun _ _ => trivial)
  · have h := rectsOf_inside r hr
    rw [when_of trivial]
    exact copyLines_eq f mode h.1 h.2.2

theorem foldlM_countShape : ∀ {l : List Rect} {s s' : PRDSDevice host}, l.foldlM countShape s = some s' →
    ∃ n, s' = { s with rectHistogram := n }
  | [], s, s', h => ⟨s.rectHistogram, (Option.some.inj h).symm⟩
  | r :: l, s, s', h => by
    rw [foldlM_cons, Option.bind_eq_bind, Option.bind_eq_some_iff] at h
    obtain ⟨t, ht, h⟩ := h
    obtain ⟨n, -, ht⟩ := Option.bind_eq_some_iff.1 ht
    cases ht
    obtain ⟨n', rfl⟩ := foldlM_countShape h
    exact ⟨n', rfl⟩

/-! ## Outcomes -/

/-- The device behind a commit of these pixels, with these counters. -/
def committed (s : PRDSDevice host) (f : FrameSurface) (mode : PRDSMode host.poolSize) (req : Bytes) (m : Moment)
    (shapes : Rect → Nat) : PRDSDevice host :=
  { s.present f mode (copiesOf f mode req) with
    rectHistogram := shapes
    commitRects := s.commitRects + (rectsOf mode.width mode.height req).length
    commitBytes := s.commitBytes + ((rectsOf mode.width mode.height req).map area).sum
    copyNanos := s.copyNanos + m.elapsed.toNat
    copyMaxNanos := max s.copyMaxNanos m.elapsed.toNat
    commits := s.commits + 1
    seq := s.seq + 1 }

def Shows (req : Bytes) : Prop := leU32 req 0 = cmdSetMode ∨ leU32 req 0 = cmdCommit

/-- **What a command can make of the device.** -/
inductive Outcome (s : PRDSDevice host) (req : Bytes) (m : Moment) : PRDSDevice host → UInt32 → Prop
  | same (status : UInt32) (hst : Shows req → status ≠ respOK) : Outcome s req m s status
  | masked (hreq : ¬ Shows req) (eventMask : UInt32) : Outcome s req m { s with eventMask } respOK
  | blanked (hreq : leU32 req 0 = cmdSetMode) (mode : Option (PRDSMode host.poolSize)) :
      Outcome s req m { { s with mode }.blank with seq := s.seq + 1 } respOK
  | committed (hreq : leU32 req 0 = cmdCommit) (f : FrameSurface) (mode : PRDSMode host.poolSize)
      (hf : s.surface = some f) (hm : s.mode = some mode)
      (shapes : Rect → Nat) (hr : s.commitRects + (rectsOf mode.width mode.height req).length ≤ top)
      (hb : s.commitBytes + ((rectsOf mode.width mode.height req).map area).sum ≤ top) :
      Outcome s req m (s.committed f mode req m shapes) respOK
  | pane (hreq : ¬ Shows req) (id : Nat) (h : id < Pane.maxPanes) (p : PaneState)
      (hp : p.live = true → (s.paneTable[id].live = true → PaneOk host.poolSize s.paneTable[id]) → PaneOk host.poolSize p)
      (pool : Nat → UInt8) (seq : Nat) (status : UInt32) :
      Outcome s req m { s with pool, paneTable := s.paneTable.set id p, seq } status

theorem setMode_outcome {s s' : PRDSDevice host} {req : Bytes} {st : UInt32}
    (h : s.setMode req = some (s', st)) :
    (s' = s ∧ st ≠ respOK) ∨ ∃ mode, s' = { { s with mode }.blank with seq := s.seq + 1 } ∧ st = respOK := by
  have herr {e : UInt32} (he : e ≠ respOK) (h : some (s, e) = some (s', st)) : (s' = s ∧ st ≠ respOK) ∨
      ∃ mode, s' = { { s with mode }.blank with seq := s.seq + 1 } ∧ st = respOK := by
    cases h
    exact Or.inl ⟨rfl, he⟩
  have hclear {t : PRDSDevice host} (mode : Option (PRDSMode host.poolSize)) (ht : t = { s with mode })
      (h : (do let s ← t.clearPresentation; some (s, respOK)) = some (s', st)) : (s' = s ∧ st ≠ respOK) ∨
      ∃ mode, s' = { { s with mode }.blank with seq := s.seq + 1 } ∧ st = respOK := by
    obtain ⟨u, hu, h⟩ := Option.bind_eq_some_iff.1 h
    cases h
    obtain ⟨-, rfl⟩ := bump_eq_some.1 hu
    exact Or.inr ⟨mode, by rw [ht]; rfl, rfl⟩
  unfold setMode at h
  split at h
  · exact herr (by decide) h
  obtain ⟨offset, -, h⟩ := Option.bind_eq_some_iff.1 h
  split at h
  · exact herr (by decide) h
  split at h
  · exact hclear none rfl h
  split at h
  · split at h
    · obtain ⟨plane, -, h⟩ := Option.bind_eq_some_iff.1 h
      obtain ⟨_, -, h⟩ := Option.bind_eq_some_iff.1 h
      split at h
      · exact hclear _ rfl h
      · exact herr (by decide) h
    · exact herr (by decide) h
  · exact herr (by decide) h

def Counted (s : PRDSDevice host) : Prop := s.commitRects ≤ top ∧ s.commitBytes ≤ top

theorem commit_outcome {s s' : PRDSDevice host} (hc : s.Counted) {req : Bytes} {m : Moment} {st : UInt32}
    (h : s.commit req m = some (s', st)) :
    (s' = s ∧ st ≠ respOK) ∨ ∃ f mode shapes, s.surface = some f ∧ s.mode = some mode ∧
      s.commitRects + (rectsOf mode.width mode.height req).length ≤ top ∧
      s.commitBytes + ((rectsOf mode.width mode.height req).map area).sum ≤ top ∧
      s' = s.committed f mode req m shapes ∧ st = respOK := by
  have herr {e : UInt32} (he : e ≠ respOK) (h : some (s, e) = some (s', st)) : s' = s ∧ st ≠ respOK := by
    cases h
    exact ⟨rfl, he⟩
  unfold commit at h
  split at h
  · rename_i mode f hm hf
    split at h
    · exact Or.inl (herr (by decide) h)
    dsimp only at h
    split at h
    · exact Or.inl (herr (by decide) h)
    obtain ⟨t, ht, h⟩ := Option.bind_eq_some_iff.1 h
    have hshapes : ∃ n, t = { s with rectHistogram := n } := by
      split at ht
      · exact foldlM_countShape ht
      · exact ⟨s.rectHistogram, (Option.some.inj ht).symm⟩
    obtain ⟨shapes, rfl⟩ := hshapes
    obtain ⟨copies, hcop, h⟩ := Option.bind_eq_some_iff.1 h
    rw [mapM_copyLines] at hcop
    cases hcop
    obtain ⟨u, hu, h⟩ := Option.bind_eq_some_iff.1 h
    have hcount := (foldlM_countRect (rectsOf_small mode req) (by exact hc.1) (by exact hc.2)).symm.trans hu
    obtain ⟨⟨hr, hb⟩, rfl⟩ := when_eq_some.1 hcount
    obtain ⟨nanos, hn, h⟩ := Option.bind_eq_some_iff.1 h
    obtain ⟨-, rfl⟩ := when_eq_some.1 hn
    obtain ⟨commits, hcm, h⟩ := Option.bind_eq_some_iff.1 h
    obtain ⟨-, rfl⟩ := plus_eq_some.1 hcm
    obtain ⟨v, hv, h⟩ := Option.bind_eq_some_iff.1 h
    obtain ⟨-, rfl⟩ := bump_eq_some.1 hv
    cases h
    refine Or.inr ⟨f, mode, shapes, hf, hm, hr, hb, ?_, rfl⟩
    unfold committed copiesOf
    rw [flatMap_def]
    rfl
  · exact Or.inl (herr (by decide) h)

section

variable {s s' : PRDSDevice host} {req : Bytes} {m : Moment} {st : UInt32} (hreq : ¬ Shows req)
include hreq

theorem outcome_same {e : UInt32} (h : some (s, e) = some (s', st)) : Outcome s req m s' st := by
  cases h
  exact .same _ (fun h => absurd h hreq)

theorem outcome_pane {id : Nat} (hid : id < Pane.maxPanes) {p : PaneState}
    (hp : p.live = true → (s.paneTable[id].live = true → PaneOk host.poolSize s.paneTable[id]) → PaneOk host.poolSize p)
    (h : (do let s ← { s with paneTable := s.paneTable.set id p }.bump; some (s, respOK)) = some (s', st)) :
    Outcome s req m s' st := by
  obtain ⟨u, hu, h⟩ := Option.bind_eq_some_iff.1 h
  obtain ⟨-, rfl⟩ := bump_eq_some.1 hu
  cases h
  exact .pane hreq id hid p hp s.pool _ _

theorem paneCreate_outcome (h : s.paneCreate req = some (s', st)) : Outcome s req m s' st := by
  unfold paneCreate at h
  split at h
  · exact outcome_same hreq h
  split at h
  · rename_i hid
    obtain ⟨p, hp, h⟩ := Option.bind_eq_some_iff.1 h
    obtain ⟨fits, hf, h⟩ := Option.bind_eq_some_iff.1 h
    cases fits with
    | false => exact outcome_same hreq h
    | true => exact outcome_pane hreq hid (fun _ _ => paneOk_created hp hf) h
  · exact outcome_same hreq h

theorem paneConfig_outcome (h : s.paneConfig req = some (s', st)) : Outcome s req m s' st := by
  unfold paneConfig at h
  split at h
  · exact outcome_same hreq h
  split at h
  · rename_i hid
    dsimp only at h
    split at h
    · exact outcome_same hreq h
    split at h
    · exact outcome_same hreq h
    · refine outcome_pane hreq hid (fun hlive hok => ?_) h
      exact (hok hlive).congr ⟨rfl, rfl, rfl, rfl, rfl, rfl, rfl, rfl, rfl⟩ ⟨rfl, rfl, rfl⟩
  · exact outcome_same hreq h

theorem panePresent_outcome (h : s.panePresent req = some (s', st)) : Outcome s req m s' st := by
  unfold panePresent at h
  split at h
  · exact outcome_same hreq h
  split at h
  · rename_i hid
    obtain ⟨offset, ho, h⟩ := Option.bind_eq_some_iff.1 h
    obtain ⟨fits, hf, h⟩ := Option.bind_eq_some_iff.1 h
    cases fits with
    | false => exact outcome_same hreq h
    | true =>
      dsimp only at h
      rw [if_neg (by decide)] at h
      split at h
      · exact outcome_same hreq h
      split at h
      · exact outcome_same hreq h
      rename_i hidx
      split at hf
      · rename_i hs
        obtain ⟨last, hl, hf⟩ := Option.bind_eq_some_iff.1 hf
        obtain ⟨-, rfl⟩ := plus_eq_some.1 hl
        refine outcome_pane hreq hid (fun hlive hok => ?_) h
        have hadm := (hok hlive).admitted
        refine ⟨⟨hadm.1, hadm.2, hadm.3, hadm.4, hadm.5, hadm.6, hadm.7⟩, (hok hlive).world, ?_, hs.1, hs.2, ?_⟩
        · exact Decidable.not_not.1 hidx
        · exact of_decide_eq_true (Option.some.inj hf)
      · exact absurd (Option.some.inj hf) (by decide)
  · exact outcome_same hreq h

theorem paneDestroy_outcome (h : s.paneDestroy req = some (s', st)) : Outcome s req m s' st := by
  unfold paneDestroy at h
  split at h
  · exact outcome_same hreq h
  split at h
  · rename_i hid
    exact outcome_pane hreq hid (fun hlive _ => absurd hlive (by decide)) h
  · exact outcome_same hreq h

theorem paneShader_outcome (h : s.paneShader req m = some (s', st)) : Outcome s req m s' st := by
  have hset {pool : Nat → UInt8} {seq : Nat} {e : UInt32} {id : Nat} (hid : id < Pane.maxPanes) (filter : Bool)
      (source : Option Bytes) : Outcome s req m { s.setShader id hid filter source with pool, seq } e := by
    refine .pane hreq id hid _ (fun hlive hok => ?_) pool seq e
    cases filter
    · exact (hok hlive).congr ⟨rfl, rfl, rfl, rfl, rfl, rfl, rfl, rfl, rfl⟩ ⟨rfl, rfl, rfl⟩
    · exact (hok hlive).congr ⟨rfl, rfl, rfl, rfl, rfl, rfl, rfl, rfl, rfl⟩ ⟨rfl, rfl, rfl⟩
  have hdone {id : Nat} (hid : id < Pane.maxPanes) (filter : Bool) (source : Option Bytes)
      (h : (do let s ← (s.setShader id hid filter source).bump; some (s, respOK)) = some (s', st)) :
      Outcome s req m s' st := by
    obtain ⟨u, hu, h⟩ := Option.bind_eq_some_iff.1 h
    obtain ⟨-, rfl⟩ := bump_eq_some.1 hu
    cases h
    exact hset hid filter source
  unfold paneShader at h
  split at h
  · exact outcome_same hreq h
  split at h
  · rename_i hid
    obtain ⟨offset, -, h⟩ := Option.bind_eq_some_iff.1 h
    obtain ⟨fits, -, h⟩ := Option.bind_eq_some_iff.1 h
    split at h
    · exact outcome_same hreq h
    split at h
    · exact hdone hid _ _ h
    split at h
    · exact outcome_same hreq h
    · exact hdone hid _ _ h
    · cases h
      exact hset hid _ _
  · exact outcome_same hreq h

end

/-- **Every command has one of the outcomes.** -/
theorem command_outcome {s s' : PRDSDevice host} {req : Bytes} {m : Moment} {st : UInt32} (hc : s.Counted) {payload : Bytes} (h : s.command req m = some (s', st, payload)) :
    Outcome s req m s' st := by
  have hbare {o : Option (PRDSDevice host × UInt32)} (ho : ∀ t e, o = some (t, e) → Outcome s req m t e)
      (h : o.map (fun x => (x.1, x.2, ([] : Bytes))) = some (s', st, payload)) : Outcome s req m s' st := by
    obtain ⟨⟨t, e⟩, hx, he⟩ := Option.map_eq_some_iff.1 h
    cases he
    exact ho t e hx
  unfold command at h
  dsimp only at h
  split at h
  · rename_i hmode
    refine hbare (fun t e ht => ?_) h
    rcases setMode_outcome ht with ⟨rfl, hst⟩ | ⟨mode, rfl, rfl⟩
    · exact .same _ (fun _ => hst)
    · exact .blanked hmode mode
  rename_i hmode
  split at h
  · rename_i hcommit
    refine hbare (fun t e ht => ?_) h
    rcases commit_outcome hc ht with ⟨rfl, hst⟩ | ⟨f, mode, shapes, hf, hm, hr, hb, rfl, rfl⟩
    · exact .same _ (fun _ => hst)
    · exact .committed hcommit f mode hf hm shapes hr hb
  rename_i hcommit
  have hreq : ¬ Shows req := not_or.2 ⟨hmode, hcommit⟩
  split at h
  · split at h
    · cases h
      exact .same _ (fun h => absurd h hreq)
    · cases h
      exact .masked hreq _
  split at h
  · obtain ⟨d, -, he⟩ := Option.map_eq_some_iff.1 h
    cases he
    exact .same _ (fun h => absurd h hreq)
  split at h
  · exact hbare (fun _ _ => paneCreate_outcome hreq) h
  split at h
  · exact hbare (fun _ _ => paneConfig_outcome hreq) h
  split at h
  · exact hbare (fun _ _ => panePresent_outcome hreq) h
  split at h
  · exact hbare (fun _ _ => paneDestroy_outcome hreq) h
  split at h
  · exact hbare (fun _ _ => paneShader_outcome hreq) h
  · cases h
    exact .same _ (fun h => absurd h hreq)

end PRDSDevice
end Prds
end Prose
