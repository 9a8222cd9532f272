import Prose.PrdsTraps
/-!
# PrdsCommit — what a commit shows

A commit copies lines from the pool into the display buffer, and what the buffer holds is what an onlooker paints who keeps
the commits since it was last blanked and lays them over black in order (`committed_exact`).
-/
namespace Prose
namespace Prds
namespace PRDSDevice

open Trapping List

variable {host : Host}

/-- The pixel is in a rectangle that was asked for, and in the mode. -/
def Requested (width height : Nat) (req : Bytes) (x y : Nat) : Prop :=
  x < width ∧ y < height ∧ (u32 req 20 = 0 ∨ ∃ i < u32 req 20,
    (u32 req (24 + i * 16) ≤ x ∧ x < u32 req (24 + i * 16) + u32 req (24 + i * 16 + 8)) ∧
    u32 req (24 + i * 16 + 4) ≤ y ∧ y < u32 req (24 + i * 16 + 4) + u32 req (24 + i * 16 + 12))

instance (width height : Nat) (req : Bytes) (x y : Nat) : Decidable (Requested width height req x y) :=
  inferInstanceAs (Decidable (_ ∧ _ ∧ (_ ∨ ∃ i, i < _ ∧ _)))

def Rect.Holds (r : Rect) (x y : Nat) : Prop := (r.x0 ≤ x ∧ x < r.x1) ∧ r.y0 ≤ y ∧ y < r.y1

theorem rectAt_holds {width height : Nat} {req : Bytes} {o x y : Nat} :
    (∃ r, rectAt width height req o = some r ∧ Rect.Holds r x y) ↔ x < width ∧ y < height ∧
      (u32 req o ≤ x ∧ x < u32 req o + u32 req (o + 8)) ∧ u32 req (o + 4) ≤ y ∧ y < u32 req (o + 4) + u32 req (o + 12) := by
  unfold rectAt Rect.Holds
  simp only [Nat.zero_max]
  constructor
  · rintro ⟨r, hr, hx, hy⟩
    split at hr
    · cases hr
      obtain ⟨hx1, hx2⟩ := lt_min_iff.1 hx.2
      obtain ⟨hy1, hy2⟩ := lt_min_iff.1 hy.2
      exact ⟨hx1, hy1, ⟨hx.1, hx2⟩, hy.1, hy2⟩
    · exact nomatch hr
  · rintro ⟨hw, hh, hx, hy⟩
    have hxe : u32 req o < min width (u32 req o + u32 req (o + 8)) := lt_min (by omega) (by omega)
    have hye : u32 req (o + 4) < min height (u32 req (o + 4) + u32 req (o + 12)) := lt_min (by omega) (by omega)
    rw [if_pos ⟨hxe, hye⟩]
    exact ⟨_, rfl, ⟨hx.1, lt_min hw hx.2⟩, hy.1, lt_min hh hy.2⟩

/-- **The clipped rectangles hold the pixels that were asked for.** -/
theorem rectsOf_holds {width height : Nat} {req : Bytes} {x y : Nat} :
    (∃ r ∈ rectsOf width height req, Rect.Holds r x y) ↔ Requested width height req x y := by
  unfold rectsOf Requested
  split
  · rename_i hall
    simp only [mem_singleton, exists_eq_left, Rect.Holds, Nat.zero_le, true_and, hall, true_or, and_true]
  rename_i hsome
  rw [or_iff_right hsome]
  constructor
  · rintro ⟨r, hr, hh⟩
    obtain ⟨i, hi, hr⟩ := mem_filterMap.1 hr
    obtain ⟨hw, hh, hxy⟩ := rectAt_holds.1 ⟨r, hr, hh⟩
    exact ⟨hw, hh, i, mem_range.1 hi, hxy⟩
  · rintro ⟨hw, hh, i, hi, hxy⟩
    obtain ⟨r, hr, hholds⟩ := rectAt_holds.2 ⟨hw, hh, hxy⟩
    exact ⟨r, mem_filterMap.2 ⟨i, mem_range.2 hi, hr⟩, hholds⟩

/-! ## Copying -/

def Copy.Writes (c : Copy) (a : Nat) : Prop := c.dst ≤ a ∧ a < c.dst + c.bytes

theorem foldl_memcpy {pool : Nat → UInt8} {a : Nat} {v : UInt8} : ∀ {l : List Copy} {base : Nat → UInt8},
    (∀ c ∈ l, Copy.Writes c a → pool (c.src + (a - c.dst)) = v) →
    ((∃ c ∈ l, Copy.Writes c a) → l.foldl (memcpy pool) base a = v) ∧
      ((¬ ∃ c ∈ l, Copy.Writes c a) → l.foldl (memcpy pool) base a = base a)
  | [], _, _ => ⟨fun ⟨_, h, _⟩ => absurd h not_mem_nil, fun _ => rfl⟩
  | c :: l, base, hv => by
    have hl := @foldl_memcpy pool a v l (memcpy pool base c) (fun x hx => hv x (mem_cons_of_mem c hx))
    have hone : memcpy pool base c a = if c.dst ≤ a ∧ a < c.dst + c.bytes then pool (c.src + (a - c.dst)) else base a := rfl
    rw [foldl_cons]
    by_cases hrest : ∃ x ∈ l, Copy.Writes x a
    · obtain ⟨x, hx, hw⟩ := hrest
      exact ⟨fun _ => hl.1 ⟨x, hx, hw⟩, fun hn => absurd ⟨x, mem_cons_of_mem c hx, hw⟩ hn⟩
    rw [exists_mem_cons_iff, or_iff_left hrest, hl.2 hrest, hone]
    by_cases hc : Copy.Writes c a
    · rw [if_pos (show c.dst ≤ a ∧ a < c.dst + c.bytes from hc)]
      exact ⟨fun _ => hv c mem_cons_self hc, fun hn => absurd hc hn⟩
    · rw [if_neg (show ¬ (c.dst ≤ a ∧ a < c.dst + c.bytes) from hc)]
      exact ⟨fun h => absurd h hc, fun _ => rfl⟩

theorem linesOf_writes (f : FrameSurface) (mode : PRDSMode host.poolSize) {r : Rect} (hx : r.x1 ≤ maxWidth) {c : Copy}
    (hc : c ∈ linesOf f mode r) (a : Nat) : Copy.Writes c a →
      Rect.Holds r (a % f.stride / 4) (a / f.stride) ∧
        c.src + (a - c.dst) = mode.offset + a / f.stride * mode.stride + a % f.stride := by
  obtain ⟨y, hy, rfl⟩ := mem_map.1 hc
  have hy := mem_range'_1.1 hy
  have hx : r.x1 ≤ 3840 := hx
  change (y * 15360 + r.x0 * 4 ≤ a ∧ a < y * 15360 + r.x0 * 4 + (r.x1 - r.x0) * 4) →
    ((r.x0 ≤ a % 15360 / 4 ∧ a % 15360 / 4 < r.x1) ∧ r.y0 ≤ a / 15360 ∧ a / 15360 < r.y1) ∧
      mode.offset + y * mode.stride + r.x0 * 4 + (a - (y * 15360 + r.x0 * 4)) =
        mode.offset + a / 15360 * mode.stride + a % 15360
  intro ha
  have hdiv : a / 15360 = y := by omega
  have hmod : a % 15360 = a - y * 15360 := by omega
  rw [hdiv, hmod]
  refine ⟨⟨⟨?_, ?_⟩, ?_, ?_⟩, ?_⟩ <;> omega

theorem linesOf_holds (f : FrameSurface) (mode : PRDSMode host.poolSize) {r : Rect} {a : Nat}
    (h : Rect.Holds r (a % f.stride / 4) (a / f.stride)) : ∃ c ∈ linesOf f mode r, Copy.Writes c a := by
  obtain ⟨hx, hy⟩ := h
  refine ⟨_, mem_map.2 ⟨a / f.stride, mem_range'_1.2 ⟨hy.1, ?_⟩, rfl⟩, ?_⟩
  · omega
  · have hx : r.x0 ≤ a % 15360 / 4 ∧ a % 15360 / 4 < r.x1 := hx
    change a / 15360 * 15360 + r.x0 * 4 ≤ a ∧ a < a / 15360 * 15360 + r.x0 * 4 + (r.x1 - r.x0) * 4
    omega

/-- **What a commit makes of the display buffer.** -/
theorem copiesOf_foldl (pool : Nat → UInt8) (f : FrameSurface) (mode : PRDSMode host.poolSize) (req : Bytes) (a : Nat) :
    (copiesOf f mode req).foldl (memcpy pool) f.base a =
      if Requested mode.width mode.height req (a % f.stride / 4) (a / f.stride) then
        pool (mode.offset + a / f.stride * mode.stride + a % f.stride)
      else f.base a := by
  have hcopy : (∃ c ∈ copiesOf f mode req, Copy.Writes c a) ↔
      Requested mode.width mode.height req (a % f.stride / 4) (a / f.stride) := by
    rw [← rectsOf_holds]
    constructor
    · rintro ⟨c, hc, ha⟩
      obtain ⟨r, hr, hc⟩ := mem_flatMap.1 hc
      exact ⟨r, hr, (linesOf_writes f mode (rectsOf_small mode req r hr).1 hc a ha).1⟩
    · rintro ⟨r, hr, hholds⟩
      obtain ⟨c, hc, ha⟩ := linesOf_holds f mode hholds
      exact ⟨c, mem_flatMap.2 ⟨r, hr, hc⟩, ha⟩
  have hall := @foldl_memcpy pool a (pool (mode.offset + a / f.stride * mode.stride + a % f.stride))
    (copiesOf f mode req) f.base (fun c hc ha => by
      obtain ⟨r, hr, hc⟩ := mem_flatMap.1 hc
      rw [(linesOf_writes f mode (rectsOf_small mode req r hr).1 hc a ha).2])
  split
  · rename_i h
    exact hall.1 (hcopy.2 h)
  · rename_i h
    exact hall.2 (fun hc => h (hcopy.1 hc))

/-- **Every copy reads in the range of the mode and writes in the display buffer.** -/
theorem copiesOf_inside (f : FrameSurface) (mode : PRDSMode host.poolSize) (req : Bytes) : ∀ c ∈ copiesOf f mode req,
    mode.offset ≤ c.src ∧ c.src + c.bytes ≤ mode.offset + mode.stride * mode.height ∧ c.dst + c.bytes ≤ f.length := by
  intro c hc
  obtain ⟨r, hr, hc⟩ := mem_flatMap.1 hc
  obtain ⟨y, hy, rfl⟩ := mem_map.1 hc
  have hy := mem_range'_1.1 hy
  obtain ⟨hx, hy'⟩ := rectsOf_inside r hr
  have hfits : mode.width ≤ 3840 ∧ mode.height ≤ 2160 := mode.fits
  have hrow : (y + 1) * mode.stride ≤ mode.height * mode.stride := Nat.mul_le_mul_right _ (by omega)
  have hline := mode.lines.1
  have hlen : 3840 * 4 * 2160 ≤ f.length := f.mapped
  rw [Nat.mul_comm mode.stride, Nat.add_mul] at *
  refine ⟨?_, ?_, ?_⟩
  · change mode.offset ≤ mode.offset + y * mode.stride + r.x0 * 4
    omega
  · change mode.offset + y * mode.stride + r.x0 * 4 + (r.x1 - r.x0) * 4 ≤ _
    omega
  · change y * 15360 + r.x0 * 4 + (r.x1 - r.x0) * 4 ≤ f.length
    omega

/-! ## The onlooker -/

structure Drawn (host : Host) where
  mode : PRDSMode host.poolSize
  req : Bytes
  pool : Nat → UInt8

/-- What is shown at an address behind the commits: black, and each commit laid over what was there. -/
def paint (stride : Nat) (l : List (Drawn host)) (a : Nat) : UInt8 :=
  l.foldl (fun b d =>
    if Requested d.mode.width d.mode.height d.req (a % stride / 4) (a / stride) then
      d.pool (d.mode.offset + a / stride * d.mode.stride + a % stride)
    else b) 0

/-- The commits since the last mode that was accepted, or the last reset. -/
def since (s : PRDSDevice host) (l : List (Drawn host)) : Event → List (Drawn host)
  | .vmDidStop => []
  | .willReset => []
  | .control e m =>
    if e.readBytes.length < 16 then l
    else
      match s.mode, s.command e.readBytes m with
      | mode, some (_, st, _) =>
        if leU32 e.readBytes 0 = cmdSetMode ∧ st = respOK then []
        else if leU32 e.readBytes 0 = cmdCommit ∧ st = respOK then
          l ++ (mode.map fun mode => Drawn.mk mode e.readBytes s.pool).toList
        else l
      | _, none => l
  | _ => l

def watched (x : PRDSDevice host × List (Drawn host)) (e : Event) : Option (PRDSDevice host × List (Drawn host)) :=
  (x.1.step e).map fun s => (s, x.1.since x.2 e)

def Painted (x : PRDSDevice host × List (Drawn host)) : Prop :=
  ∀ f, x.1.surface = some f → ∀ a, a < f.length → f.base a = paint f.stride x.2 a

theorem painted_blank {s : PRDSDevice host} {s' : PRDSDevice host} (h : s'.surface = s.blank.surface) :
    Painted (s', []) := by
  intro f hf a ha
  rw [h] at hf
  obtain ⟨g, -, rfl⟩ := Option.map_eq_some_iff.1 hf
  exact if_pos ha

theorem painted_same {s s' : PRDSDevice host} {l : List (Drawn host)} (hp : Painted (s, l)) (h : s'.surface = s.surface) :
    Painted (s', l) := fun f hf => hp f (h ▸ hf)

theorem painted_committed {s s' : PRDSDevice host} {l : List (Drawn host)} (hp : Painted (s, l)) {f : FrameSurface}
    {mode : PRDSMode host.poolSize} (hf : s.surface = some f) {req : Bytes} {copies : List Copy}
    (hc : copies = copiesOf f mode req) (h : s'.surface = (s.present f mode copies).surface) :
    Painted (s', l ++ [Drawn.mk mode req s.pool]) := by
  intro g hg a ha
  rw [h] at hg
  cases hg
  subst hc
  change (copiesOf f mode req).foldl (memcpy s.pool) f.base a = paint f.stride (l ++ [Drawn.mk mode req s.pool]) a
  rw [copiesOf_foldl, hp f hf a ha]
  unfold paint
  rw [foldl_append]
  rfl

theorem watched_step {x x' : PRDSDevice host × List (Drawn host)} (hs : x.1.Sound) (hp : Painted x) {e : Event}
    (h : watched x e = some x') : x'.1.Sound ∧ Painted x' := by
  obtain ⟨s, l⟩ := x
  obtain ⟨s', hstep, rfl⟩ := Option.map_eq_some_iff.1 h
  refine ⟨step_sound hs e hstep, ?_⟩
  have hclear {t : PRDSDevice host} (h : t.clearPresentation = some s') (ht : t.surface = s.surface) :
      Painted (s', []) := by
    obtain ⟨-, rfl⟩ := bump_eq_some.1 h
    refine painted_blank (s := s) ?_
    unfold blank
    rw [ht]
  cases e with
  | didCreateDevice _ =>
    cases hstep
    exact painted_same hp rfl
  | didMap =>
    cases hstep
    exact painted_same hp rfl
  | vmDidStop => exact hclear hstep rfl
  | willReset => exact hclear hstep rfl
  | windowResized width height =>
    change (if width > 0 ∧ height > 0 ∧ (width ≠ s.prefWidth ∨ height ≠ s.prefHeight) then _ else some s) = some s' at hstep
    split at hstep
    · obtain ⟨d, -, hstep⟩ := Option.bind_eq_some_iff.1 hstep
      cases hstep
      exact painted_same hp rfl
    · cases hstep
      exact hp
  | stats =>
    cases hstep
    exact painted_same hp rfl
  | draws _ =>
    cases hstep
    exact painted_same hp rfl
  | control e m =>
    obtain ⟨⟨t, data⟩, ht, rfl⟩ := Option.map_eq_some_iff.1 hstep
    unfold handle at ht
    dsimp only [since]
    split at ht
    · rename_i hshort
      cases ht
      rw [if_pos hshort]
      exact hp
    rename_i hlong
    rw [if_neg hlong]
    obtain ⟨⟨u, st, payload⟩, hu, ht⟩ := Option.bind_eq_some_iff.1 ht
    cases ht
    rw [hu]
    dsimp only
    have hout := command_outcome hs.counted hu
    cases hout with
    | same _ hst =>
      rw [if_neg (fun h => hst (Or.inl h.1) h.2), if_neg (fun h => hst (Or.inr h.1) h.2)]
      exact hp
    | masked hreq _ =>
      rw [if_neg (fun h => hreq (Or.inl h.1)), if_neg (fun h => hreq (Or.inr h.1))]
      exact painted_same hp rfl
    | blanked hreq mode =>
      rw [if_pos ⟨hreq, rfl⟩]
      exact painted_blank (s := s) rfl
    | committed hreq f mode hf hm _ _ _ =>
      rw [if_neg (fun h => absurd (hreq.symm.trans h.1) (by decide)), if_pos ⟨hreq, rfl⟩, hm]
      exact painted_committed hp hf rfl rfl
    | pane hreq _ _ _ _ _ _ =>
      rw [if_neg (fun h => hreq (Or.inl h.1)), if_neg (fun h => hreq (Or.inr h.1))]
      exact painted_same hp rfl

theorem le32_toNat (v : UInt32) : (le32 v).map UInt8.toNat =
    [v.toNat % 256, v.toNat / 256 % 256, v.toNat / 65536 % 256, v.toNat / 16777216 % 256] := by
  unfold le32
  simp [UInt32.toNat_shiftRight, Nat.shiftRight_eq_div_pow]

theorem le32_inj {v w : UInt32} (h : le32 v = le32 w) : v = w := by
  have hn := congrArg (List.map UInt8.toNat) h
  rw [le32_toNat, le32_toNat] at hn
  simp only [List.cons.injEq, and_true] at hn
  have hv := v.toNat_lt
  have hw := w.toNat_lt
  refine UInt32.toNat_inj.1 ?_
  omega

theorem handle_ok {s s' : PRDSDevice host} {e : Element} {m : Moment} {data : Bytes}
    (h : s.handle e m = some (s', some data)) (hok : data.take 4 = le32 respOK) :
    ∃ payload, s.command e.readBytes m = some (s', respOK, payload) := by
  unfold handle at h
  split at h
  · exact nomatch h
  obtain ⟨⟨u, st, payload⟩, hu, h⟩ := Option.bind_eq_some_iff.1 h
  obtain ⟨rfl, hans⟩ := Prod.mk.inj (Option.some.inj h)
  obtain ⟨status, tail, rfl, hst⟩ : ∃ status tail, data = le32 status ++ tail ∧ (status = respOK → status = st) := by
    unfold answer at hans
    dsimp only at hans
    split at hans
    · obtain ⟨-, hans⟩ := Option.ite_none_right_eq_some.1 hans
      exact ⟨errInvalid, _, (Option.some.inj hans).symm.trans (append_assoc ..), fun h => absurd h (by decide)⟩
    · obtain ⟨-, hans⟩ := Option.ite_none_right_eq_some.1 hans
      refine ⟨st, le32 0 ++ (le64 (leU64 e.readBytes 8) ++ payload), ?_, fun _ => rfl⟩
      rw [← Option.some.inj hans, append_assoc, append_assoc]
  have hstatus := le32_inj hok
  exact ⟨payload, by rw [hu, ← hst hstatus, hstatus]⟩

theorem make_painted {pool : Nat → UInt8} {memory : Bool} {width height : Int} {s : PRDSDevice host}
    (h : make host pool memory width height = some s) : Painted (s, []) := by
  obtain ⟨d, -, h⟩ := Option.bind_eq_some_iff.1 h
  cases h
  intro f hf a _
  cases memory with
  | false => exact nomatch hf
  | true =>
    cases hf
    rfl

/-- **Commits are exact.** In every reachable state, the display buffer holds the commits since the last mode or reset over
black, each with the pool as it was.  And a commit that is answered OK copies inside the mode's range of the pool and
inside the display buffer, and leaves the buffer equal to the front buffer on the pixels that were asked for, and as it
was elsewhere. -/
theorem committed_exact (host : Host) (pool : Nat → UInt8) (memory : Bool) (width height : Int) (es : List Event)
    (s0 s : PRDSDevice host) (l : List (Drawn host)) (hmake : make host pool memory width height = some s0)
    (hrun : Runs.run watched (s0, []) es = some (s, l)) :
    (∀ f, s.surface = some f → ∀ a, a < f.length → f.base a = paint f.stride l a) ∧
    ∀ e m s' data, leU32 e.readBytes 0 = cmdCommit → s.handle e m = some (s', some data) → data.take 4 = le32 respOK →
      ∃ f mode copies f', s.surface = some f ∧ s.mode = some mode ∧
        (rectsOf mode.width mode.height e.readBytes).mapM (copyLines f mode) = some copies ∧
        (∀ c ∈ copies.flatten, (mode.offset ≤ c.src ∧ c.src + c.bytes ≤ mode.offset + mode.stride * mode.height) ∧
          mode.offset + mode.stride * mode.height ≤ host.poolSize ∧ c.dst + c.bytes ≤ f.length) ∧
        s'.surface = some f' ∧ f'.base = copies.flatten.foldl (memcpy s.pool) f.base ∧
        ∀ a, f'.base a =
          if Requested mode.width mode.height e.readBytes (a % f.stride / 4) (a / f.stride) then
            s.pool (mode.offset + a / f.stride * mode.stride + a % f.stride)
          else f.base a := by
  obtain ⟨hs, hp⟩ := Runs.run_inv (I := fun x => x.1.Sound ∧ Painted x) (Q := fun _ _ => True)
    (fun _ _ _ hx _ ht => watched_step hx.1 hx.2 ht) (s := (s0, [])) ⟨make_sound hmake, make_painted hmake⟩
    (Runs.along_iff.2 fun _ _ _ _ _ _ => trivial) hrun
  refine ⟨hp, fun e m s' data hcommit hhandle hok => ?_⟩
  obtain ⟨payload, hc⟩ := handle_ok hhandle hok
  have hout := command_outcome hs.counted hc
  generalize hst : respOK = st at hout
  cases hout with
  | same _ hne => exact absurd hst.symm (hne (Or.inr hcommit))
  | masked hreq _ => exact absurd (Or.inr hcommit) hreq
  | blanked hreq _ => exact absurd (hreq.symm.trans hcommit) (by decide)
  | pane hreq _ _ _ _ _ _ => exact absurd (Or.inr hcommit) hreq
  | committed _ f mode hf hm _ _ _ =>
    refine ⟨f, mode, _, _, hf, hm, mapM_copyLines f mode _, fun c hcop => ?_, rfl, ?_, fun a => ?_⟩
    · have hin := copiesOf_inside f mode e.readBytes c (by unfold copiesOf; rw [flatMap_def]; exact hcop)
      exact ⟨⟨hin.1, hin.2.1⟩, mode.inside, hin.2.2⟩
    · rw [← flatMap_def]
      rfl
    · exact copiesOf_foldl s.pool f mode e.readBytes a

/-- A mode of two pixels is set, the guest draws, and all of it is committed. -/
def firstCommit : List Event :=
  [.didCreateDevice true, .didMap,
    .control ⟨le32 cmdSetMode ++ le32 0 ++ le64 7 ++ le32 0 ++ le32 2 ++ le32 1 ++ le32 64 ++ le32 formatB8G8R8X8 ++
      le32 0 ++ le64 16384, 16⟩ ⟨0, none⟩,
    .draws fun a => a.toUInt8, .control ⟨le32 cmdCommit ++ le32 0 ++ le64 8 ++ le32 0 ++ le32 0, 16⟩ ⟨0, none⟩]

theorem committed_exact_firstCommit : ∃ (s0 s : PRDSDevice smallHost) (l : List (Drawn smallHost)),
    make smallHost (fun _ => 0) true 1280 800 = some s0 ∧ Runs.run watched (s0, []) firstCommit = some (s, l) ∧
    ∀ f, s.surface = some f → ∀ a, a < f.length → f.base a = paint f.stride l a := by
  refine ⟨_, _, _, rfl, rfl, ?_⟩
  exact (committed_exact smallHost (fun _ => 0) true 1280 800 firstCommit _ _ _ rfl rfl).1

end PRDSDevice
end Prds
end Prose
