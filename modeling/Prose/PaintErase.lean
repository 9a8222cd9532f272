import Prose.PaintWhole
/-!
# PaintErase — `DabErase`, and what an eraser leaves

Erasing multiplies: a pixel's alpha by what the eraser lets through, and its colours by the alpha that is left.  So a stroke of
the eraser comes to one amount for each pixel, and a run of strokes to a list of them.
-/
namespace Prose
namespace Paint

open List

/-! ## A run of the eraser -/

/-- A call of `DabErase`. -/
structure EraserDab where
  x : Int
  y : Int
  mask : Option Mask
  flow : UInt8

inductive Erasing
  | stroke (layer : Int) (opacity : UInt8) (dabs : List EraserDab)
  | dab (layer : Int) (e : EraserDab)

def Erasing.layer : Erasing → Int
  | .stroke layer _ _ => layer
  | .dab layer _      => layer

def Erasing.dabs : Erasing → List EraserDab
  | .stroke _ _ dabs => dabs
  | .dab _ e         => [e]

def PPDocument.eraserDab (d : PPDocument) (e : EraserDab) : PPDocument := d.dabErase e.x e.y e.mask e.flow

def PPDocument.erase (d : PPDocument) : Erasing → PPDocument
  | .stroke layer opacity dabs => (dabs.foldl PPDocument.eraserDab ((d.setActiveLayer layer).strokeBegin opacity)).strokeEnd
  | .dab layer e               => (d.setActiveLayer layer).eraserDab e

def PPDocument.erases (d : PPDocument) (es : List Erasing) : PPDocument := es.foldl PPDocument.erase d

/-! ## What it should do -/

def PPDocument.pixelAt (d : PPDocument) (i x y : Nat) : Option Pixel := d.fLayers[i]?.map (fun l => l.bits.pixel x y)

def isFirst (id : Int) : List Int → Nat → Bool
  | [], _          => false
  | a :: _, 0      => a = id
  | a :: as, i + 1 => a ≠ id && isFirst id as i

def aim (ids : List Int) (active layer : Int) : Int := if layer ∈ ids then layer else active

def aimed (ids : List Int) (i : Nat) : Int → List Erasing → List Erasing
  | _, []           => []
  | active, e :: es =>
    if aim ids active e.layer ≠ 0 ∧ isFirst (aim ids active e.layer) ids i then e :: aimed ids i (aim ids active e.layer) es
    else aimed ids i (aim ids active e.layer) es

def PPDocument.aimed (d : PPDocument) (es : List Erasing) (i : Nat) : List Erasing :=
  Paint.aimed (d.fLayers.map (·.id)) i d.fActiveId es

def EraserDab.amount (e : EraserDab) (width height x y : Nat) : Nat :=
  match e.mask with
  | none      => 0
  | some mask =>
    let x0 := e.x - mask.maskSize / 2
    let y0 := e.y - mask.maskSize / 2
    if x < width ∧ y < height ∧ (maskRect x0 y0 mask.maskSize).Contains x y then
      mask.flowed e.flow (x - x0).toNat (y - y0).toNat
    else 0

/-- What a stroke takes from a pixel: stamps within it never build up. -/
def Erasing.amount (e : Erasing) (width height x y : Nat) : Nat :=
  match e with
  | .stroke _ opacity dabs => (dabs.foldl (fun m e => max m (e.amount width height x y)) 0) * opacity.toNat / 255
  | .dab _ e               => e.amount width height x y

def EraserDab.Covers (e : EraserDab) (x y : Nat) : Prop :=
  ∃ mask ∈ e.mask, (maskRect (e.x - mask.maskSize / 2) (e.y - mask.maskSize / 2) mask.maskSize).Contains x y ∧
    mask.byte (x - (e.x - mask.maskSize / 2)).toNat (y - (e.y - mask.maskSize / 2)).toNat ≠ 0

def PPDocument.amounts (d : PPDocument) (es : List Erasing) (i x y : Nat) : List Nat :=
  (d.aimed es i).map (fun e => e.amount d.fWidth d.fHeight x y)

def fade (ms : List Nat) (a : Nat) : Nat := ms.foldl (fun a m => a * (255 - m) / 255) a

def Pixel.SameColour (p q : Pixel) : Prop := p.b = q.b ∧ p.g = q.g ∧ p.r = q.r

def Pixel.Black (p : Pixel) : Prop := p.b = 0 ∧ p.g = 0 ∧ p.r = 0

/-- **Erasing only removes coverage**: alpha never grows, a pixel outside the masks stays, and what keeps some alpha keeps its
colour. -/
def PPDocument.OnlyUncovers (d : PPDocument) (es : List Erasing) : Prop :=
  (d.erases es).fLayers.length = d.fLayers.length ∧
  ∀ i x y p p', d.pixelAt i x y = some p → (d.erases es).pixelAt i x y = some p' →
    p'.a ≤ p.a ∧ ((∀ e ∈ d.aimed es i, ∀ b ∈ e.dabs, ¬ b.Covers x y) → p' = p) ∧ (0 < p'.a → p'.SameColour p)

/-! ## A pixel -/

def erasePixels (ms : List Nat) (p : Pixel) : Pixel := ms.foldl (fun p m => erasePixel m p) p

theorem scaled_lt {c a : Nat} (hc : 0 < c) (ha : a < 255) : c * a / 255 < c := by
  have h : c * a < c * 255 := Nat.mul_lt_mul_of_pos_left ha hc
  rw [Nat.mul_comm c 255] at h
  exact Nat.div_lt_of_lt_mul h

theorem through_le (a m : Nat) : a * (255 - m) / 255 ≤ a := by
  have h : a * (255 - m) ≤ a * 255 := Nat.mul_le_mul_left a (Nat.sub_le 255 m)
  rw [Nat.mul_comm a 255] at h
  exact Nat.div_le_of_le_mul h

theorem through_lt {a m : Nat} (ha : a < 256) (hm : m ≠ 0) : a * (255 - m) / 255 < 255 := by
  have h : a * (255 - m) ≤ 255 * 254 := Nat.mul_le_mul (by omega) (by omega)
  omega

theorem toNat_ofNat_of_lt {n : Nat} (h : n < 256) : (UInt8.ofNat n).toNat = n := by
  rw [UInt8.toNat_ofNat', Nat.mod_eq_of_lt h]

theorem erasePixel_a (m : Nat) (p : Pixel) : (erasePixel m p).a.toNat = p.a.toNat * (255 - m) / 255 := by
  unfold erasePixel
  split_ifs with hm
  · rw [hm, Nat.sub_zero, Nat.mul_div_cancel _ (by decide)]
  · exact toNat_ofNat_of_lt (Nat.lt_of_le_of_lt (through_le _ _) (UInt8.toNat_lt _))

theorem erasePixels_a : ∀ (ms : List Nat) (p : Pixel), (erasePixels ms p).a.toNat = fade ms p.a.toNat
  | [], _ => rfl
  | m :: ms, p => (erasePixels_a ms (erasePixel m p)).trans (congrArg (fade ms) (erasePixel_a m p))

theorem fade_le : ∀ (ms : List Nat) (a : Nat), fade ms a ≤ a
  | [], a => Nat.le_refl a
  | m :: ms, a => Nat.le_trans (fade_le ms _) (through_le a m)

theorem erasePixels_zero : ∀ {ms : List Nat}, (∀ m ∈ ms, m = 0) → ∀ p, erasePixels ms p = p
  | [], _, _ => rfl
  | m :: ms, h, p => by
    obtain ⟨rfl, hms⟩ := forall_mem_cons.1 h
    exact (erasePixels_zero hms (erasePixel 0 p)).trans (erasePixel_zero p)

def Scaled (f : Pixel → UInt8) : Prop :=
  ∀ m p, m ≠ 0 → (f (erasePixel m p)).toNat = (f p).toNat * (p.a.toNat * (255 - m) / 255) / 255

theorem scaled_channel (c : UInt8) (p : Pixel) {m : Nat} (hm : m ≠ 0) :
    (UInt8.ofNat (c.toNat * (p.a.toNat * (255 - m) / 255) / 255)).toNat = c.toNat * (p.a.toNat * (255 - m) / 255) / 255 := by
  refine toNat_ofNat_of_lt ?_
  have h : c.toNat * (p.a.toNat * (255 - m) / 255) ≤ 255 * 255 :=
    Nat.mul_le_mul (Nat.le_of_lt_succ c.toNat_lt) (Nat.le_of_lt (through_lt p.a.toNat_lt hm))
  omega

theorem scaled_b : Scaled Pixel.b := by
  intro m p hm
  rw [erasePixel, if_neg hm]
  exact scaled_channel p.b p hm

theorem scaled_g : Scaled Pixel.g := by
  intro m p hm
  rw [erasePixel, if_neg hm]
  exact scaled_channel p.g p hm

theorem scaled_r : Scaled Pixel.r := by
  intro m p hm
  rw [erasePixel, if_neg hm]
  exact scaled_channel p.r p hm

/-- **A channel stays when it is 0 or nothing is erased, and falls otherwise.** -/
theorem Scaled.erasePixels {f : Pixel → UInt8} (hf : Scaled f) : ∀ (ms : List Nat) (p : Pixel),
    (f (erasePixels ms p)).toNat ≤ (f p).toNat ∧ (f (erasePixels ms p) = f p ↔ f p = 0 ∨ ∀ m ∈ ms, m = 0)
  | [], p => ⟨Nat.le_refl _, fun _ => .inr (fun _ hm => (nomatch hm)), fun _ => rfl⟩
  | m :: ms, p => by
    obtain ⟨hle, hiff⟩ := hf.erasePixels ms (erasePixel m p)
    have hcons : Paint.erasePixels (m :: ms) p = Paint.erasePixels ms (erasePixel m p) := rfl
    rw [hcons, forall_mem_cons]
    by_cases hm : m = 0
    · subst hm
      rw [erasePixel_zero] at hle hiff ⊢
      exact ⟨hle, hiff.trans (or_congr_right ⟨fun h => ⟨rfl, h⟩, fun h => h.2⟩)⟩
    have hscale := hf m p hm
    by_cases hc : f p = 0
    · have hzero : f (erasePixel m p) = 0 := by
        rw [← UInt8.toNat_inj, hscale, hc]
        simp
      rw [hzero] at hle
      refine ⟨Nat.le_trans hle (Nat.zero_le _), fun _ => .inl hc, fun _ => ?_⟩
      rw [hc, ← UInt8.toNat_inj]
      exact Nat.le_zero.1 hle
    · have hpos : 0 < (f p).toNat := Nat.pos_of_ne_zero (fun h0 => hc (UInt8.toNat_inj.1 h0))
      have hlt := scaled_lt hpos (through_lt p.a.toNat_lt hm)
      rw [← hscale] at hlt
      have hlt' := Nat.lt_of_le_of_lt hle hlt
      refine ⟨Nat.le_of_lt hlt', fun h => ?_, fun h => ?_⟩
      · rw [h] at hlt'
        exact absurd hlt' (Nat.lt_irrefl _)
      · rcases h with h | h
        · exact absurd h hc
        · exact absurd h.1 hm

theorem sameColour_erasePixels (ms : List Nat) (p : Pixel) :
    (erasePixels ms p).SameColour p ↔ (∃ m ∈ ms, m ≠ 0) → p.Black := by
  unfold Pixel.SameColour Pixel.Black
  rw [(scaled_b.erasePixels ms p).2, (scaled_g.erasePixels ms p).2, (scaled_r.erasePixels ms p).2]
  constructor
  · rintro ⟨hb, hg, hr⟩ ⟨m, hm, hne⟩
    have hsome : ¬ ∀ m ∈ ms, m = 0 := fun h => hne (h m hm)
    exact ⟨hb.resolve_right hsome, hg.resolve_right hsome, hr.resolve_right hsome⟩
  · intro h
    by_cases hsome : ∃ m ∈ ms, m ≠ 0
    · obtain ⟨hb, hg, hr⟩ := h hsome
      exact ⟨.inl hb, .inl hg, .inl hr⟩
    · have hnone : ∀ m ∈ ms, m = 0 := fun m hm => not_not.1 (fun hne => hsome ⟨m, hm, hne⟩)
      exact ⟨.inr hnone, .inr hnone, .inr hnone⟩

/-! ## A layer -/

theorem getElem?_of_isFirst {id : Int} : ∀ {ls : List PPLayer} {i : Nat}, isFirst id (ls.map (·.id)) i = true → ls[i]? = layerById ls id
  | [], _, h => by cases h
  | l :: ls, 0, h => by
    rw [layerById_cons, if_pos (of_decide_eq_true h)]
    rfl
  | l :: ls, i + 1, h => by
    obtain ⟨hne, hi⟩ := Bool.and_eq_true_iff.1 h
    rw [layerById_cons, if_neg (of_decide_eq_true hne), getElem?_cons_succ, getElem?_of_isFirst hi]

theorem isFirst_of_none {id : Int} : ∀ {ls : List PPLayer} (i : Nat), layerById ls id = none → isFirst id (ls.map (·.id)) i = false
  | [], _, _ => rfl
  | l :: ls, i, h => by
    rw [layerById_cons] at h
    split_ifs at h with hl
    cases i with
    | zero => exact decide_eq_false hl
    | succ i =>
      show (decide (l.id ≠ id) && _) = false
      rw [isFirst_of_none i h, Bool.and_false]

theorem getElem?_setBits (id : Int) (m : BBitmap) : ∀ (ls : List PPLayer) (i : Nat),
    (setBits id m ls)[i]? = if isFirst id (ls.map (·.id)) i then ls[i]?.map (fun l => { l with bits := m }) else ls[i]?
  | [], i => by cases i <;> rfl
  | l :: ls, 0 => by
    rw [setBits_cons, map_cons, isFirst]
    by_cases h : l.id = id
    · rw [if_pos h, if_pos (decide_eq_true h)]
      rfl
    · rw [if_neg h, if_neg (by rw [decide_eq_true_eq]; exact h)]
      rfl
  | l :: ls, i + 1 => by
    rw [setBits_cons]
    by_cases h : l.id = id
    · rw [if_pos h, if_neg (by simp [isFirst, h])]
      rfl
    · rw [if_neg h, getElem?_cons_succ, getElem?_cons_succ, getElem?_setBits id m ls i]
      simp [isFirst, h]

/-- The amounts `k` taken from a bitmap. -/
def BBitmap.erased (m : BBitmap) (k : Nat → Nat → Nat) : BBitmap := { m with pixel := fun x y => erasePixel (k x y) (m.pixel x y) }

theorem erased_zero {m : BBitmap} {k : Nat → Nat → Nat} (h : ∀ x y, k x y = 0) : m.erased k = m :=
  BBitmap.ext_pixel rfl rfl (fun x y => (congrArg (fun n => erasePixel n _) (h x y)).trans (erasePixel_zero _))

/-- The layers of a document from whose active layer the amounts `k` are taken. -/
def PPDocument.layersErased (d : PPDocument) (k : Nat → Nat → Nat) : List PPLayer :=
  match d.activeLayer with
  | none   => d.fLayers
  | some l => setBits d.fActiveId (l.bits.erased k) d.fLayers

theorem layersErased_zero (d : PPDocument) {k : Nat → Nat → Nat} (h : ∀ x y, k x y = 0) : d.layersErased k = d.fLayers := by
  unfold PPDocument.layersErased
  split
  · rfl
  · rename_i l hl
    rw [erased_zero h, setBits_self (activeLayer_eq_some hl)]

theorem layersErased_pixelAt (d : PPDocument) (k : Nat → Nat → Nat) (i x y : Nat) :
    (d.layersErased k)[i]?.map (fun l => l.bits.pixel x y) =
      (d.pixelAt i x y).map
        (erasePixel (if d.fActiveId ≠ 0 ∧ isFirst d.fActiveId (d.fLayers.map (·.id)) i then k x y else 0)) := by
  have hsame (o : Option Pixel) : o.map (erasePixel 0) = o := by
    cases o with
    | none => rfl
    | some p => exact congrArg some (erasePixel_zero p)
  unfold PPDocument.layersErased PPDocument.pixelAt
  cases hl : d.activeLayer with
  | none =>
    have hno : ¬ (d.fActiveId ≠ 0 ∧ isFirst d.fActiveId (d.fLayers.map (·.id)) i = true) := by
      rintro ⟨h0, hfirst⟩
      rw [PPDocument.activeLayer, if_pos h0] at hl
      rw [isFirst_of_none i hl] at hfirst
      cases hfirst
    rw [if_neg hno, hsame]
  | some l =>
    have h0 : d.fActiveId ≠ 0 := fun h0 => by
      rw [PPDocument.activeLayer, if_neg (not_not.2 h0)] at hl
      cases hl
    have hlayer := activeLayer_eq_some hl
    dsimp only
    rw [getElem?_setBits]
    by_cases hfirst : isFirst d.fActiveId (d.fLayers.map (·.id)) i = true
    · rw [if_pos hfirst, if_pos ⟨h0, hfirst⟩, getElem?_of_isFirst hfirst, hlayer]
      rfl
    · rw [if_neg hfirst, if_neg (fun h => hfirst h.2), hsame]

theorem setActiveLayer_fActiveId (d : PPDocument) (id : Int) :
    (d.setActiveLayer id).fActiveId = aim (d.fLayers.map (·.id)) d.fActiveId id := by
  have hmem : (layerById d.fLayers id).isSome ↔ id ∈ d.fLayers.map (·.id) := layerById_isSome.trans mem_map.symm
  unfold PPDocument.setActiveLayer aim
  by_cases h : id ∈ d.fLayers.map (·.id)
  · rw [if_pos (hmem.2 h), if_pos h]
  · rw [if_neg (fun hs => h (hmem.1 hs)), if_neg h]

/-! ## A stroke -/

theorem underMask_eq (width height : Nat) (e : EraserDab) {mask : Mask} (he : e.mask = some mask) {g : Nat → Pixel → Pixel}
    (hg : ∀ p, g 0 p = p) (m : BBitmap) :
    underMask width height (e.x - mask.maskSize / 2) (e.y - mask.maskSize / 2) mask.maskSize
      (fun mx my p => g (mask.flowed e.flow mx my) p) m =
      { m with pixel := fun x y => g (e.amount width height x y) (m.pixel x y) } := by
  refine BBitmap.ext_pixel rfl rfl (fun x y => ?_)
  unfold underMask EraserDab.amount
  rw [he]
  dsimp only
  split
  · rfl
  · exact (hg _).symm

theorem marked_frame (d : PPDocument) (r : Rect) : ∃ composite dirty step,
    (d.markDirty r).growStep (d.markDirty r).fDirty =
      { d with fCompositeDirty := composite, fDirty := dirty, fCurrentStep := step } := by
  obtain ⟨composite, dirty, h⟩ := markDirty_frame d r
  rw [h]
  unfold PPDocument.growStep
  split
  · exact ⟨composite, dirty, _, rfl⟩
  · exact ⟨composite, dirty, d.fCurrentStep, rfl⟩

theorem eraserDab_idle {d : PPDocument} (e : EraserDab) (h : d.activeLayer = none ∨ e.mask = none) : d.eraserDab e = d := by
  unfold PPDocument.eraserDab PPDocument.dabErase
  split
  · rename_i l mask hl hmask
    rw [hl, hmask] at h
    rcases h with h | h <;> cases h
  · rfl

theorem amount_idle {e : EraserDab} (h : e.mask = none) (width height x y : Nat) : e.amount width height x y = 0 := by
  simp only [EraserDab.amount, h]

theorem eraserDab_fLayers {d : PPDocument} (h : d.fInStroke = false) (e : EraserDab) :
    (d.eraserDab e).fLayers = d.layersErased (e.amount d.fWidth d.fHeight) ∧ (d.eraserDab e).fInStroke = false := by
  cases hl : d.activeLayer with
  | none =>
    rw [eraserDab_idle e (.inl hl), PPDocument.layersErased, hl]
    exact ⟨rfl, h⟩
  | some l =>
    cases hmask : e.mask with
    | none =>
      rw [eraserDab_idle e (.inr hmask), layersErased_zero d (amount_idle hmask d.fWidth d.fHeight)]
      exact ⟨rfl, h⟩
    | some mask =>
      unfold PPDocument.eraserDab PPDocument.dabErase PPDocument.layersErased
      rw [hl, hmask]
      dsimp only
      rw [if_neg (by rw [h]; exact Bool.false_ne_true), underMask_eq _ _ e hmask erasePixel_zero]
      obtain ⟨_, _, _, hmarked⟩ := marked_frame _ _
      rw [hmarked]
      exact ⟨rfl, h⟩

/-- In a stroke of the eraser begun at `base`: the layers wait, and the buffer's alpha is what was gathered. -/
structure Gathering (base d : PPDocument) (k : Nat → Nat → Nat) : Prop where
  layers : d.fLayers = base.fLayers
  activeId : d.fActiveId = base.fActiveId
  width : d.fWidth = base.fWidth
  height : d.fHeight = base.fHeight
  opacity : d.fStrokeOpacity = base.fStrokeOpacity
  inStroke : d.fInStroke = true
  buffer : (d.fStrokeBuf = none ∧ ∀ x y, k x y = 0) ∨
    d.fStrokeErase = true ∧ ∃ b, d.fStrokeBuf = some b ∧ ∀ x y, (b.pixel x y).a.toNat = k x y

theorem flowed_lt (m : Mask) (flow : UInt8) (mx my : Nat) : m.flowed flow mx my < 256 := by
  have h : (m.byte mx my).toNat * flow.toNat ≤ 255 * 255 :=
    Nat.mul_le_mul (Nat.le_of_lt_succ (m.byte mx my).toNat_lt) (Nat.le_of_lt_succ flow.toNat_lt)
  unfold Mask.flowed
  omega

theorem amount_lt (e : EraserDab) (width height x y : Nat) : e.amount width height x y < 256 := by
  unfold EraserDab.amount
  split
  · decide
  dsimp only
  split
  · exact flowed_lt _ _ _ _
  · decide

theorem gatherPixel_a {m : Nat} (hm : m < 256) (p : Pixel) : (gatherPixel m p).a.toNat = max p.a.toNat m := by
  unfold gatherPixel
  split_ifs with h0 hgt
  · rw [h0, Nat.max_zero]
  · rw [Nat.max_eq_right (Nat.le_of_lt hgt)]
    exact toNat_ofNat_of_lt hm
  · exact (Nat.max_eq_left (Nat.not_lt.1 hgt)).symm

/-- **Stamps within a stroke do not build up**: the buffer holds the greatest. -/
theorem Gathering.dab {base d : PPDocument} {k : Nat → Nat → Nat} (h : Gathering base d k) {l : PPLayer}
    (hl : base.activeLayer = some l) (e : EraserDab) :
    Gathering base (d.eraserDab e) (fun x y => max (k x y) (e.amount base.fWidth base.fHeight x y)) := by
  have hactive : d.activeLayer = some l := by
    unfold PPDocument.activeLayer at hl ⊢
    rw [h.activeId, h.layers, hl]
  cases hmask : e.mask with
  | none =>
    have hsame : (fun x y => max (k x y) (e.amount base.fWidth base.fHeight x y)) = k := by
      funext x y
      rw [amount_idle hmask, Nat.max_zero]
    rw [eraserDab_idle e (.inr hmask), hsame]
    exact h
  | some mask =>
    unfold PPDocument.eraserDab PPDocument.dabErase
    rw [hactive, hmask]
    dsimp only
    rw [if_pos h.inStroke, underMask_eq _ _ e hmask (g := gatherPixel) (fun p => if_pos rfl)]
    obtain ⟨_, _, _, hmarked⟩ := marked_frame _ _
    rw [hmarked]
    refine ⟨h.layers, h.activeId, h.width, h.height, h.opacity, h.inStroke, .inr ⟨rfl, _, rfl, fun x y => ?_⟩⟩
    have hbuffer : (d.strokeBuffer.pixel x y).a.toNat = k x y := by
      unfold PPDocument.strokeBuffer
      rcases h.buffer with ⟨hnone, hk⟩ | ⟨-, b, hb, hk⟩
      · rw [hnone, hk]
        rfl
      · rw [hb]
        exact hk x y
    show (gatherPixel _ _).a.toNat = _
    rw [gatherPixel_a (amount_lt _ _ _ _ _), hbuffer, h.width, h.height]

theorem Gathering.dabs {base : PPDocument} {l : PPLayer} (hl : base.activeLayer = some l) : ∀ (es : List EraserDab) {d : PPDocument}
    {k : Nat → Nat → Nat}, Gathering base d k → Gathering base (es.foldl PPDocument.eraserDab d)
      (fun x y => es.foldl (fun m e => max m (e.amount base.fWidth base.fHeight x y)) (k x y))
  | [], _, _, h => h
  | e :: es, _, _, h => Gathering.dabs hl es (h.dab hl e)

def gathered (width height : Nat) (es : List EraserDab) (x y : Nat) : Nat :=
  es.foldl (fun m e => max m (e.amount width height x y)) 0

theorem gathered_outside {width height x y : Nat} (h : ¬ (x < width ∧ y < height)) : ∀ es : List EraserDab,
    gathered width height es x y = 0
  | [] => rfl
  | e :: es => by
    have hzero : e.amount width height x y = 0 := by
      unfold EraserDab.amount
      split
      · rfl
      · exact if_neg (fun hin => h ⟨hin.1, hin.2.1⟩)
    unfold gathered
    rw [foldl_cons, hzero]
    exact gathered_outside h es

theorem gathering_strokeBegin (d : PPDocument) (opacity : UInt8) :
    Gathering (d.strokeBegin opacity) (d.strokeBegin opacity) (fun _ _ => 0) :=
  ⟨rfl, rfl, rfl, rfl, rfl, rfl, .inl ⟨rfl, fun _ _ => rfl⟩⟩

theorem Gathering.landed {base d : PPDocument} {es : List EraserDab} (h : Gathering base d (gathered base.fWidth base.fHeight es))
    (l : PPLayer) :
    d.landed l = l.bits.erased (fun x y => gathered base.fWidth base.fHeight es x y * base.fStrokeOpacity.toNat / 255) := by
  refine BBitmap.ext_pixel (landed_width d l) (landed_height d l) (fun x y => ?_)
  unfold PPDocument.landed
  rcases h.buffer with ⟨hnone, hk⟩ | ⟨herase, b, hb, hk⟩
  · rw [hnone]
    show _ = erasePixel (gathered _ _ _ _ _ * _ / 255) _
    rw [hk, Nat.zero_mul, Nat.zero_div, erasePixel_zero]
  rw [hb]
  show (if _ then _ else _) = erasePixel (gathered _ _ _ _ _ * _ / 255) _
  rw [h.width, h.height]
  split_ifs with hin
  · unfold landPixel
    rw [herase, if_pos rfl, hk, h.opacity]
  · rw [gathered_outside hin, Nat.zero_mul, Nat.zero_div, erasePixel_zero]

/-- **A stroke takes its amounts from the layer it was begun on.** -/
theorem stroke_fLayers (d : PPDocument) (opacity : UInt8) (es : List EraserDab) :
    (es.foldl PPDocument.eraserDab (d.strokeBegin opacity)).strokeEnd.fLayers =
      d.layersErased (fun x y => gathered d.fWidth d.fHeight es x y * opacity.toNat / 255) := by
  have hstroke : Stroking d (es.foldl PPDocument.eraserDab (d.strokeBegin opacity))
      (es.foldl PPDocument.eraserDab (d.strokeBegin opacity)).stepPoints := by
    have h := Stroking.dabs (es.map (fun e => Dab.erase e.x e.y e.mask e.flow)) (stroking_strokeBegin d opacity)
    rw [foldl_map] at h
    exact h
  unfold PPDocument.layersErased
  cases hl : d.activeLayer with
  | none =>
    have hrecords : (es.foldl PPDocument.eraserDab (d.strokeBegin opacity)).records = false := by
      unfold PPDocument.records
      rw [hstroke.snap, hl]
      exact Bool.and_false _
    exact (hstroke.unrecorded hrecords).1
  | some l =>
    have hactive : (d.strokeBegin opacity).activeLayer = some l := hl
    have hgather := Gathering.dabs hactive es (gathering_strokeBegin d opacity)
    have hlayer := activeLayer_eq_some hl
    dsimp only
    cases hrecords : (es.foldl PPDocument.eraserDab (d.strokeBegin opacity)).records with
    | true =>
      obtain ⟨l', snap, -, hl', -, hend⟩ := strokeEnd_of_records hstroke.inStroke hrecords
      have hsame : l' = l := by
        rw [hstroke.layerId, hgather.layers] at hl'
        exact Option.some.inj (hl'.symm.trans hlayer)
      rw [hend]
      refine (@endStroke_fLayers { es.foldl PPDocument.eraserDab (d.strokeBegin opacity) with fInStroke := false } l' snap hl').trans ?_
      rw [hsame]
      refine (congrArg₂ (fun id m => setBits id m _) hstroke.layerId ?_).trans
        (congrArg (setBits d.fActiveId _) hgather.layers)
      exact hgather.landed l
    | false =>
      have hinvalid : ¬ (es.foldl PPDocument.eraserDab (d.strokeBegin opacity)).fCurrentStep.rect.Valid := fun hv => by
        unfold PPDocument.records at hrecords
        rw [decide_eq_true hv, hstroke.layerId, hgather.layers, hstroke.snap, hl] at hrecords
        rw [show (d.strokeBegin opacity).fLayers = d.fLayers from rfl, hlayer] at hrecords
        cases hrecords
      have hzero : ∀ x y, gathered d.fWidth d.fHeight es x y = 0 := fun x y => by
        rcases hgather.buffer with ⟨-, hk⟩ | ⟨-, b, hb, hk⟩
        · exact hk x y
        · refine (hk x y).symm.trans ?_
          rw [hstroke.buffer b hb x y (fun hc => hinvalid hc.valid)]
          rfl
      rw [(hstroke.unrecorded hrecords).1, erased_zero (fun x y => by rw [hzero, Nat.zero_mul, Nat.zero_div]), setBits_self hlayer]

/-! ## A run -/

theorem shape_eraserDabs : ∀ (es : List EraserDab) (d : PPDocument), (es.foldl PPDocument.eraserDab d).shape = d.shape
  | [], _ => rfl
  | e :: es, d => (shape_eraserDabs es _).trans (shape_dabErase d e.x e.y e.mask e.flow)

theorem shape_erase (d : PPDocument) (e : Erasing) : (d.erase e).shape = (d.setActiveLayer e.layer).shape := by
  cases e with
  | stroke layer opacity dabs => exact (shape_strokeEnd _).trans (shape_eraserDabs dabs _)
  | dab layer b => exact shape_dabErase _ _ _ _ _

theorem strokeEnd_fInStroke (d : PPDocument) : d.strokeEnd.fInStroke = false := by
  cases hi : d.fInStroke with
  | false => rw [PPDocument.strokeEnd, if_pos (by rw [hi]; exact Bool.false_ne_true), hi]
  | true =>
    cases hr : d.records with
    | true =>
      obtain ⟨l, snap, -, -, -, hend⟩ := strokeEnd_of_records hi hr
      rw [hend]
      exact (endStroke_frame _ l snap).2.2.1
    | false => rw [strokeEnd_of_not_records hi hr]

theorem ids_of_shape {d d' : PPDocument} (h : d'.shape = d.shape) : d'.fLayers.map (·.id) = d.fLayers.map (·.id) := by
  have hlayers := congrArg (fun s => s.layers.map Prod.fst) h
  simp only [PPDocument.shape, map_map] at hlayers
  exact hlayers

theorem setActiveLayer_frame (d : PPDocument) (id : Int) :
    d.setActiveLayer id = { d with fActiveId := aim (d.fLayers.map (·.id)) d.fActiveId id } := by
  rw [← setActiveLayer_fActiveId]
  unfold PPDocument.setActiveLayer
  split <;> rfl

theorem erase_frame (d : PPDocument) (e : Erasing) : (d.erase e).fLayers.map (·.id) = d.fLayers.map (·.id) ∧
    (d.erase e).fWidth = d.fWidth ∧ (d.erase e).fHeight = d.fHeight ∧
    (d.erase e).fActiveId = aim (d.fLayers.map (·.id)) d.fActiveId e.layer := by
  have h := shape_erase d e
  have hids := ids_of_shape h
  rw [setActiveLayer_frame] at h hids
  exact ⟨hids, congrArg Shape.width h, congrArg Shape.height h, congrArg Shape.activeId h⟩

theorem erase_pixelAt {d : PPDocument} (h : d.fInStroke = false) (e : Erasing) (i x y : Nat) :
    (d.erase e).fInStroke = false ∧ (d.erase e).pixelAt i x y = (d.pixelAt i x y).map
      (erasePixel (if aim (d.fLayers.map (·.id)) d.fActiveId e.layer ≠ 0 ∧
        isFirst (aim (d.fLayers.map (·.id)) d.fActiveId e.layer) (d.fLayers.map (·.id)) i then
          e.amount d.fWidth d.fHeight x y else 0)) := by
  cases e with
  | stroke layer opacity dabs =>
    have hframe := setActiveLayer_frame d layer
    refine ⟨strokeEnd_fInStroke _, ?_⟩
    have hstroke := stroke_fLayers (d.setActiveLayer layer) opacity dabs
    unfold PPDocument.pixelAt PPDocument.erase
    rw [hstroke, layersErased_pixelAt, PPDocument.pixelAt, hframe]
    rfl
  | dab layer b =>
    have hframe := setActiveLayer_frame d layer
    have hactive : (d.setActiveLayer layer).fInStroke = false := by
      rw [hframe]
      exact h
    obtain ⟨hlayers, hin⟩ := eraserDab_fLayers hactive b
    refine ⟨hin, ?_⟩
    unfold PPDocument.pixelAt PPDocument.erase
    rw [hlayers, layersErased_pixelAt, PPDocument.pixelAt, hframe]
    rfl

/-- **A run of the eraser takes from a pixel what its strokes take, one after another.** -/
theorem erases_pixelAt (i x y : Nat) : ∀ (es : List Erasing) {d : PPDocument}, d.fInStroke = false →
    (d.erases es).pixelAt i x y = (d.pixelAt i x y).map (erasePixels (d.amounts es i x y))
  | [], d, _ => by
    show d.pixelAt i x y = (d.pixelAt i x y).map (fun p => p)
    rw [Option.map_id']
  | e :: es, d, h => by
    obtain ⟨hin, hpixel⟩ := erase_pixelAt h e i x y
    obtain ⟨hids, hw, hh, hactive⟩ := erase_frame d e
    have hrest : (d.erase e).amounts es i x y =
        (aimed (d.fLayers.map (·.id)) i (aim (d.fLayers.map (·.id)) d.fActiveId e.layer) es).map
          (fun e => e.amount d.fWidth d.fHeight x y) := by
      unfold PPDocument.amounts PPDocument.aimed
      rw [hids, hw, hh, hactive]
    have hrun := erases_pixelAt i x y es hin
    rw [hpixel, Option.map_map, hrest] at hrun
    refine hrun.trans (congrArg (fun f => Option.map f _) (funext fun p => ?_))
    unfold PPDocument.amounts PPDocument.aimed
    rw [aimed, Function.comp_apply]
    split_ifs with haim
    · rfl
    · rw [erasePixel_zero]

theorem erases_length : ∀ (es : List Erasing) (d : PPDocument), (d.erases es).fLayers.length = d.fLayers.length
  | [], _ => rfl
  | e :: es, d => by
    have h := congrArg List.length (erase_frame d e).1
    rw [length_map, length_map] at h
    exact (erases_length es (d.erase e)).trans h

theorem amount_of_not_covers {e : EraserDab} {x y : Nat} (h : ¬ e.Covers x y) (width height : Nat) : e.amount width height x y = 0 := by
  unfold EraserDab.amount
  split
  · rfl
  rename_i mask hmask
  refine ite_eq_right_iff.2 (fun hin => ?_)
  have hbyte : mask.byte (x - (e.x - mask.maskSize / 2)).toNat (y - (e.y - mask.maskSize / 2)).toNat = 0 :=
    not_not.1 (fun hne => h ⟨mask, hmask, hin.2.2, hne⟩)
  rw [Mask.flowed, hbyte]
  simp

theorem erasing_amount_of_not_covers {e : Erasing} {x y : Nat} (h : ∀ b ∈ e.dabs, ¬ b.Covers x y) (width height : Nat) :
    e.amount width height x y = 0 := by
  cases e with
  | stroke layer opacity dabs =>
    have hzero : ∀ bs : List EraserDab, (∀ b ∈ bs, ¬ b.Covers x y) → gathered width height bs x y = 0 := by
      intro bs
      induction bs with
      | nil => exact fun _ => rfl
      | cons b bs ih =>
        intro hbs
        obtain ⟨hb, hbs⟩ := forall_mem_cons.1 hbs
        unfold gathered
        rw [foldl_cons, amount_of_not_covers hb]
        exact ih hbs
    show gathered width height dabs x y * _ / 255 = 0
    rw [hzero dabs h, Nat.zero_mul, Nat.zero_div]
  | dab layer b => exact amount_of_not_covers (h b mem_cons_self) width height

/-- A pixel that would lose its colour: not black, erased, and not erased away. -/
def PPDocument.Darkened (d : PPDocument) (es : List Erasing) (i x y : Nat) (p : Pixel) : Prop :=
  (∃ m ∈ d.amounts es i x y, m ≠ 0) ∧ 0 < fade (d.amounts es i x y) p.a.toNat ∧ ¬ p.Black

theorem erases_pixel {d : PPDocument} (h : d.fInStroke = false) {es : List Erasing} {i x y : Nat} {p p' : Pixel}
    (hp : d.pixelAt i x y = some p) (hp' : (d.erases es).pixelAt i x y = some p') :
    p'.a ≤ p.a ∧ ((∀ e ∈ d.aimed es i, ∀ b ∈ e.dabs, ¬ b.Covers x y) → p' = p) ∧
      ((0 < p'.a → p'.SameColour p) ↔ ¬ d.Darkened es i x y p) := by
  rw [erases_pixelAt i x y es h, hp, Option.map_some, Option.some.injEq] at hp'
  subst hp'
  refine ⟨?_, fun hout => erasePixels_zero (fun m hm => ?_) p, ?_⟩
  · rw [UInt8.le_iff_toNat_le, erasePixels_a]
    exact fade_le _ _
  · obtain ⟨e, he, rfl⟩ := mem_map.1 hm
    exact erasing_amount_of_not_covers (hout e he) _ _
  · rw [UInt8.lt_iff_toNat_lt, erasePixels_a, sameColour_erasePixels]
    unfold PPDocument.Darkened
    constructor
    · rintro hkeep ⟨hm, ha, hblack⟩
      exact hblack (hkeep ha hm)
    · intro hkeep ha hm
      exact not_not.1 (fun hblack => hkeep ⟨hm, ha, hblack⟩)

/-- **The eraser only uncovers when no pixel would lose its colour.** -/
theorem onlyUncovers_iff {d : PPDocument} (h : d.fInStroke = false) (es : List Erasing) :
    d.OnlyUncovers es ↔ ∀ i x y p, d.pixelAt i x y = some p → ¬ d.Darkened es i x y p := by
  have hlength := erases_length es d
  constructor
  · intro hall i x y p hp
    have hp' := (erases_pixelAt i x y es h).trans (congrArg (Option.map (erasePixels (d.amounts es i x y))) hp)
    exact (erases_pixel h hp hp').2.2.1 (hall.2 i x y p _ hp hp').2.2
  · refine fun hall => ⟨hlength, fun i x y p p' hp hp' => ?_⟩
    obtain ⟨ha, hout, hcolour⟩ := erases_pixel h hp hp'
    exact ⟨ha, hout, hcolour.2 (hall i x y p hp)⟩

def onePixel (p : Pixel) : PPDocument :=
  { fWidth := 1, fHeight := 1, fDPI := 96, fPaper := {}, fLayers := [{ id := 1, bits := ⟨1, 1, fun _ _ => p⟩ }]
    fNextLayerId := 2, fActiveId := 1 }

def halfStroke : Erasing := .stroke 1 128 [⟨0, 0, some ⟨[255], 1, 1⟩, 255⟩]

theorem onlyUncovers_black : (onePixel ⟨0, 0, 0, 255⟩).OnlyUncovers [halfStroke, halfStroke] := by
  refine (onlyUncovers_iff rfl _).2 (fun i x y p hp => ?_)
  rintro ⟨-, -, hblack⟩
  cases i with
  | zero =>
    cases hp
    exact hblack ⟨rfl, rfl, rfl⟩
  | succ i => cases hp

/-- A red pixel becomes a darker red. -/
theorem onlyUncovers_not_red : ¬ ∀ d es, PPDocument.fInStroke d = false → d.OnlyUncovers es := by
  intro h
  have hred := (h (onePixel ⟨0, 0, 255, 255⟩) [halfStroke] rfl).2 0 0 0 ⟨0, 0, 255, 255⟩ ⟨0, 0, 127, 127⟩ rfl (by decide)
  exact absurd (hred.2.2 (by decide)).2.2 (by decide)

end Paint
end Prose
