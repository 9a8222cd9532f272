import Prose.PaintDoc
import Prose.Trail
/-!
# PaintStroke — a stroke and its undo step

The rectangle of a stroke holds every pixel the stroke has changed, in the layer or in its buffer.  So the step that
`StrokeEnd` pushes leads from the layers after the stroke back to the layers before it, and forth again.
-/
namespace Prose
namespace Paint

open Trail List

/-! ## The layer of an id -/

theorem BBitmap.ext_pixel {m m' : BBitmap} (hw : m.width = m'.width) (hh : m.height = m'.height)
    (h : ∀ x y, m.pixel x y = m'.pixel x y) : m = m' := by
  cases m
  cases m'
  simp only [BBitmap.mk.injEq]
  exact ⟨hw, hh, funext fun x => funext (h x)⟩

theorem layerById_cons (l : PPLayer) (ls : List PPLayer) (id : Int) :
    layerById (l :: ls) id = if l.id = id then some l else layerById ls id := by
  unfold layerById
  rw [find?_cons]
  by_cases h : l.id = id <;> simp [h]

theorem setBits_cons (id : Int) (m : BBitmap) (l : PPLayer) (ls : List PPLayer) :
    setBits id m (l :: ls) = if l.id = id then { l with bits := m } :: ls else l :: setBits id m ls := rfl

theorem layerById_setBits (id : Int) (m : BBitmap) : ∀ ls : List PPLayer,
    layerById (setBits id m ls) id = (layerById ls id).map (fun l => { l with bits := m })
  | [] => rfl
  | l :: ls => by
    rw [setBits_cons, layerById_cons]
    by_cases h : l.id = id
    · rw [if_pos h, if_pos h, layerById_cons, if_pos h]
      rfl
    · rw [if_neg h, if_neg h, layerById_cons, if_neg h, layerById_setBits id m ls]

theorem setBits_setBits (id : Int) (m m' : BBitmap) : ∀ ls : List PPLayer, setBits id m' (setBits id m ls) = setBits id m' ls
  | [] => rfl
  | l :: ls => by
    rw [setBits_cons, setBits_cons]
    by_cases h : l.id = id
    · rw [if_pos h, if_pos h, setBits_cons, if_pos h]
    · rw [if_neg h, if_neg h, setBits_cons, if_neg h, setBits_setBits id m m' ls]

theorem setBits_self {id : Int} : ∀ {ls : List PPLayer} {l : PPLayer}, layerById ls id = some l → setBits id l.bits ls = ls
  | [], _, h => by cases h
  | x :: ls, l, h => by
    rw [layerById_cons] at h
    rw [setBits_cons]
    by_cases hx : x.id = id
    · rw [if_pos hx, Option.some.injEq] at h
      rw [if_pos hx, h]
    · rw [if_neg hx] at h
      rw [if_neg hx, setBits_self h]

theorem activeLayer_eq_some {d : PPDocument} {l : PPLayer} (h : d.activeLayer = some l) :
    layerById d.fLayers d.fActiveId = some l := by
  unfold PPDocument.activeLayer at h
  split at h
  · exact h
  · cases h

/-! ## What a step leads between -/

def applyBits (ls : List PPLayer) (step : UndoStep) (forward : Bool) : List PPLayer :=
  match layerById ls step.layerId with
  | none => ls
  | some l => setBits step.layerId (l.bits.write step.rect (if forward then step.after else step.before)) ls

theorem markDirty_frame (d : PPDocument) (r : Rect) :
    ∃ composite dirty, d.markDirty r = { d with fCompositeDirty := composite, fDirty := dirty } := by
  unfold PPDocument.markDirty
  dsimp only
  split
  · exact ⟨d.fCompositeDirty, d.fDirty, rfl⟩
  · exact ⟨true, _, rfl⟩

theorem markDirty_fLayers (d : PPDocument) (r : Rect) : (d.markDirty r).fLayers = d.fLayers := by
  obtain ⟨_, _, h⟩ := markDirty_frame d r
  rw [h]

theorem applyStep_fLayers (d : PPDocument) (step : UndoStep) (forward : Bool) :
    (d.applyStep step forward).fLayers = applyBits d.fLayers step forward := by
  unfold PPDocument.applyStep applyBits
  cases layerById d.fLayers step.layerId with
  | none => rfl
  | some l => exact markDirty_fLayers _ _

/-- Applied backward the step leads from `ls` to `ls'`, and applied forward from `ls'` to `ls`. -/
def Reverts (step : UndoStep) (ls ls' : List PPLayer) : Prop :=
  applyBits ls step false = ls' ∧ applyBits ls' step true = ls

theorem write_read {m m' : BBitmap} {r : Rect} (hw : m.width = m'.width) (hh : m.height = m'.height)
    (h : ∀ x y : Nat, ¬ r.Contains x y → m.pixel x y = m'.pixel x y) : m.write r (m'.read r) = m' := by
  refine BBitmap.ext_pixel hw hh (fun x y => ?_)
  by_cases hr : r.Contains x y
  · have : r.left ≤ x ∧ (x : Int) ≤ r.right ∧ r.top ≤ y ∧ (y : Int) ≤ r.bottom := hr
    show (if r.Contains x y then _ else _) = _
    rw [if_pos hr, BBitmap.read]
    congr 1 <;> omega
  · show (if r.Contains x y then _ else _) = _
    rw [if_neg hr]
    exact h x y hr

/-- **A step of a rectangle outside which nothing changed.** -/
theorem reverts_of_outside {ls : List PPLayer} {id : Int} {l : PPLayer} {m : BBitmap} {step : UndoStep}
    (hl : layerById ls id = some l) (hid : step.layerId = id) (hw : m.width = l.bits.width) (hh : m.height = l.bits.height)
    (h : ∀ x y : Nat, ¬ step.rect.Contains x y → m.pixel x y = l.bits.pixel x y)
    (hb : step.before = l.bits.read step.rect) (ha : step.after = m.read step.rect) :
    Reverts step (setBits id m ls) ls := by
  constructor
  · unfold applyBits
    rw [hid, layerById_setBits, hl, Option.map_some]
    dsimp only
    rw [setBits_setBits, if_neg Bool.false_ne_true, hb, write_read hw hh h, setBits_self hl]
  · unfold applyBits
    rw [hid, hl]
    dsimp only
    rw [if_pos rfl, ha, write_read hw.symm hh.symm (fun x y hr => (h x y hr).symm)]

/-! ## The fill stays on the canvas -/

theorem walkRight_le (ok : Nat → Bool) : ∀ n right, walkRight ok n right ≤ right + n
  | 0, _ => Nat.le_refl _
  | n + 1, right => by
    have ih := walkRight_le ok n (right + 1)
    unfold walkRight
    split
    · omega
    · omega

theorem fillRun_visited (width height : Nat) (nearSeed : Pixel → Bool) (colour : Pixel) (s : FillState) (idx : Nat) :
    (fillRun width height nearSeed colour s idx).visited.length = s.visited.length := Splice.length_mapSpan _ _ _ _

theorem fillRun_outside {width height : Nat} {nearSeed : Pixel → Bool} {colour : Pixel} {s : FillState} {idx : Nat}
    (hv : s.visited.length = width * height) (h : ¬ s.visited.getD idx true = true) {x y : Nat}
    (hxy : ¬ (x < width ∧ y < height)) :
    (fillRun width height nearSeed colour s idx).bits.pixel x y = s.bits.pixel x y := by
  have hlt : idx < width * height := by
    rw [← hv]
    by_contra hn
    rw [getD_eq_getElem?_getD, getElem?_eq_none (Nat.le_of_not_lt hn)] at h
    exact h rfl
  have hw : 0 < width := Nat.pos_of_ne_zero (fun h0 => by rw [h0, Nat.zero_mul] at hlt; omega)
  have hy : idx / width < height := Nat.div_lt_of_lt_mul hlt
  have hx : idx % width < width := Nat.mod_lt idx hw
  refine if_neg ?_
  rintro ⟨rfl, -, hright⟩
  refine hxy ⟨?_, hy⟩
  have := Nat.le_trans hright (walkRight_le _ (width - 1 - idx % width) (idx % width))
  omega

theorem fillLoop_spec {width height : Nat} {nearSeed : Pixel → Bool} {colour : Pixel} {P : FillState → Prop}
    (hpop : ∀ s idx stack, s.stack = idx :: stack → s.visited.getD idx true = true → P s → P { s with stack := stack })
    (hrun : ∀ s idx stack, s.stack = idx :: stack → ¬ s.visited.getD idx true = true → P s →
      P (fillRun width height nearSeed colour { s with stack := stack } idx))
    (s : FillState) (h : P s) :
    P (fillLoop width height nearSeed colour s) ∧ (fillLoop width height nearSeed colour s).stack = [] := by
  induction s using fillLoop.induct width height nearSeed colour with
  | case1 s hs =>
    rw [fillLoop]
    split
    · exact ⟨h, hs⟩
    · rename_i idx stack hs'
      rw [hs] at hs'
      cases hs'
  | case2 s idx stack hs hv ih =>
    rw [fillLoop]
    split
    · rename_i hs'
      rw [hs] at hs'
      cases hs'
    rename_i idx' stack' hs'
    rw [hs, List.cons.injEq] at hs'
    obtain ⟨rfl, rfl⟩ := hs'
    rw [dif_pos hv]
    exact ih (hpop s idx stack hs hv h)
  | case3 s idx stack hs hv ih =>
    rw [fillLoop]
    split
    · rename_i hs'
      rw [hs] at hs'
      cases hs'
    rename_i idx' stack' hs'
    rw [hs, List.cons.injEq] at hs'
    obtain ⟨rfl, rfl⟩ := hs'
    rw [dif_neg hv]
    exact ih (hrun s idx stack hs hv h)

theorem fillLoop_inv {width height : Nat} {nearSeed : Pixel → Bool} {colour : Pixel} {P : FillState → Prop}
    (hpop : ∀ s stack, P s → P { s with stack := stack })
    (hrun : ∀ s idx, ¬ s.visited.getD idx true = true → P s → P (fillRun width height nearSeed colour s idx))
    (s : FillState) (h : P s) : P (fillLoop width height nearSeed colour s) :=
  (fillLoop_spec (fun s _ stack _ _ hs => hpop s stack hs)
    (fun s idx stack _ hv hs => hrun { s with stack := stack } idx hv (hpop s stack hs)) s h).1

theorem fillLoop_outside {width height : Nat} {nearSeed : Pixel → Bool} {colour : Pixel} {s : FillState}
    (hv : s.visited.length = width * height) :
    let m := (fillLoop width height nearSeed colour s).bits
    m.width = s.bits.width ∧ m.height = s.bits.height ∧
      ∀ x y, ¬ (x < width ∧ y < height) → m.pixel x y = s.bits.pixel x y := by
  have key := @fillLoop_inv width height nearSeed colour
    (fun t => t.visited.length = width * height ∧ t.bits.width = s.bits.width ∧ t.bits.height = s.bits.height ∧
      ∀ x y, ¬ (x < width ∧ y < height) → t.bits.pixel x y = s.bits.pixel x y)
    (fun t stack h => h)
    (fun t idx hidx h => ⟨(fillRun_visited _ _ _ _ t idx).trans h.1, h.2.1, h.2.2.1, fun x y hxy =>
      (fillRun_outside h.1 hidx hxy).trans (h.2.2.2 x y hxy)⟩) s ⟨hv, rfl, rfl, fun _ _ _ => rfl⟩
  exact key.2

/-! ## A stroke in progress -/

inductive Dab
  | colour (x y : Int) (colour : RgbColor) (mask : Option Mask) (flow : UInt8)
  | erase (x y : Int) (mask : Option Mask) (flow : UInt8)
  | smudge (x y : Int) (mask : Option Mask) (strength : UInt8)
  | fill (x y : Int) (colour : RgbColor) (tolerance : UInt8)

def PPDocument.dab (d : PPDocument) : Dab → PPDocument
  | .colour x y colour mask flow => d.dabColour x y colour mask flow
  | .erase x y mask flow => d.dabErase x y mask flow
  | .smudge x y mask strength => d.dabSmudge x y mask strength
  | .fill x y colour tolerance => (d.fillAt x y colour tolerance).1

/-- A stroke begun at `base`, which has changed pixels of `S` at most. -/
structure Stroking (base d : PPDocument) (S : Nat → Nat → Prop) : Prop where
  inStroke : d.fInStroke = true
  width : d.fWidth = base.fWidth
  height : d.fHeight = base.fHeight
  activeId : d.fActiveId = base.fActiveId
  layerId : d.fCurrentStep.layerId = base.fActiveId
  snap : d.fBeforeSnap = base.activeLayer.map (·.bits)
  undo : d.fUndo = base.fUndo
  idle : base.activeLayer = none → d.fLayers = base.fLayers
  layer : ∀ l, base.activeLayer = some l → ∃ m : BBitmap, d.fLayers = setBits base.fActiveId m base.fLayers ∧
    m.width = l.bits.width ∧ m.height = l.bits.height ∧ ∀ x y, ¬ S x y → m.pixel x y = l.bits.pixel x y
  buffer : ∀ b, d.fStrokeBuf = some b → ∀ x y, ¬ S x y → (b.pixel x y).a = 0

def PPDocument.stepPoints (d : PPDocument) (x y : Nat) : Prop := d.fCurrentStep.rect.Contains x y

section
variable {base d : PPDocument} {S T : Nat → Nat → Prop} (h : Stroking base d S)
include h

theorem Stroking.mono (hST : ∀ x y, S x y → T x y) : Stroking base d T :=
  ⟨h.inStroke, h.width, h.height, h.activeId, h.layerId, h.snap, h.undo, h.idle, fun l hl => by
    obtain ⟨m, h1, h2, h3, h4⟩ := h.layer l hl
    exact ⟨m, h1, h2, h3, fun x y hx => h4 x y (fun hs => hx (hST x y hs))⟩,
    fun b hb x y hx => h.buffer b hb x y (fun hs => hx (hST x y hs))⟩

theorem Stroking.markDirty (r : Rect) : Stroking base (d.markDirty r) S := by
  unfold PPDocument.markDirty
  dsimp only
  split
  · exact h
  · exact ⟨h.inStroke, h.width, h.height, h.activeId, h.layerId, h.snap, h.undo, h.idle, h.layer, h.buffer⟩

theorem Stroking.growStep (r : Rect) : Stroking base (d.growStep r) S := by
  unfold PPDocument.growStep
  split
  · exact ⟨h.inStroke, h.width, h.height, h.activeId, h.layerId, h.snap, h.undo, h.idle, h.layer, h.buffer⟩
  · exact h

theorem Stroking.setFoot (foot : List Pixel) : Stroking base { d with fSmudgeFoot := foot } S :=
  ⟨h.inStroke, h.width, h.height, h.activeId, h.layerId, h.snap, h.undo, h.idle, h.layer, h.buffer⟩

theorem Stroking.setModified : Stroking base { d with fModified := true } S :=
  ⟨h.inStroke, h.width, h.height, h.activeId, h.layerId, h.snap, h.undo, h.idle, h.layer, h.buffer⟩

theorem Stroking.active {l : PPLayer} (hl : d.activeLayer = some l) : ∃ l₀, base.activeLayer = some l₀ ∧
    l.bits.width = l₀.bits.width ∧ l.bits.height = l₀.bits.height ∧
      ∀ x y, ¬ S x y → l.bits.pixel x y = l₀.bits.pixel x y := by
  have hl' := activeLayer_eq_some hl
  have hid : d.fActiveId ≠ 0 := fun h0 => by
    rw [PPDocument.activeLayer, if_neg (by simpa using h0)] at hl
    cases hl
  rw [h.activeId] at hl' hid
  have hbase : base.activeLayer = layerById base.fLayers base.fActiveId := if_pos hid
  cases hb : base.activeLayer with
  | none =>
    rw [h.idle hb, ← hbase, hb] at hl'
    cases hl'
  | some l₀ =>
    obtain ⟨m, h1, h2, h3, h4⟩ := h.layer l₀ hb
    rw [h1, layerById_setBits, ← hbase, hb, Option.map_some, Option.some.injEq] at hl'
    exact ⟨l₀, rfl, by rw [← hl']; exact h2, by rw [← hl']; exact h3, by rw [← hl']; exact h4⟩

theorem Stroking.setLayer {l : PPLayer} (hl : d.activeLayer = some l) {m : BBitmap} (hw : m.width = l.bits.width)
    (hh : m.height = l.bits.height) (hm : ∀ x y, ¬ T x y → m.pixel x y = l.bits.pixel x y) (hST : ∀ x y, S x y → T x y) :
    Stroking base { d with fLayers := setBits d.fActiveId m d.fLayers } T := by
  obtain ⟨l₀, hl₀, hw₀, hh₀, hm₀⟩ := h.active hl
  obtain ⟨m₀, h1, -⟩ := h.layer l₀ hl₀
  have ht := h.mono hST
  refine ⟨h.inStroke, h.width, h.height, h.activeId, h.layerId, h.snap, h.undo, fun hn => ?_, fun l₁ hl₁ => ?_, ht.buffer⟩
  · rw [hn] at hl₀
    cases hl₀
  · rw [hl₀, Option.some.injEq] at hl₁
    subst hl₁
    refine ⟨m, ?_, hw.trans hw₀, hh.trans hh₀, fun x y hx => ?_⟩
    · show setBits d.fActiveId m d.fLayers = _
      rw [h1, h.activeId, setBits_setBits]
    · rw [hm x y hx, hm₀ x y (fun hs => hx (hST x y hs))]

theorem Stroking.setBuffer {b : BBitmap} (hb : ∀ x y, ¬ T x y → (b.pixel x y).a = 0) (hST : ∀ x y, S x y → T x y)
    (erase : Bool) : Stroking base { d with fStrokeErase := erase, fStrokeBuf := some b } T := by
  have ht := h.mono hST
  refine ⟨h.inStroke, h.width, h.height, h.activeId, h.layerId, h.snap, h.undo, h.idle, ht.layer, fun b' hb' => ?_⟩
  cases hb'
  exact hb

theorem Stroking.strokeBuffer (x y : Nat) (hx : ¬ S x y) : (d.strokeBuffer.pixel x y).a = 0 := by
  unfold PPDocument.strokeBuffer
  cases hb : d.fStrokeBuf with
  | none => rfl
  | some b => exact h.buffer b hb x y hx

end

/-! ## Dabs -/

theorem markDirty_fCurrentStep (d : PPDocument) (r : Rect) : (d.markDirty r).fCurrentStep = d.fCurrentStep := by
  obtain ⟨_, _, h⟩ := markDirty_frame d r
  rw [h]

theorem markDirty_contains {d : PPDocument} {r : Rect} {x y : Int} (h : (r.inter d.canvas).Contains x y) :
    (d.markDirty r).fDirty.Contains x y := by
  unfold PPDocument.markDirty
  dsimp only
  rw [if_neg (not_not.2 h.valid)]
  dsimp only
  split
  · exact h
  · exact h.union_right _

theorem growStep_contains {d : PPDocument} (hi : d.fInStroke = true) {r : Rect} {x y : Nat}
    (h : d.stepPoints x y ∨ r.Contains x y) : (d.growStep r).stepPoints x y := by
  unfold PPDocument.growStep
  rw [if_pos hi]
  unfold PPDocument.stepPoints at h ⊢
  dsimp only
  split
  · rename_i hn
    exact h.resolve_left (fun hc => hn hc.valid)
  · exact h.elim (fun hc => hc.union_left _) (fun hc => hc.union_right _)

theorem Stroking.grown {base d : PPDocument} {r : Rect}
    (h : Stroking base d (fun x y => d.stepPoints x y ∨ (r.inter d.canvas).Contains x y)) :
    Stroking base ((d.markDirty r).growStep (d.markDirty r).fDirty)
      ((d.markDirty r).growStep (d.markDirty r).fDirty).stepPoints := by
  have h' := h.markDirty r
  refine (h'.growStep (d.markDirty r).fDirty).mono (fun x y hxy => growStep_contains h'.inStroke ?_)
  unfold PPDocument.stepPoints at hxy ⊢
  rw [markDirty_fCurrentStep]
  exact hxy.imp id markDirty_contains

theorem underMask_outside {width height : Nat} {x0 y0 : Int} {maskSize : Nat} (f : Nat → Nat → Pixel → Pixel) (m : BBitmap)
    {x y : Nat} (h : ¬ ((maskRect x0 y0 maskSize).inter ⟨0, 0, width - 1, height - 1⟩).Contains x y) :
    (underMask width height x0 y0 maskSize f m).pixel x y = m.pixel x y := by
  refine if_neg (fun hin => h (Rect.contains_inter.2 ⟨hin.2.2, ?_⟩))
  have h1 := hin.1
  have h2 := hin.2.1
  unfold Rect.Contains
  dsimp only
  omega

section
variable {base d : PPDocument} (h : Stroking base d d.stepPoints)
include h

theorem Stroking.dabColour (x y : Int) (colour : RgbColor) (mask : Option Mask) (flow : UInt8) :
    Stroking base (d.dabColour x y colour mask flow) (d.dabColour x y colour mask flow).stepPoints := by
  unfold PPDocument.dabColour
  split
  · rename_i l mask hl
    dsimp only
    rw [if_pos h.inStroke]
    refine Stroking.grown (h.setBuffer (fun px py hp => ?_) (fun px py hp => Or.inl hp) d.fStrokeErase)
    rw [not_or] at hp
    rw [underMask_outside _ _ hp.2]
    exact h.strokeBuffer px py hp.1
  · exact h

theorem Stroking.dabErase (x y : Int) (mask : Option Mask) (flow : UInt8) :
    Stroking base (d.dabErase x y mask flow) (d.dabErase x y mask flow).stepPoints := by
  unfold PPDocument.dabErase
  split
  · rename_i l mask hl
    dsimp only
    rw [if_pos h.inStroke]
    refine Stroking.grown (h.setBuffer (fun px py hp => ?_) (fun px py hp => Or.inl hp) true)
    rw [not_or] at hp
    rw [underMask_outside _ _ hp.2]
    exact h.strokeBuffer px py hp.1
  · exact h

theorem Stroking.dabSmudge (x y : Int) (mask : Option Mask) (strength : UInt8) :
    Stroking base (d.dabSmudge x y mask strength) (d.dabSmudge x y mask strength).stepPoints := by
  unfold PPDocument.dabSmudge
  split
  · rename_i l mask hl
    dsimp only
    split
    · exact h.setFoot _
    refine Stroking.grown ((h.setLayer hl ?_ ?_ (fun px py hp => ?_) (fun px py hp => Or.inl hp)).setFoot _)
    · rfl
    · rfl
    · exact underMask_outside _ _ (not_or.1 hp).2
  · exact h

theorem Stroking.fillAt (x y : Int) (colour : RgbColor) (tolerance : UInt8) :
    Stroking base (d.fillAt x y colour tolerance).1 (d.fillAt x y colour tolerance).1.stepPoints := by
  unfold PPDocument.fillAt
  split
  · exact h
  rename_i l hl
  split
  · exact h
  dsimp only
  obtain ⟨hw, hh, hm⟩ := @fillLoop_outside d.fWidth d.fHeight (near (l.bits.pixel x.toNat y.toNat) tolerance)
    ⟨colour.blue, colour.green, colour.red, 255⟩
    { bits := l.bits, visited := List.replicate (d.fWidth * d.fHeight) false, stack := [y.toNat * d.fWidth + x.toNat] }
    length_replicate
  have hs := (h.setLayer (T := fun px py => d.stepPoints px py ∨ d.canvas.Contains px py) hl hw hh
    (fun px py hp => hm px py (fun hin => hp (Or.inr ?_))) (fun px py hp => Or.inl hp)).markDirty d.canvas
  · have hs' := hs.growStep d.canvas
    refine Stroking.setModified (hs'.mono (fun px py hp => ?_))
    refine growStep_contains hs.inStroke ?_
    unfold PPDocument.stepPoints at hp ⊢
    rw [markDirty_fCurrentStep]
    exact hp
  · unfold Rect.Contains PPDocument.canvas
    dsimp only
    omega

theorem Stroking.dab (b : Dab) : Stroking base (d.dab b) (d.dab b).stepPoints := by
  cases b with
  | colour x y colour mask flow => exact h.dabColour x y colour mask flow
  | erase x y mask flow => exact h.dabErase x y mask flow
  | smudge x y mask strength => exact h.dabSmudge x y mask strength
  | fill x y colour tolerance => exact h.fillAt x y colour tolerance

end

theorem Stroking.dabs {base : PPDocument} : ∀ (bs : List Dab) {d : PPDocument}, Stroking base d d.stepPoints →
    Stroking base (bs.foldl PPDocument.dab d) (bs.foldl PPDocument.dab d).stepPoints
  | [], _, h => h
  | b :: bs, _, h => Stroking.dabs bs (h.dab b)

theorem stroking_strokeBegin (d : PPDocument) (opacity : UInt8) :
    Stroking d (d.strokeBegin opacity) (d.strokeBegin opacity).stepPoints where
  inStroke := rfl
  width := rfl
  height := rfl
  activeId := rfl
  layerId := rfl
  snap := rfl
  undo := rfl
  idle _ := rfl
  layer l hl := ⟨l.bits, (setBits_self (activeLayer_eq_some hl)).symm, rfl, rfl, fun _ _ _ => rfl⟩
  buffer b hb := by cases hb

/-! ## The end of a stroke -/

theorem erasePixel_zero (p : Pixel) : erasePixel 0 p = p := if_pos rfl

theorem landPixel_clear (erase : Bool) (opacity : UInt8) {s : Pixel} (d : Pixel) (h : s.a = 0) :
    landPixel erase opacity s d = d := by
  unfold landPixel
  rw [h]
  simp only [UInt8.toNat_zero, Nat.zero_mul, Nat.zero_div, erasePixel_zero]
  split <;> rfl

theorem land_outside {m buf : BBitmap} (erase : Bool) (opacity : UInt8) (width height : Nat) {x y : Nat}
    (h : (buf.pixel x y).a = 0) : (m.land buf erase opacity width height).pixel x y = m.pixel x y := by
  show (if _ then _ else _) = _
  rw [landPixel_clear erase opacity _ h, ite_self]

/-- Whether `StrokeEnd` pushes a step. -/
def PPDocument.records (d : PPDocument) : Bool :=
  decide d.fCurrentStep.rect.Valid && (layerById d.fLayers d.fCurrentStep.layerId).isSome && d.fBeforeSnap.isSome

def pushStep (step : UndoStep) (steps : List UndoStep) : List UndoStep :=
  if (step :: steps).length > 40 then (step :: steps).dropLast else step :: steps

def PPDocument.landed (d : PPDocument) (l : PPLayer) : BBitmap :=
  match d.fStrokeBuf with
  | none => l.bits
  | some buf => l.bits.land buf d.fStrokeErase d.fStrokeOpacity d.fWidth d.fHeight

theorem landed_width (d : PPDocument) (l : PPLayer) : (d.landed l).width = l.bits.width := by
  unfold PPDocument.landed
  split <;> rfl

theorem landed_height (d : PPDocument) (l : PPLayer) : (d.landed l).height = l.bits.height := by
  unfold PPDocument.landed
  split <;> rfl

theorem landed_outside {d : PPDocument} {l : PPLayer} {x y : Nat} (h : ∀ b, d.fStrokeBuf = some b → (b.pixel x y).a = 0) :
    (d.landed l).pixel x y = l.bits.pixel x y := by
  unfold PPDocument.landed
  split
  · rfl
  · rename_i buf hbuf
    exact land_outside _ _ _ _ (h buf hbuf)

theorem markDirty_fUndo (d : PPDocument) (r : Rect) : (d.markDirty r).fUndo = d.fUndo := by
  obtain ⟨_, _, h⟩ := markDirty_frame d r
  rw [h]

theorem markDirty_fRedo (d : PPDocument) (r : Rect) : (d.markDirty r).fRedo = d.fRedo := by
  obtain ⟨_, _, h⟩ := markDirty_frame d r
  rw [h]

theorem endStroke_frame (d : PPDocument) (l : PPLayer) (snap : BBitmap) : (d.endStroke l snap).fWidth = d.fWidth ∧
    (d.endStroke l snap).fHeight = d.fHeight ∧ (d.endStroke l snap).fInStroke = d.fInStroke ∧
    (d.endStroke l snap).fRedo = [] := by
  unfold PPDocument.endStroke
  cases d.fStrokeBuf with
  | none => exact ⟨rfl, rfl, rfl, rfl⟩
  | some buf =>
    dsimp only
    obtain ⟨_, _, h⟩ := markDirty_frame { d with
      fLayers := setBits d.fCurrentStep.layerId
        (l.bits.land buf d.fStrokeErase d.fStrokeOpacity d.fWidth d.fHeight) d.fLayers
      fStrokeBuf := none } d.canvas
    rw [h]
    exact ⟨rfl, rfl, rfl, rfl⟩

theorem captureAfter_eq {ls : List PPLayer} {l : PPLayer} (step : UndoStep) (hl : layerById ls step.layerId = some l)
    (hv : step.rect.Valid) : captureAfter ls step = { step with after := l.bits.read step.rect } := by
  unfold captureAfter
  rw [hl]
  exact if_neg (not_not.2 hv)

section
variable {d : PPDocument} {l : PPLayer} {snap : BBitmap} (hl : layerById d.fLayers d.fCurrentStep.layerId = some l)
include hl

theorem endStroke_fLayers : (d.endStroke l snap).fLayers = setBits d.fCurrentStep.layerId (d.landed l) d.fLayers := by
  unfold PPDocument.endStroke PPDocument.landed
  cases d.fStrokeBuf with
  | none => exact (setBits_self hl).symm
  | some buf => exact markDirty_fLayers _ _

theorem endStroke_fUndo (hv : d.fCurrentStep.rect.Valid) : (d.endStroke l snap).fUndo = pushStep
    { d.fCurrentStep with
      before := snap.read d.fCurrentStep.rect, after := (d.landed l).read d.fCurrentStep.rect } d.fUndo := by
  unfold PPDocument.endStroke PPDocument.landed
  cases d.fStrokeBuf with
  | none =>
    dsimp only
    rw [captureAfter_eq { d.fCurrentStep with before := snap.read d.fCurrentStep.rect } hl hv]
    rfl
  | some buf =>
    have hl' := layerById_setBits d.fCurrentStep.layerId
      (l.bits.land buf d.fStrokeErase d.fStrokeOpacity d.fWidth d.fHeight) d.fLayers
    rw [hl, Option.map_some] at hl'
    dsimp only
    rw [markDirty_fLayers, markDirty_fCurrentStep, markDirty_fUndo]
    dsimp only
    rw [captureAfter_eq { d.fCurrentStep with before := snap.read d.fCurrentStep.rect } hl' hv]
    rfl

end

theorem strokeEnd_of_records {d : PPDocument} (hi : d.fInStroke = true) (h : d.records = true) :
    ∃ l snap, d.fCurrentStep.rect.Valid ∧ layerById d.fLayers d.fCurrentStep.layerId = some l ∧
      d.fBeforeSnap = some snap ∧ d.strokeEnd = { d with fInStroke := false }.endStroke l snap := by
  unfold PPDocument.records at h
  rw [Bool.and_eq_true, Bool.and_eq_true, decide_eq_true_eq, Option.isSome_iff_exists, Option.isSome_iff_exists] at h
  obtain ⟨⟨hv, l, hl⟩, snap, hs⟩ := h
  refine ⟨l, snap, hv, hl, hs, ?_⟩
  unfold PPDocument.strokeEnd
  rw [if_neg (not_not.2 hi)]
  dsimp only
  rw [if_neg (not_not.2 hv), hl, hs]

theorem strokeEnd_of_not_records {d : PPDocument} (hi : d.fInStroke = true) (h : d.records = false) :
    d.strokeEnd = { d with fInStroke := false, fBeforeSnap := none, fStrokeBuf := none } := by
  unfold PPDocument.records at h
  unfold PPDocument.strokeEnd
  rw [if_neg (not_not.2 hi)]
  dsimp only
  by_cases hv : d.fCurrentStep.rect.Valid
  · rw [if_neg (not_not.2 hv)]
    rw [decide_eq_true hv, Bool.true_and] at h
    split
    · rename_i l snap hl hs
      rw [hl, hs] at h
      cases h
    · rfl
  · rw [if_pos hv]

theorem applyStep_fUndo (d : PPDocument) (step : UndoStep) (forward : Bool) : (d.applyStep step forward).fUndo = d.fUndo := by
  unfold PPDocument.applyStep
  cases layerById d.fLayers step.layerId with
  | none => rfl
  | some l => exact markDirty_fUndo _ _

theorem applyStep_fRedo (d : PPDocument) (step : UndoStep) (forward : Bool) : (d.applyStep step forward).fRedo = d.fRedo := by
  unfold PPDocument.applyStep
  cases layerById d.fLayers step.layerId with
  | none => rfl
  | some l => exact markDirty_fRedo _ _

section
variable {base d : PPDocument} (h : Stroking base d d.stepPoints)
include h

/-- **A stroke that pushes no step has changed nothing.** -/
theorem Stroking.unrecorded (hr : d.records = false) :
    d.strokeEnd.fLayers = base.fLayers ∧ d.strokeEnd.fUndo = base.fUndo := by
  rw [strokeEnd_of_not_records h.inStroke hr]
  refine ⟨?_, h.undo⟩
  show d.fLayers = base.fLayers
  cases hb : base.activeLayer with
  | none => exact h.idle hb
  | some l =>
    obtain ⟨m, h1, h2, h3, h4⟩ := h.layer l hb
    have hl := activeLayer_eq_some hb
    have hn : ¬ d.fCurrentStep.rect.Valid := fun hv => by
      unfold PPDocument.records at hr
      rw [decide_eq_true hv, h.layerId, h1, layerById_setBits, hl, h.snap, hb] at hr
      cases hr
    rw [h1, BBitmap.ext_pixel h2 h3 (fun x y => h4 x y (fun hc => hn hc.valid)), setBits_self hl]

/-- **The step of a stroke** leads back to the layers before it and forth again. -/
theorem Stroking.recorded (hr : d.records = true) : ∃ step, d.strokeEnd.fUndo = pushStep step base.fUndo ∧
    Reverts step d.strokeEnd.fLayers base.fLayers := by
  obtain ⟨l, snap, hv, hl, hsnap, hend⟩ := strokeEnd_of_records h.inStroke hr
  obtain ⟨l₀, hb⟩ : ∃ l₀, base.activeLayer = some l₀ := by
    cases hb : base.activeLayer with
    | none =>
      rw [h.snap, hb] at hsnap
      cases hsnap
    | some l₀ => exact ⟨l₀, rfl⟩
  obtain ⟨m, h1, h2, h3, h4⟩ := h.layer l₀ hb
  have hl₀ := activeLayer_eq_some hb
  have hsnap₀ : snap = l₀.bits := by
    rw [h.snap, hb] at hsnap
    exact (Option.some.inj hsnap).symm
  have hbits : l.bits = m := by
    rw [h.layerId, h1, layerById_setBits, hl₀] at hl
    rw [← Option.some.inj hl]
  have hout : ∀ x y, ¬ d.stepPoints x y → (d.landed l).pixel x y = l₀.bits.pixel x y := fun x y hx => by
    rw [landed_outside (fun buf hbuf => h.buffer buf hbuf x y hx), hbits]
    exact h4 x y hx
  refine ⟨{ d.fCurrentStep with
    before := snap.read d.fCurrentStep.rect, after := (d.landed l).read d.fCurrentStep.rect }, ?_, ?_⟩
  · rw [hend]
    exact (@endStroke_fUndo { d with fInStroke := false } l snap hl hv).trans (congrArg (pushStep _) h.undo)
  · have hlayers : d.strokeEnd.fLayers = setBits base.fActiveId (d.landed l) base.fLayers := by
      rw [hend, @endStroke_fLayers { d with fInStroke := false } l snap hl]
      exact (congrArg₂ (fun id ls => setBits id (d.landed l) ls) h.layerId h1).trans (setBits_setBits _ _ _ _)
    rw [hlayers]
    refine reverts_of_outside hl₀ h.layerId ?_ ?_ hout ?_ rfl
    · rw [landed_width, hbits, h2]
    · rw [landed_height, hbits, h3]
    · rw [hsnap₀]

end

/-! ## Complete strokes -/

structure Stroke where
  layer : Nat
  opacity : UInt8
  dabs : List Dab

def PPDocument.open (d : PPDocument) (s : Stroke) : PPDocument :=
  s.dabs.foldl PPDocument.dab ((d.setActiveLayer s.layer).strokeBegin s.opacity)

def PPDocument.stroke (d : PPDocument) (s : Stroke) : PPDocument := (d.open s).strokeEnd

def PPDocument.strokes (d : PPDocument) (ss : List Stroke) : PPDocument := ss.foldl PPDocument.stroke d

def PPDocument.recorded : PPDocument → List Stroke → Nat
  | _, []      => 0
  | d, s :: ss => (if (d.open s).records then 1 else 0) + (d.stroke s).recorded ss

theorem stroking_open (d : PPDocument) (s : Stroke) :
    Stroking (d.setActiveLayer s.layer) (d.open s) (d.open s).stepPoints :=
  Stroking.dabs s.dabs (stroking_strokeBegin _ s.opacity)

theorem setActiveLayer_fLayers (d : PPDocument) (id : Int) : (d.setActiveLayer id).fLayers = d.fLayers := by
  unfold PPDocument.setActiveLayer
  split <;> rfl

theorem setActiveLayer_fUndo (d : PPDocument) (id : Int) : (d.setActiveLayer id).fUndo = d.fUndo := by
  unfold PPDocument.setActiveLayer
  split <;> rfl

theorem pushStep_append {step : UndoStep} {steps older : List UndoStep} (h : steps.length < 40) :
    ∃ older', pushStep step (steps ++ older) = (step :: steps) ++ older' ∧ older' <+: older := by
  unfold pushStep
  split
  · rename_i hlen
    have hne : older ≠ [] := by
      rintro rfl
      simp only [append_nil, length_cons] at hlen
      omega
    refine ⟨older.dropLast, ?_, dropLast_prefix older⟩
    rw [← cons_append, dropLast_append_of_ne_nil hne]
  · exact ⟨older, rfl, prefix_refl older⟩

theorem strokes_leadsBack : ∀ (ss : List Stroke) {d : PPDocument} {steps older : List UndoStep} {v₀ : List PPLayer},
    d.fUndo = steps ++ older → LeadsBack Reverts steps d.fLayers v₀ → steps.length + ss.length ≤ 40 →
    ∃ steps' older', (d.strokes ss).fUndo = steps' ++ older' ∧ older' <+: older ∧
      steps'.length = steps.length + d.recorded ss ∧ LeadsBack Reverts steps' (d.strokes ss).fLayers v₀
  | [], _, steps, older, _, hu, hl, _ => ⟨steps, older, hu, prefix_refl older, rfl, hl⟩
  | s :: ss, d, steps, older, v₀, hu, hl, hn => by
    rw [length_cons] at hn
    have h := stroking_open d s
    unfold PPDocument.recorded
    cases hr : (d.open s).records with
    | false =>
      obtain ⟨h1, h2⟩ := h.unrecorded hr
      rw [setActiveLayer_fLayers] at h1
      rw [setActiveLayer_fUndo] at h2
      obtain ⟨steps', older', h3, h4, h5, h6⟩ := strokes_leadsBack ss (h2.trans hu)
        (by rw [h1]; exact hl) (by omega)
      refine ⟨steps', older', h3, h4, ?_, h6⟩
      rw [h5, if_neg Bool.false_ne_true, Nat.zero_add]
      rfl
    | true =>
      obtain ⟨step, h1, h2⟩ := h.recorded hr
      rw [setActiveLayer_fUndo, hu] at h1
      rw [setActiveLayer_fLayers] at h2
      obtain ⟨older₁, h3, h4⟩ := @pushStep_append step steps older (by omega)
      obtain ⟨steps', older', h5, h6, h7, h8⟩ := strokes_leadsBack ss (h1.trans h3) (hl.push h2)
        (by rw [length_cons]; omega)
      refine ⟨steps', older', h5, h6.trans h4, ?_, h8⟩
      rw [h7, if_pos rfl, length_cons, Nat.add_assoc]
      rfl

theorem undo_spec (d : PPDocument) (step : UndoStep) (steps : List UndoStep) (ls : List PPLayer)
    (hu : d.fUndo = step :: steps) (h : Reverts step d.fLayers ls) :
    d.undo.fLayers = ls ∧ d.undo.fUndo = steps ∧ d.undo.fRedo = step :: d.fRedo := by
  unfold PPDocument.undo
  rw [hu]
  dsimp only
  rw [applyStep_fLayers, applyStep_fUndo, applyStep_fRedo]
  exact ⟨h.1, rfl, rfl⟩

theorem redo_spec (d : PPDocument) (step : UndoStep) (steps : List UndoStep) (ls : List PPLayer)
    (hr : d.fRedo = step :: steps) (h : Reverts step ls d.fLayers) :
    d.redo.fLayers = ls ∧ d.redo.fRedo = steps ∧ d.redo.fUndo = step :: d.fUndo := by
  unfold PPDocument.redo
  rw [hr]
  dsimp only
  rw [applyStep_fLayers, applyStep_fUndo, applyStep_fRedo]
  exact ⟨h.2, rfl, rfl⟩

/-- **Undo and redo of strokes are exact.** -/
theorem strokes_undo_redo (d : PPDocument) (ss : List Stroke) (h : ss.length ≤ 40) :
    (d.strokes ss).fUndo.drop (d.recorded ss) <+: d.fUndo ∧
      (PPDocument.undo^[d.recorded ss] (d.strokes ss)).fLayers = d.fLayers ∧
      (PPDocument.redo^[d.recorded ss] (PPDocument.undo^[d.recorded ss] (d.strokes ss))).fLayers =
        (d.strokes ss).fLayers := by
  obtain ⟨steps, older, hu, hold, hlen, hl⟩ := @strokes_leadsBack ss d [] d.fUndo d.fLayers rfl rfl
    (by rw [length_nil, Nat.zero_add]; exact h)
  rw [length_nil, Nat.zero_add] at hlen
  rw [← hlen]
  refine ⟨?_, ?_, ?_⟩
  · rw [hu, drop_left]
    exact hold
  · exact LeadsBack.walk_back PPDocument.fUndo PPDocument.fRedo PPDocument.fLayers undo_spec steps hu hl
  · exact (LeadsBack.walk_forth PPDocument.fUndo PPDocument.fRedo PPDocument.fLayers undo_spec redo_spec steps hu hl).1

/-- A canvas of 2 by 2 with one layer, and a stroke of one dab that hangs over its corner. -/
def smallCanvas : PPDocument :=
  { fWidth := 2, fHeight := 2, fDPI := 96, fPaper := {}, fLayers := [{ id := 1, bits := BBitmap.cleared 2 2 }]
    fNextLayerId := 2, fActiveId := 1 }

def cornerStroke : Stroke := ⟨1, 255, [.colour 2 2 ⟨10, 20, 30, 255⟩ (some ⟨[200, 200, 200, 200], 2, 2⟩) 255]⟩

theorem strokes_undo_redo_cornerStroke : (((smallCanvas.strokes [cornerStroke]).fLayers.map
      (fun l => (l.bits.pixel 1 1).a)) = [200]) ∧
    (PPDocument.undo^[1] (smallCanvas.strokes [cornerStroke])).fLayers = smallCanvas.fLayers ∧
    (PPDocument.redo^[1] (PPDocument.undo^[1] (smallCanvas.strokes [cornerStroke]))).fLayers =
      (smallCanvas.strokes [cornerStroke]).fLayers := by
  have hn : smallCanvas.recorded [cornerStroke] = 1 := by decide
  have h := strokes_undo_redo smallCanvas [cornerStroke] (by decide)
  rw [hn] at h
  exact ⟨by decide, h.2⟩

end Paint
end Prose
