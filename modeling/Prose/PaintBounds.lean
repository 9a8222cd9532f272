import Prose.PaintStroke
/-!
# PaintBounds — the copies stay inside the bitmaps

The layers and the undo steps have the size of the canvas, and a stroke's snapshot, buffer and rectangle cover it or lie
in it, as long as no `Resize` or `SetCanvas` takes the canvas away from under an open stroke.
-/
namespace Prose
namespace Paint

open List

def Copy.Inside (c : Copy) : Prop :=
  ∀ x y : Int, c.rect.Contains x y → (0 ≤ x ∧ x < c.width) ∧ 0 ≤ y ∧ y < c.height

def BBitmap.Covers (m : BBitmap) (width height : Nat) : Prop := width ≤ m.width ∧ height ≤ m.height

instance (m : BBitmap) (width height : Nat) : Decidable (m.Covers width height) := inferInstanceAs (Decidable (_ ∧ _))

def BBitmap.Sized (m : BBitmap) (width height : Nat) : Prop := m.width = width ∧ m.height = height

theorem BBitmap.Sized.covers {m : BBitmap} {width height : Nat} (h : m.Sized width height) : m.Covers width height :=
  ⟨h.1.ge, h.2.ge⟩

structure Fits (d : PPDocument) : Prop where
  layers : ∀ l ∈ d.fLayers, l.bits.Sized d.fWidth d.fHeight
  undo : ∀ step ∈ d.fUndo, step.rect.Within d.canvas
  redo : ∀ step ∈ d.fRedo, step.rect.Within d.canvas
  dirty : d.fInStroke = true → d.fDirty.Valid → d.fDirty.Within d.canvas
  rect : d.fInStroke = true → d.fCurrentStep.rect.Valid → d.fDirty.Valid ∧ d.fCurrentStep.rect.Within d.fDirty
  snap : d.fInStroke = true → ∀ m ∈ d.fBeforeSnap, m.Covers d.fWidth d.fHeight
  buffer : d.fInStroke = true → ∀ m ∈ d.fStrokeBuf, m.Covers d.fWidth d.fHeight

theorem inside_of_within {m : BBitmap} {r : Rect} {width height : Nat} (hm : m.Covers width height)
    (h : r.Within ⟨0, 0, width - 1, height - 1⟩) : (m.copy r).Inside := by
  rintro x y hc
  have hw := hm.1
  have hh := hm.2
  have hin := h.contains hc
  unfold Rect.Contains at hin
  dsimp only at hin
  refine ⟨⟨hin.1, ?_⟩, hin.2.2.1, ?_⟩
  · show x < (m.width : Int)
    omega
  · show y < (m.height : Int)
    omega

theorem sized_underMask {width height : Nat} {x0 y0 : Int} {maskSize : Nat} {f : Nat → Nat → Pixel → Pixel} {m : BBitmap}
    {w h : Nat} (hm : m.Sized w h) : (underMask width height x0 y0 maskSize f m).Sized w h := hm

theorem covers_underMask {width height : Nat} {x0 y0 : Int} {maskSize : Nat} {f : Nat → Nat → Pixel → Pixel} {m : BBitmap}
    {w h : Nat} (hm : m.Covers w h) : (underMask width height x0 y0 maskSize f m).Covers w h := hm

theorem markDirty_canvas {d : PPDocument} (h : d.canvas.Valid) :
    (d.markDirty d.canvas).fDirty.Valid ∧ d.canvas.Within (d.markDirty d.canvas).fDirty := by
  unfold PPDocument.markDirty
  dsimp only
  rw [Rect.inter_self, if_neg (not_not.2 h)]
  dsimp only
  split
  · exact ⟨h, Rect.Within.refl _⟩
  · rename_i hd
    exact ⟨Rect.valid_union (not_not.1 hd), Rect.within_union_right _ _⟩

theorem applyStep_canvas (d : PPDocument) (step : UndoStep) (forward : Bool) : (d.applyStep step forward).canvas = d.canvas := by
  unfold PPDocument.applyStep
  split
  · rfl
  rename_i l hl
  obtain ⟨_, _, h⟩ := markDirty_frame { d with
    fLayers := setBits step.layerId (l.bits.write step.rect (if forward then step.after else step.before))
      d.fLayers } step.rect
  rw [h]
  rfl

theorem mem_pushStep {step s : UndoStep} {steps : List UndoStep} (h : s ∈ pushStep step steps) : s = step ∨ s ∈ steps := by
  unfold pushStep at h
  split at h
  · exact mem_cons.1 (dropLast_subset _ h)
  · exact mem_cons.1 h

/-! ## The layers -/

theorem mem_layerById {ls : List PPLayer} {id : Int} {l : PPLayer} (h : layerById ls id = some l) : l ∈ ls :=
  mem_of_find?_eq_some h

theorem mem_setBits {id : Int} {m : BBitmap} {l : PPLayer} : ∀ {ls : List PPLayer}, l ∈ setBits id m ls → l ∈ ls ∨ l.bits = m
  | [], h => Or.inl h
  | x :: ls, h => by
    rw [setBits_cons] at h
    split at h
    · rcases mem_cons.1 h with rfl | h
      · exact Or.inr rfl
      · exact Or.inl (mem_cons_of_mem x h)
    · rcases mem_cons.1 h with rfl | h
      · exact Or.inl mem_cons_self
      · exact (mem_setBits h).imp_left (mem_cons_of_mem x)

theorem mem_modifyLayer {id : Int} {f : PPLayer → PPLayer} {l : PPLayer} : ∀ {ls : List PPLayer},
    l ∈ modifyLayer id f ls → l ∈ ls ∨ ∃ l' ∈ ls, l = f l'
  | [], h => Or.inl h
  | x :: ls, h => by
    unfold modifyLayer at h
    split at h
    · rcases mem_cons.1 h with rfl | h
      · exact Or.inr ⟨x, mem_cons_self, rfl⟩
      · exact Or.inl (mem_cons_of_mem x h)
    rcases mem_cons.1 h with rfl | h
    · exact Or.inl mem_cons_self
    · rcases mem_modifyLayer h with h | ⟨l', hl', he⟩
      · exact Or.inl (mem_cons_of_mem x h)
      · exact Or.inr ⟨l', mem_cons_of_mem x hl', he⟩

theorem mem_swapAt {ls : List PPLayer} {i j : Nat} {l : PPLayer} (h : l ∈ swapAt ls i j) : l ∈ ls := by
  unfold swapAt at h
  split at h
  · rename_i a b ha hb
    rcases mem_or_eq_of_mem_set h with h | rfl
    · rcases mem_or_eq_of_mem_set h with h | rfl
      · exact h
      · exact mem_of_getElem? hb
    · exact mem_of_getElem? ha
  · exact h

section
variable {d : PPDocument} (h : Fits d)
include h

theorem Fits.setLayers (ls : List PPLayer) (hl : ∀ l ∈ ls, l.bits.Sized d.fWidth d.fHeight) : Fits { d with fLayers := ls } :=
  ⟨hl, h.undo, h.redo, h.dirty, h.rect, h.snap, h.buffer⟩

theorem Fits.setBits (id : Int) {m : BBitmap} (hm : m.Sized d.fWidth d.fHeight) :
    Fits { d with fLayers := Paint.setBits id m d.fLayers } :=
  h.setLayers _ (fun l hl => (mem_setBits hl).elim (h.layers l) (fun he => by rw [he]; exact hm))

theorem Fits.modifyLayer (id : Int) (f : PPLayer → PPLayer)
    (hf : ∀ l, l.bits.Sized d.fWidth d.fHeight → (f l).bits.Sized d.fWidth d.fHeight) :
    Fits { d with fLayers := Paint.modifyLayer id f d.fLayers } :=
  h.setLayers _ (fun l hl => by
    rcases mem_modifyLayer hl with hl | ⟨l', hl', rfl⟩
    · exact h.layers l hl
    · exact hf l' (h.layers l' hl'))

theorem Fits.setModified (modified : Bool) : Fits { d with fModified := modified } :=
  ⟨h.layers, h.undo, h.redo, h.dirty, h.rect, h.snap, h.buffer⟩

theorem Fits.setBuffer {m : BBitmap} (hm : m.Covers d.fWidth d.fHeight) (erase : Bool) :
    Fits { d with fStrokeErase := erase, fStrokeBuf := some m } :=
  ⟨h.layers, h.undo, h.redo, h.dirty, h.rect, h.snap, fun _ m' hm' => by
    cases hm'
    exact hm⟩

theorem Fits.setFoot (foot : List Pixel) : Fits { d with fSmudgeFoot := foot } :=
  ⟨h.layers, h.undo, h.redo, h.dirty, h.rect, h.snap, h.buffer⟩

theorem Fits.markDirty (r : Rect) : Fits (d.markDirty r) := by
  unfold PPDocument.markDirty
  dsimp only
  split
  · exact h
  rename_i hv
  have hin := Rect.inter_within_right r d.canvas
  refine ⟨h.layers, h.undo, h.redo, fun hi _ => ?_, fun hi hr => ?_, h.snap, h.buffer⟩
  · dsimp only
    split
    · exact hin
    · rename_i hd
      exact Rect.Within.union_of (h.dirty hi (not_not.1 hd)) hin
  · obtain ⟨hd, hw⟩ := h.rect hi hr
    dsimp only
    rw [if_neg (not_not.2 hd)]
    exact ⟨Rect.valid_union hd, hw.trans (Rect.within_union_left _ _)⟩

theorem Fits.growStep {r : Rect} (hv : r.Valid → d.fDirty.Valid) (hr : r.Within d.fDirty) : Fits (d.growStep r) := by
  unfold PPDocument.growStep
  split
  · refine ⟨h.layers, h.undo, h.redo, h.dirty, fun hi hn => ?_, h.snap, h.buffer⟩
    dsimp only at hn ⊢
    split at hn
    · rename_i hc
      rw [if_pos hc]
      exact ⟨hv hn, hr⟩
    rename_i hc
    obtain ⟨h1, h2⟩ := h.rect hi (not_not.1 hc)
    rw [if_neg hc]
    exact ⟨h1, Rect.Within.union_of h2 hr⟩
  · exact h

theorem Fits.active {l : PPLayer} (hl : d.activeLayer = some l) : l.bits.Sized d.fWidth d.fHeight :=
  h.layers l (mem_layerById (activeLayer_eq_some hl))

/-! ## Strokes -/

theorem Fits.strokeBegin (opacity : UInt8) : Fits (d.strokeBegin opacity) := by
  have hno : ¬ noRect.Valid := by decide
  refine ⟨h.layers, h.undo, h.redo, fun _ hv => absurd hv hno, fun _ hv => absurd hv hno, fun _ m hm => ?_,
    fun _ m hm => by cases hm⟩
  obtain ⟨l, hl, rfl⟩ := Option.map_eq_some_iff.1 hm
  exact (h.active hl).covers

theorem Fits.strokeBuffer (hi : d.fInStroke = true) : d.strokeBuffer.Covers d.fWidth d.fHeight := by
  unfold PPDocument.strokeBuffer
  cases hb : d.fStrokeBuf with
  | none => exact ⟨Nat.le_refl _, Nat.le_refl _⟩
  | some m => exact h.buffer hi m hb

theorem Fits.marked (r : Rect) : Fits ((d.markDirty r).growStep (d.markDirty r).fDirty) :=
  (h.markDirty r).growStep id (Rect.Within.refl _)

theorem Fits.dabColour (x y : Int) (colour : RgbColor) (mask : Option Mask) (flow : UInt8) :
    Fits (d.dabColour x y colour mask flow) := by
  unfold PPDocument.dabColour
  split
  · rename_i l mask hl
    dsimp only
    refine Fits.marked ?_ _
    split
    · rename_i hi
      exact h.setBuffer (covers_underMask (h.strokeBuffer hi)) d.fStrokeErase
    · exact h.setBits _ (sized_underMask (h.active hl))
  · exact h

theorem Fits.dabErase (x y : Int) (mask : Option Mask) (flow : UInt8) : Fits (d.dabErase x y mask flow) := by
  unfold PPDocument.dabErase
  split
  · rename_i l mask hl
    dsimp only
    refine Fits.marked ?_ _
    split
    · rename_i hi
      exact h.setBuffer (covers_underMask (h.strokeBuffer hi)) true
    · exact h.setBits _ (sized_underMask (h.active hl))
  · exact h

theorem Fits.dabSmudge (x y : Int) (mask : Option Mask) (strength : UInt8) : Fits (d.dabSmudge x y mask strength) := by
  unfold PPDocument.dabSmudge
  split
  · rename_i l mask hl
    dsimp only
    split
    · exact h.setFoot _
    · exact Fits.marked ((h.setBits d.fActiveId (sized_underMask (h.active hl))).setFoot _) _
  · exact h

theorem Fits.fillAt (x y : Int) (colour : RgbColor) (tolerance : UInt8) : Fits (d.fillAt x y colour tolerance).1 := by
  unfold PPDocument.fillAt
  split
  · exact h
  rename_i l hl
  split
  · exact h
  rename_i hxy
  dsimp only
  obtain ⟨hw, hh, -⟩ := @fillLoop_outside d.fWidth d.fHeight (near (l.bits.pixel x.toNat y.toNat) tolerance)
    ⟨colour.blue, colour.green, colour.red, 255⟩
    { bits := l.bits, visited := List.replicate (d.fWidth * d.fHeight) false, stack := [y.toNat * d.fWidth + x.toNat] }
    length_replicate
  have hs := (h.setBits d.fActiveId ⟨hw.trans (h.active hl).1, hh.trans (h.active hl).2⟩).markDirty d.canvas
  have hc : d.canvas.Contains x y := by
    unfold Rect.Contains PPDocument.canvas
    dsimp only
    omega
  obtain ⟨h1, h2⟩ := @markDirty_canvas { d with fLayers := Paint.setBits d.fActiveId _ d.fLayers } hc.valid
  exact (hs.growStep (fun _ => h1) h2).setModified true

theorem Fits.strokeEnd : Fits d.strokeEnd := by
  have hclosed : ∀ {e : PPDocument}, e.fInStroke = false → (∀ l ∈ e.fLayers, l.bits.Sized e.fWidth e.fHeight) →
      (∀ step ∈ e.fUndo, step.rect.Within e.canvas) → (∀ step ∈ e.fRedo, step.rect.Within e.canvas) → Fits e :=
    fun hi h1 h2 h3 => by
      refine ⟨h1, h2, h3, ?_, ?_, ?_, ?_⟩ <;> exact fun hi' => by rw [hi] at hi'; cases hi'
  cases hi : d.fInStroke with
  | false =>
    unfold PPDocument.strokeEnd
    rw [hi]
    exact h
  | true =>
    cases hr : d.records with
    | false =>
      rw [strokeEnd_of_not_records hi hr]
      exact hclosed rfl h.layers h.undo h.redo
    | true =>
      obtain ⟨l, snap, hv, hl, -, hend⟩ := strokeEnd_of_records hi hr
      rw [hend]
      obtain ⟨hw, hh, hstroke, hredo⟩ := endStroke_frame { d with fInStroke := false } l snap
      have hl' := h.layers l (mem_layerById hl)
      refine hclosed hstroke ?_ ?_ ?_
      · rw [hw, hh, @endStroke_fLayers { d with fInStroke := false } l snap hl]
        exact (h.setBits _ ⟨(landed_width d l).trans hl'.1, (landed_height d l).trans hl'.2⟩).layers
      · unfold PPDocument.canvas
        rw [hw, hh, @endStroke_fUndo { d with fInStroke := false } l snap hl hv]
        rintro step hstep
        rcases mem_pushStep hstep with rfl | hstep
        · obtain ⟨h1, h2⟩ := h.rect hi hv
          exact h2.trans (h.dirty hi h1)
        · exact h.undo step hstep
      · rw [hredo]
        exact fun _ hstep => nomatch hstep

/-! ## Layers -/

theorem Fits.addLayer (name : Option String) : Fits (d.addLayer name) := by
  refine Fits.setModified (Fits.markDirty ?_ d.canvas) true
  refine ⟨fun l hl => ?_, h.undo, h.redo, h.dirty, h.rect, h.snap, h.buffer⟩
  rcases mem_append.1 hl with hl | hl
  · exact h.layers l hl
  · rw [mem_singleton.1 hl]
    exact ⟨rfl, rfl⟩

theorem Fits.deleteLayer (id : Int) : Fits (d.deleteLayer id) := by
  unfold PPDocument.deleteLayer
  split
  · exact h
  split
  · exact h
  · refine Fits.setModified (Fits.markDirty ?_ d.canvas) true
    exact ⟨fun l hl => h.layers l (mem_of_mem_eraseIdx hl), h.undo, h.redo, h.dirty, h.rect, h.snap, h.buffer⟩

theorem Fits.moveLayer (id : Int) (up : Bool) : Fits (d.moveLayer id up) := by
  have hswap : ∀ i j, Fits { { d with fLayers := swapAt d.fLayers i j }.markDirty d.canvas with fModified := true } :=
    fun i j => ((h.setLayers _ (fun l hl => h.layers l (mem_swapAt hl))).markDirty d.canvas).setModified true
  unfold PPDocument.moveLayer
  dsimp only
  split
  · exact h
  split
  · split
    · exact h
    · exact hswap _ _
  · split
    · exact h
    · exact hswap _ _

theorem Fits.renameLayer (id : Int) (name : String) : Fits (d.renameLayer id name) := by
  unfold PPDocument.renameLayer
  split
  · exact (h.modifyLayer id (fun l => { l with name := name }) (fun _ hl => hl)).setModified true
  · exact h

theorem Fits.setLayerVisible (id : Int) (visible : Bool) : Fits (d.setLayerVisible id visible) := by
  unfold PPDocument.setLayerVisible
  split
  · exact h
  · split
    · exact h
    · exact ((h.modifyLayer id (fun l => { l with visible := visible }) (fun _ hl => hl)).markDirty d.canvas).setModified true

theorem Fits.setLayerOpacity (id : Int) (opacity : UInt8) : Fits (d.setLayerOpacity id opacity) := by
  unfold PPDocument.setLayerOpacity
  split
  · exact h
  · split
    · exact h
    · exact ((h.modifyLayer id (fun l => { l with opacity := opacity }) (fun _ hl => hl)).markDirty d.canvas).setModified true

theorem Fits.setActiveLayer (id : Int) : Fits (d.setActiveLayer id) := by
  unfold PPDocument.setActiveLayer
  split
  · exact ⟨h.layers, h.undo, h.redo, h.dirty, h.rect, h.snap, h.buffer⟩
  · exact h

theorem Fits.composite : Fits d.composite.1 := by
  unfold PPDocument.composite
  dsimp only
  split
  · exact h
  · exact ⟨h.layers, h.undo, h.redo, h.dirty, h.rect, h.snap, h.buffer⟩

/-! ## The undo stack -/

theorem Fits.applyStep (step : UndoStep) (forward : Bool) : Fits (d.applyStep step forward) := by
  unfold PPDocument.applyStep
  split
  · exact h
  rename_i l hl
  have hwrite : (l.bits.write step.rect (if forward then step.after else step.before)).Sized d.fWidth d.fHeight :=
    h.layers l (mem_layerById hl)
  exact ((h.setBits _ hwrite).markDirty step.rect).setModified true

theorem Fits.undoStep : Fits d.undo := by
  unfold PPDocument.undo
  split
  · exact h
  rename_i step rest hu
  have hd := h.undo
  rw [hu] at hd
  have h' := @Fits.applyStep { d with fUndo := rest }
    ⟨h.layers, fun s hs => hd s (mem_cons_of_mem step hs), h.redo, h.dirty, h.rect, h.snap, h.buffer⟩ step false
  refine ⟨h'.layers, h'.undo, fun s hs => ?_, h'.dirty, h'.rect, h'.snap, h'.buffer⟩
  rcases mem_cons.1 hs with rfl | hs
  · have hcanvas := applyStep_canvas { d with fUndo := rest } s false
    exact Eq.mpr (congrArg s.rect.Within hcanvas) (hd s mem_cons_self)
  · exact h'.redo s hs

theorem Fits.redoStep : Fits d.redo := by
  unfold PPDocument.redo
  split
  · exact h
  rename_i step rest hr
  have hd := h.redo
  rw [hr] at hd
  have h' := @Fits.applyStep { d with fRedo := rest }
    ⟨h.layers, h.undo, fun s hs => hd s (mem_cons_of_mem step hs), h.dirty, h.rect, h.snap, h.buffer⟩ step true
  refine ⟨h'.layers, fun s hs => ?_, h'.redo, h'.dirty, h'.rect, h'.snap, h'.buffer⟩
  rcases mem_cons.1 hs with rfl | hs
  · have hcanvas := applyStep_canvas { d with fRedo := rest } s true
    exact Eq.mpr (congrArg s.rect.Within hcanvas) (hd s mem_cons_self)
  · exact h'.undo s hs

end

/-! ## Another canvas -/

/-- What the open stroke has marked lies on a canvas of this size, and the snapshot covers it. -/
def PPDocument.Spans (d : PPDocument) (width height : Nat) : Prop :=
  (d.fDirty.Valid → d.fDirty.Within ⟨0, 0, width - 1, height - 1⟩) ∧ ∀ m ∈ d.fBeforeSnap, m.Covers width height

instance (d : PPDocument) (width height : Nat) : Decidable (d.Spans width height) := inferInstanceAs (Decidable (_ ∧ _))

/-- A call that gives the canvas another size leaves an open stroke what it needs. -/
def PPDocument.Admits (d : PPDocument) : Call → Prop
  | .resize width height => d.fInStroke = true →
      ¬ (width < 1 ∨ height < 1 ∨ width > 8192 ∨ height > 8192 ∨ (width = d.fWidth ∧ height = d.fHeight)) →
      d.Spans width.toNat height.toNat
  | .setCanvas width height dpi _ _ => d.fInStroke = true → ¬ (width < 1 ∨ height < 1 ∨ dpi < 12) →
      d.Spans width.toNat height.toNat ∧ ∀ m ∈ d.fStrokeBuf, m.Covers width.toNat height.toNat
  | _ => True

theorem Fits.resize {d : PPDocument} (h : Fits d) {width height : Int} (ha : d.Admits (.resize width height)) :
    Fits (d.resize width height) := by
  unfold PPDocument.resize
  split
  · exact h
  rename_i hn
  refine Fits.setModified (Fits.markDirty ?_ _) true
  refine ⟨fun l hl => ?_, fun _ hs => (nomatch hs), fun _ hs => (nomatch hs), fun hi => (ha hi hn).1, h.rect,
    fun hi => (ha hi hn).2, fun _ m hm => (nomatch hm)⟩
  obtain ⟨l', -, rfl⟩ := mem_map.1 hl
  exact ⟨rfl, rfl⟩

theorem Fits.setCanvas {d : PPDocument} {width height : Int} {dpi : Rat} {paper : PPPaper} {white : Bool}
    (h : Fits d) (ha : d.Admits (.setCanvas width height dpi paper white)) :
    Fits (d.setCanvas width height dpi paper white) := by
  unfold PPDocument.setCanvas
  split
  · exact h
  rename_i hn
  have h' : Fits ({ d with
      fWidth := width.toNat, fHeight := height.toNat, fDPI := dpi, fPaper := paper, fLayers := [], fUndo := []
      fRedo := [], fNextLayerId := 1 } : PPDocument) :=
    ⟨fun _ hl => (nomatch hl), fun _ hs => (nomatch hs), fun _ hs => (nomatch hs), fun hi => (ha hi hn).1.1, h.rect,
      fun hi => (ha hi hn).1.2, fun hi => (ha hi hn).2⟩
  have h'' := h'.addLayer (some "Background")
  refine (h''.setLayers (if white then _ else _) ?_).setModified false
  split
  · exact (h''.modifyLayer 1 (fun l => { l with bits := l.bits.whitened _ _ }) (fun _ hl => hl)).layers
  · exact h''.layers

/-- **A call keeps the document fitting its canvas.** -/
theorem Fits.call {d : PPDocument} (h : Fits d) {c : Call} (ha : d.Admits c) : Fits (d.call c) := by
  cases c with
  | strokeBegin opacity => exact h.strokeBegin opacity
  | dabColour x y colour mask flow => exact h.dabColour x y colour mask flow
  | dabErase x y mask flow => exact h.dabErase x y mask flow
  | dabSmudge x y mask strength => exact h.dabSmudge x y mask strength
  | fillAt x y colour tolerance => exact h.fillAt x y colour tolerance
  | strokeEnd => exact h.strokeEnd
  | addLayer name => exact h.addLayer name
  | deleteLayer id => exact h.deleteLayer id
  | moveLayer id up => exact h.moveLayer id up
  | renameLayer id name => exact h.renameLayer id name
  | setLayerVisible id visible => exact h.setLayerVisible id visible
  | setLayerOpacity id opacity => exact h.setLayerOpacity id opacity
  | setActiveLayer id => exact h.setActiveLayer id
  | resize width height => exact h.resize ha
  | setCanvas width height dpi paper white => exact h.setCanvas ha
  | composite => exact h.composite
  | undo => exact h.undoStep
  | redo => exact h.redoStep
  | savedClean => exact h.setModified false

theorem fits_new : Fits PPDocument.new := by
  refine Fits.setCanvas ?_ (fun hi => by cases hi)
  exact ⟨fun _ hl => (nomatch hl), fun _ hs => (nomatch hs), fun _ hs => (nomatch hs), fun hi => (nomatch hi),
    fun hi => (nomatch hi), fun hi => (nomatch hi), fun hi => (nomatch hi)⟩

/-! ## Runs -/

def PPDocument.calls (d : PPDocument) (cs : List Call) : PPDocument := cs.foldl PPDocument.call d

def PPDocument.AdmitsAll : PPDocument → List Call → Prop
  | _, []      => True
  | d, c :: cs => d.Admits c ∧ (d.call c).AdmitsAll cs

theorem Fits.calls : ∀ (cs : List Call) {d : PPDocument}, Fits d → d.AdmitsAll cs → Fits (d.calls cs)
  | [], _, h, _ => h
  | _ :: cs, _, h, ha => Fits.calls cs (h.call ha.1) ha.2

section
variable {d : PPDocument} (h : Fits d)
include h

theorem Fits.strokeEndCopies : ∀ k ∈ d.strokeEndCopies, k.Inside := by
  unfold PPDocument.strokeEndCopies
  split
  · exact fun _ hk => nomatch hk
  rename_i hn
  rw [not_or, not_not, not_not] at hn
  obtain ⟨hi, hv⟩ := hn
  obtain ⟨h1, h2⟩ := h.rect hi hv
  have hin : d.fCurrentStep.rect.Within d.canvas := h2.trans (h.dirty hi h1)
  split
  · rename_i l snap hl hsnap
    have hsize := (h.layers l (mem_layerById hl)).covers
    rintro k hk
    rcases mem_append.1 hk with hk | hk
    · cases hb : d.fStrokeBuf with
      | none =>
        rw [hb] at hk
        cases hk
      | some buf =>
        rw [hb] at hk
        rcases mem_cons.1 hk with rfl | hk
        · exact inside_of_within (h.buffer hi buf hb) (Rect.Within.refl _)
        · rw [mem_singleton.1 hk]
          exact inside_of_within hsize (Rect.Within.refl _)
    · rcases mem_cons.1 hk with rfl | hk
      · exact inside_of_within (h.snap hi snap hsnap) hin
      unfold captureAfterCopies at hk
      rw [hl] at hk
      dsimp only at hk
      rw [if_neg (not_not.2 hv)] at hk
      rw [mem_singleton.1 hk]
      exact inside_of_within hsize hin
  · exact fun _ hk => nomatch hk

theorem Fits.applyStepCopies {step : UndoStep} (hs : step.rect.Within d.canvas) :
    ∀ k ∈ d.applyStepCopies step, k.Inside := by
  unfold PPDocument.applyStepCopies
  split
  · exact fun _ hk => nomatch hk
  rename_i l hl
  rintro k hk
  rw [mem_singleton.1 hk]
  exact inside_of_within (h.layers l (mem_layerById hl)).covers hs

theorem Fits.copies (c : Call) : ∀ k ∈ d.copies c, k.Inside := by
  unfold PPDocument.copies
  split
  · exact h.strokeEndCopies
  · split
    · exact fun _ hk => nomatch hk
    · rename_i step rest hu
      exact h.applyStepCopies (h.undo step (by rw [hu]; exact mem_cons_self))
  · split
    · exact fun _ hk => nomatch hk
    · rename_i step rest hr
      exact h.applyStepCopies (h.redo step (by rw [hr]; exact mem_cons_self))
  · exact fun _ hk => nomatch hk

end

/-- **Every copy of an admitted run lies in its bitmap.** -/
theorem copies_inside (cs : List Call) (c : Call) (ha : PPDocument.new.AdmitsAll cs) :
    ∀ k ∈ (PPDocument.new.calls cs).copies c, k.Inside := (fits_new.calls cs ha).copies c

/-- A dab at the far corner, a canvas cut down to 10 by 10, the end of the stroke. -/
def shrinkInStroke : List Call := [.strokeBegin 255, .dabColour 792 1121 ⟨0, 0, 0, 255⟩ (some ⟨[255], 1, 1⟩) 255, .resize 10 10]

/-- `Resize` leaves the rectangle of the open stroke. -/
theorem copies_outside : ¬ ∀ (cs : List Call) (c : Call), ∀ k ∈ (PPDocument.new.calls cs).copies c, k.Inside := by
  intro h
  have hk : (⟨10, 10, ⟨792, 1121, 792, 1121⟩⟩ : Copy) ∈ (PPDocument.new.calls shrinkInStroke).copies .strokeEnd := by
    decide +kernel
  exact absurd (h shrinkInStroke .strokeEnd _ hk 792 1121 (by decide)) (by decide)

/-- The same stroke at the near corner, which the smaller canvas keeps. -/
def shrinkAroundStroke : List Call := [.strokeBegin 255, .dabColour 0 0 ⟨0, 0, 0, 255⟩ (some ⟨[255], 1, 1⟩) 255,
  .resize 10 10, .dabErase 9 9 (some ⟨[255], 1, 1⟩) 255]

theorem copies_inside_shrinkAroundStroke : ((PPDocument.new.calls shrinkAroundStroke).copies .strokeEnd).length = 4 ∧
    ∀ k ∈ (PPDocument.new.calls shrinkAroundStroke).copies .strokeEnd, k.Inside :=
  ⟨by decide +kernel, copies_inside _ _ ⟨trivial, trivial, fun _ _ => by decide +kernel, trivial, trivial⟩⟩

end Paint
end Prose
