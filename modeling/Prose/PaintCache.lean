import Prose.PaintWhole
/-!
# PaintCache — the composite cache

`Composite` keeps the picture it made until `MarkDirty` says that a pixel of the canvas has changed.  So a call keeps the
cache right that marks the canvas dirty, or changes no pixel on it.  `LoadFromMessage` that finds no layer it can read has
dropped the layers and marks nothing.
-/
namespace Prose
namespace Paint

open BMessage List

def PPDocument.scratch (d : PPDocument) : BBitmap :=
  ⟨d.fWidth, d.fHeight, fun x y => if x < d.fWidth ∧ y < d.fHeight then compositePixel d.fLayers x y else {}⟩

/-- A cache that is not dirty is what compositing from scratch gives. -/
def Coherent (d : PPDocument) : Prop := d.fCompositeDirty = false → ∀ m ∈ d.fComposite, m = d.scratch

/-- `Composite` is going to composite. -/
def PPDocument.Stale (d : PPDocument) : Prop := d.fCompositeDirty = true ∨ d.fComposite = none

instance (d : PPDocument) : Decidable d.Stale := inferInstanceAs (Decidable (_ ∨ _))

theorem coherent_of_stale {d : PPDocument} (h : d.Stale) : Coherent d := by
  intro hd m hm
  rcases h with h | h
  · rw [hd] at h
    cases h
  · rw [h] at hm
    cases hm

/-! ## The picture -/

theorem foldl_setBits {β : Type} (f : β → PPLayer → β) {id : Int} {m : BBitmap} : ∀ {ls : List PPLayer} {l : PPLayer} (b : β),
    layerById ls id = some l → (∀ b, f b { l with bits := m } = f b l) → (setBits id m ls).foldl f b = ls.foldl f b
  | [], _, _, h, _ => by cases h
  | x :: ls, l, b, h, hf => by
    rw [layerById_cons] at h
    rw [setBits_cons]
    by_cases hx : x.id = id
    · rw [if_pos hx, Option.some.injEq] at h
      subst h
      rw [if_pos hx, foldl_cons, foldl_cons, hf]
    · rw [if_neg hx] at h
      rw [if_neg hx, foldl_cons, foldl_cons, foldl_setBits f _ h hf]

theorem compositePixel_setBits {ls : List PPLayer} {id : Int} {l : PPLayer} {m : BBitmap} {x y : Nat}
    (hl : layerById ls id = some l) (hm : m.pixel x y = l.bits.pixel x y) :
    compositePixel (setBits id m ls) x y = compositePixel ls x y := by
  unfold compositePixel
  refine foldl_setBits _ _ hl (fun p => ?_)
  dsimp only
  rw [hm]

theorem compositePixel_rename (id : Int) (name : String) (x y : Nat) (p : Pixel) : ∀ ls : List PPLayer,
    (modifyLayer id (fun l => { l with name := name }) ls).foldl
      (fun p l => if ¬ l.visible ∨ l.opacity = 0 then p else overPixel l.opacity (l.bits.pixel x y) p) p =
    ls.foldl (fun p l => if ¬ l.visible ∨ l.opacity = 0 then p else overPixel l.opacity (l.bits.pixel x y) p) p
  | [] => rfl
  | l :: ls => by
    unfold modifyLayer
    split
    · rfl
    · rw [foldl_cons, foldl_cons, compositePixel_rename id name x y _ ls]

theorem Coherent.of_view {d d' : PPDocument} (h : Coherent d) (hd : d'.fCompositeDirty = d.fCompositeDirty)
    (hc : d'.fComposite = d.fComposite) (hw : d'.fWidth = d.fWidth) (hh : d'.fHeight = d.fHeight)
    (hp : ∀ x y, x < d.fWidth → y < d.fHeight → compositePixel d'.fLayers x y = compositePixel d.fLayers x y) :
    Coherent d' := by
  intro hd' m hm
  rw [hd] at hd'
  rw [hc] at hm
  rw [h hd' m hm]
  refine BBitmap.ext_pixel hw.symm hh.symm (fun x y => ?_)
  show (if _ then _ else _) = (if _ then _ else _)
  rw [hw, hh]
  by_cases hin : x < d.fWidth ∧ y < d.fHeight
  · rw [if_pos hin, if_pos hin, hp x y hin.1 hin.2]
  · rw [if_neg hin, if_neg hin]

theorem Coherent.setBits {d : PPDocument} (h : Coherent d) {id : Int} {l : PPLayer} {m : BBitmap}
    (hl : layerById d.fLayers id = some l)
    (hm : ∀ x y, x < d.fWidth → y < d.fHeight → m.pixel x y = l.bits.pixel x y) :
    Coherent { d with fLayers := setBits id m d.fLayers } :=
  h.of_view rfl rfl rfl rfl (fun x y hx hy => compositePixel_setBits hl (hm x y hx hy))

/-! ## Marking -/

/-- A rectangle that does not meet the canvas is not marked; any other spoils the cache. -/
theorem coherent_markDirty {d : PPDocument} {r : Rect} (h : ¬ (r.inter d.canvas).Valid → Coherent d) :
    Coherent (d.markDirty r) := by
  unfold PPDocument.markDirty
  dsimp only
  split
  · rename_i hv
    exact h hv
  · exact coherent_of_stale (Or.inl rfl)

theorem dirty_markCanvas {d : PPDocument} {r : Rect} (hr : d.canvas = r) (h : r.Valid) :
    (d.markDirty r).fCompositeDirty = true := by
  unfold PPDocument.markDirty
  dsimp only
  rw [if_neg (not_not.2 (by rw [hr, Rect.inter_self]; exact h))]

theorem coherent_markCanvas {d : PPDocument} {r : Rect} (hr : d.canvas = r) (h : r.Valid) : Coherent (d.markDirty r) :=
  coherent_of_stale (Or.inl (dirty_markCanvas hr h))

theorem coherent_growStep {d : PPDocument} (h : Coherent d) (r : Rect) : Coherent (d.growStep r) := by
  unfold PPDocument.growStep
  split
  · exact h
  · exact h

theorem not_contains_of_not_valid {r : Rect} {d : PPDocument} (h : ¬ (r.inter d.canvas).Valid) {x y : Nat}
    (hx : x < d.fWidth) (hy : y < d.fHeight) : ¬ r.Contains x y := by
  intro hc
  refine h (Rect.contains_inter.2 ⟨hc, ?_⟩).valid
  unfold Rect.Contains PPDocument.canvas
  dsimp only
  omega

/-! ## The calls -/

section
variable {d : PPDocument} (h : Coherent d)
include h

theorem coherent_dabColour (x y : Int) (colour : RgbColor) (mask : Option Mask) (flow : UInt8) :
    Coherent (d.dabColour x y colour mask flow) := by
  unfold PPDocument.dabColour
  split
  · rename_i l mask hl
    refine coherent_growStep (coherent_markDirty ?_) _
    split
    · exact fun _ => h
    · refine fun hn => h.setBits (activeLayer_eq_some hl) (fun px py _ _ => ?_)
      exact underMask_outside _ _ (fun hc => hn hc.valid)
  · exact h

theorem coherent_dabErase (x y : Int) (mask : Option Mask) (flow : UInt8) : Coherent (d.dabErase x y mask flow) := by
  unfold PPDocument.dabErase
  split
  · rename_i l mask hl
    refine coherent_growStep (coherent_markDirty ?_) _
    split
    · exact fun _ => h
    · refine fun hn => h.setBits (activeLayer_eq_some hl) (fun px py _ _ => ?_)
      exact underMask_outside _ _ (fun hc => hn hc.valid)
  · exact h

theorem coherent_dabSmudge (x y : Int) (mask : Option Mask) (strength : UInt8) :
    Coherent (d.dabSmudge x y mask strength) := by
  unfold PPDocument.dabSmudge
  split
  · rename_i l mask hl
    dsimp only
    split
    · exact h
    refine coherent_growStep (coherent_markDirty (fun hn => ?_)) _
    have hs := h.setBits (m := underMask d.fWidth d.fHeight (x - (mask.maskSize : Int) / 2) (y - (mask.maskSize : Int) / 2)
      mask.maskSize (fun mx my p => if mask.byte mx my = 0 then p else
        (mixFoot d.fWidth d.fHeight (x - (mask.maskSize : Int) / 2) (y - (mask.maskSize : Int) / 2) mask strength l.bits
          d.fSmudgeFoot).getD (my * mask.maskSize + mx) p) l.bits)
      (activeLayer_eq_some hl) (fun px py _ _ => underMask_outside _ _ (fun hc => hn hc.valid))
    exact hs
  · exact h

theorem coherent_fillAt (hv : d.canvas.Valid) (x y : Int) (colour : RgbColor) (tolerance : UInt8) :
    Coherent (d.fillAt x y colour tolerance).1 := by
  unfold PPDocument.fillAt
  split
  · exact h
  · split
    · exact h
    · exact coherent_growStep (@coherent_markCanvas { d with fLayers := setBits _ _ _ } _ rfl hv) _

theorem coherent_strokeEnd (hv : d.canvas.Valid) : Coherent d.strokeEnd := by
  unfold PPDocument.strokeEnd
  split
  · exact h
  dsimp only
  split
  · exact h
  split
  · rename_i l snap hl hsnap
    unfold PPDocument.endStroke
    dsimp only
    cases d.fStrokeBuf with
    | none => exact h
    | some buf => exact coherent_markCanvas rfl hv
  · exact h

theorem coherent_applyStep (step : UndoStep) (forward : Bool) : Coherent (d.applyStep step forward) := by
  unfold PPDocument.applyStep
  split
  · exact h
  · rename_i l hl
    refine coherent_markDirty (fun hn => h.setBits hl (fun x y hx hy => if_neg ?_))
    exact not_contains_of_not_valid hn hx hy

theorem coherent_undo : Coherent d.undo := by
  unfold PPDocument.undo
  split
  · exact h
  · rename_i step rest _
    exact @coherent_applyStep { d with fUndo := rest } h step false

theorem coherent_redo : Coherent d.redo := by
  unfold PPDocument.redo
  split
  · exact h
  · rename_i step rest _
    exact @coherent_applyStep { d with fRedo := rest } h step true

theorem coherent_renameLayer (id : Int) (name : String) : Coherent (d.renameLayer id name) := by
  unfold PPDocument.renameLayer
  split
  · exact h.of_view rfl rfl rfl rfl (fun x y _ _ => compositePixel_rename id name x y {} d.fLayers)
  · exact h

theorem coherent_setLayerVisible (hv : d.canvas.Valid) (id : Int) (visible : Bool) :
    Coherent (d.setLayerVisible id visible) := by
  unfold PPDocument.setLayerVisible
  split
  · exact h
  · split
    · exact h
    · exact coherent_markCanvas rfl hv

theorem coherent_setLayerOpacity (hv : d.canvas.Valid) (id : Int) (opacity : UInt8) :
    Coherent (d.setLayerOpacity id opacity) := by
  unfold PPDocument.setLayerOpacity
  split
  · exact h
  · split
    · exact h
    · exact coherent_markCanvas rfl hv

theorem coherent_composite : Coherent d.composite.1 := by
  unfold PPDocument.composite
  dsimp only
  split
  · exact h
  · intro _ m hm
    rw [← Option.some.inj hm]
    rfl

end

/-! ## Steps -/

theorem canvas_markDirty (d : PPDocument) (r : Rect) : (d.markDirty r).canvas = d.canvas := by
  obtain ⟨_, _, h⟩ := markDirty_frame d r
  rw [h]
  rfl

theorem canvas_of_shape {d d' : PPDocument} (h : d'.shape = d.shape) : d'.canvas = d.canvas := by
  have hw : d'.fWidth = d.fWidth := congrArg Shape.width h
  have hh : d'.fHeight = d.fHeight := congrArg Shape.height h
  unfold PPDocument.canvas
  rw [hw, hh]

theorem canvas_valid {d : PPDocument} (hw : 0 < d.fWidth) (hh : 0 < d.fHeight) : d.canvas.Valid := by
  unfold PPDocument.canvas Rect.Valid
  dsimp only
  omega

structure Cached (d : PPDocument) : Prop where
  coherent : Coherent d
  canvas : d.canvas.Valid

theorem cached_markCanvas {d : PPDocument} {r : Rect} (hr : d.canvas = r) (h : r.Valid) (modified : Bool) :
    Cached { d.markDirty r with fModified := modified } := by
  refine ⟨coherent_markCanvas hr h, ?_⟩
  have hc : (d.markDirty r).canvas.Valid := by
    rw [canvas_markDirty, hr]
    exact h
  exact hc

theorem dirty_addLayer {d : PPDocument} (h : d.canvas.Valid) (name : Option String) :
    (d.addLayer name).fCompositeDirty = true := dirty_markCanvas (by rfl) h

theorem cached_addLayer {d : PPDocument} (h : d.canvas.Valid) (name : Option String) : Cached (d.addLayer name) :=
  cached_markCanvas (by rfl) h true

section
variable {d : PPDocument} (h : Cached d)
include h

theorem cached_addLayerOn (ok : Bool) (name : Option String) : Cached (d.addLayerOn ok name).1 := by
  unfold PPDocument.addLayerOn
  split
  · exact cached_addLayer h.canvas name
  · exact ⟨h.coherent, h.canvas⟩

theorem cached_deleteLayer (id : Int) : Cached (d.deleteLayer id) := by
  unfold PPDocument.deleteLayer
  split
  · exact h
  · split
    · exact h
    · exact cached_markCanvas (by rfl) h.canvas true

theorem cached_moveLayer (id : Int) (up : Bool) : Cached (d.moveLayer id up) := by
  unfold PPDocument.moveLayer
  dsimp only
  split
  · exact h
  split
  · split
    · exact h
    · exact cached_markCanvas (by rfl) h.canvas true
  · split
    · exact h
    · exact cached_markCanvas (by rfl) h.canvas true

theorem cached_setActiveLayer (id : Int) : Cached (d.setActiveLayer id) := by
  unfold PPDocument.setActiveLayer
  split
  · exact ⟨h.coherent, h.canvas⟩
  · exact h

theorem cached_resizeOn {ok : Memory} {width height : Int}
    (hr : d.RefusesSize width height ∨ (ok 0 = false ∧ d.fLayers ≠ []) ∨ ∀ i < d.fLayers.length, ok i = true) :
    Cached (d.resizeOn ok width height) := by
  rcases hr with hr | ⟨h0, hne⟩ | hall
  · have he : d.resizeOn ok width height = d := if_pos hr
    rw [he]
    exact h
  · rw [resizeOn_of_none h0 hne]
    exact h
  · rw [resizeOn_of_all hall]
    unfold PPDocument.resize
    split
    · exact h
    rename_i hn
    refine cached_markCanvas (by rfl) ?_ true
    refine canvas_valid ?_ ?_
    · show 0 < width.toNat
      omega
    · show 0 < height.toNat
      omega

end

theorem cached_setCanvasOn {d d' : PPDocument} (h : Cached d) {ok : Bool} {width height : Int} {dpi : Rat}
    {paper : PPPaper} {white : Bool} (hr : RefusesCanvas width height dpi ∨ ok = true ∨ d.Stale)
    (hd : d.setCanvasOn ok width height dpi paper white = some d') : Cached d' := by
  unfold PPDocument.setCanvasOn at hd
  split at hd
  · rw [← Option.some.inj hd]
    exact h
  rename_i hn
  have hsize : ({ d with
      fWidth := width.toNat, fHeight := height.toNat, fDPI := dpi, fPaper := paper, fLayers := [], fUndo := []
      fRedo := [], fNextLayerId := 1 } : PPDocument).canvas.Valid := by
    refine canvas_valid ?_ ?_
    · show 0 < width.toNat
      omega
    · show 0 < height.toNat
      omega
  unfold PPDocument.addLayerOn at hd
  dsimp only at hd
  cases ok with
  | true =>
    rw [if_pos rfl] at hd
    have hadd := cached_addLayer hsize (some "Background")
    have hdirty := dirty_addLayer hsize (some "Background")
    split at hd
    · obtain ⟨-, -, rfl⟩ := Option.map_eq_some_iff.1 hd
      exact ⟨coherent_of_stale (Or.inl hdirty), hadd.canvas⟩
    · rw [← Option.some.inj hd]
      exact ⟨hadd.coherent, hadd.canvas⟩
  | false =>
    rw [if_neg Bool.false_ne_true] at hd
    split at hd
    · cases hd
    rw [← Option.some.inj hd]
    rcases hr with hr | hr | hr
    · exact absurd hr hn
    · cases hr
    · exact ⟨coherent_of_stale hr, hsize⟩

theorem canvasOf_pos {msg : BMessage Rat} {w h : Nat} (hc : canvasOf msg = some (w, h)) : 0 < w ∧ 0 < h := by
  unfold canvasOf at hc
  split at hc
  · split at hc
    · cases hc
    · cases hc
      omega
  · cases hc

section
variable (unflate : List UInt8 → Nat → Option (List UInt8))

theorem cached_loadFromMessage {d : PPDocument} (h : Cached d) {ok : Memory} {msg : BMessage Rat}
    (hr : ∀ c ∈ canvasOf msg, readable unflate c.1 c.2 ok (all Field.message? "layer" msg) ≠ [] ∨ d.Stale) :
    Cached (d.loadFromMessage unflate ok msg).1 := by
  unfold PPDocument.loadFromMessage
  cases hc : canvasOf msg with
  | none => exact h
  | some c =>
    obtain ⟨w, ht⟩ := c
    obtain ⟨hw, hh⟩ := canvasOf_pos hc
    have hsize : (d.loaded unflate ok msg w ht).canvas.Valid := canvas_valid hw hh
    dsimp only
    cases hl : (d.loaded unflate ok msg w ht).fLayers.getLast? with
    | none =>
      refine ⟨coherent_of_stale ?_, hsize⟩
      rcases hr (w, ht) hc with hne | hs
      · refine absurd ?_ hne
        have hls := shape_loadLayers unflate w ht (all Field.message? "layer" msg) ok
        have hnil : loadLayers unflate w ht ok (all Field.message? "layer" msg) = [] := getLast?_eq_none_iff.1 hl
        rw [hnil] at hls
        exact map_eq_nil_iff.1 hls.symm
      · exact hs
    | some l => exact cached_markCanvas (by rfl) hsize false

/-- The step marks what it changes: `Resize` gets the bitmap of every layer or of none; `SetCanvas` gets the one of its
layer; `Composite` the one it needs; and `LoadFromMessage` refuses the size or has a layer it can read.  While the cache
is stale anyway, the last does not matter. -/
def Refreshes (d : PPDocument) (s : Step) : Prop :=
  match s.op with
  | .call (.resize width height) =>
    d.RefusesSize width height ∨ (s.ok 0 = false ∧ d.fLayers ≠ []) ∨ ∀ i < d.fLayers.length, s.ok i = true
  | .call (.setCanvas width height dpi _ _) => RefusesCanvas width height dpi ∨ s.ok 0 = true ∨ d.Stale
  | .call .composite => d.CacheFits ∨ s.ok 0 = true ∨ ¬ d.Stale
  | .loadFromMessage msg =>
    ∀ c ∈ canvasOf msg, readable unflate c.1 c.2 s.ok (all Field.message? "layer" msg) ≠ [] ∨ d.Stale
  | _ => True

theorem compositeOn_of_had {d : PPDocument} {ok : Bool} (h : d.CacheFits ∨ ok = true ∨ ¬ d.Stale) :
    d.compositeOn ok = some d.composite := by
  unfold PPDocument.compositeOn
  split
  · rename_i m hd hm
    unfold PPDocument.composite
    rw [hd, hm]
  rename_i hne
  by_cases hh : d.CacheFits ∨ ok = true
  · exact if_pos hh
  have hs := (or_assoc.2 h).resolve_left hh
  refine absurd ?_ hs
  cases hd : d.fCompositeDirty with
  | true => exact Or.inl hd
  | false =>
    cases hm : d.fComposite with
    | none => exact Or.inr hm
    | some m => exact absurd hm (hne m hd)

theorem coherent_callOn {d d' : PPDocument} (h : Cached d) {ok : Memory} {c : Call} (hc : ¬ c.Reshapes)
    (hr : Refreshes unflate d ⟨.call c, ok⟩) (hd : d.callOn ok c = some d') : Coherent d' := by
  obtain ⟨h, hv⟩ := h
  cases c with
  | strokeBegin opacity =>
    rw [← Option.some.inj hd, PPDocument.strokeBeginOn]
    split
    · exact h
    · exact h
  | dabColour x y colour mask flow =>
    rw [← Option.some.inj hd, PPDocument.dabColourOn]
    split
    · exact h
    · exact coherent_dabColour h x y colour mask flow
  | dabErase x y mask flow =>
    rw [← Option.some.inj hd, PPDocument.dabEraseOn]
    split
    · exact h
    · exact coherent_dabErase h x y mask flow
  | dabSmudge x y mask strength =>
    rw [← Option.some.inj hd]
    exact coherent_dabSmudge h x y mask strength
  | fillAt x y colour tolerance =>
    rw [← Option.some.inj hd]
    exact coherent_fillAt h hv x y colour tolerance
  | strokeEnd =>
    rw [← Option.some.inj hd]
    exact coherent_strokeEnd h hv
  | renameLayer id name =>
    rw [← Option.some.inj hd]
    exact coherent_renameLayer h id name
  | setLayerVisible id visible =>
    rw [← Option.some.inj hd]
    exact coherent_setLayerVisible h hv id visible
  | setLayerOpacity id opacity =>
    rw [← Option.some.inj hd]
    exact coherent_setLayerOpacity h hv id opacity
  | composite =>
    obtain ⟨p, hp, rfl⟩ := Option.map_eq_some_iff.1 hd
    rw [compositeOn_of_had hr] at hp
    rw [← Option.some.inj hp]
    exact coherent_composite h
  | undo =>
    rw [← Option.some.inj hd]
    exact coherent_undo h
  | redo =>
    rw [← Option.some.inj hd]
    exact coherent_redo h
  | savedClean =>
    rw [← Option.some.inj hd]
    exact h
  | addLayer | deleteLayer | moveLayer | setActiveLayer | resize | setCanvas => exact absurd trivial hc

/-- **A step that marks what it changes keeps the cache right.** -/
theorem cached_step {d d' : PPDocument} {s : Step} (h : Cached d) (hr : Refreshes unflate d s)
    (hd : d.step unflate s = some d') : Cached d' := by
  obtain ⟨op, ok⟩ := s
  cases op with
  | loadFromMessage msg =>
    rw [← Option.some.inj hd]
    exact cached_loadFromMessage unflate h hr
  | call c =>
    replace hd := callOn_of_step unflate hd
    by_cases hc : c.Reshapes
    · cases c with
      | addLayer name =>
        rw [← Option.some.inj hd]
        exact cached_addLayerOn h (ok 0) name
      | deleteLayer id =>
        rw [← Option.some.inj hd]
        exact cached_deleteLayer h id
      | moveLayer id up =>
        rw [← Option.some.inj hd]
        exact cached_moveLayer h id up
      | setActiveLayer id =>
        rw [← Option.some.inj hd]
        exact cached_setActiveLayer h id
      | resize width height =>
        rw [← Option.some.inj hd]
        exact cached_resizeOn h hr
      | setCanvas width height dpi paper white => exact cached_setCanvasOn h hr hd
      | _ => exact hc.elim
    · refine ⟨coherent_callOn unflate h hc hr hd, ?_⟩
      rw [canvas_of_shape (shape_callOn hc hd)]
      exact h.canvas

theorem cached_new : Cached PPDocument.new :=
  ⟨coherent_of_stale (by decide +kernel), by decide +kernel⟩

/-- **After every run that marks what it changes, `Composite` gives what compositing from scratch would.** -/
theorem composite_eq_scratch {ss : List Step} {d : PPDocument}
    (hr : Runs.Along (PPDocument.step unflate) (Refreshes unflate) PPDocument.new ss)
    (hd : PPDocument.new.steps unflate ss = some d) : (d.compositeOn true).map (·.2) = some d.scratch := by
  have hc : Cached d := Runs.run_inv (I := Cached) (fun _ _ _ h hq hs => cached_step unflate h hq hs) cached_new hr hd
  rw [compositeOn_of_had (Or.inr (Or.inl rfl)), Option.map_some, Option.some.injEq]
  unfold PPDocument.composite
  dsimp only
  split
  · rename_i m hdirty hm
    exact hc.coherent hdirty m hm
  · rfl

end

theorem steps_composite (unflate : List UInt8 → Nat → Option (List UInt8)) (d : PPDocument) (ss : List Step) :
    d.steps unflate (⟨.call .composite, fun _ => true⟩ :: ss) = d.composite.1.steps unflate ss := by
  have hb : d.Bounded .composite := ⟨fun _ hk => (nomatch hk), fun _ hm => (nomatch hm)⟩
  unfold PPDocument.steps
  rw [Runs.run_cons, step_call unflate hb]
  show ((d.compositeOn true).map (·.1)).bind _ = _
  rw [compositeOn_of_had (Or.inr (Or.inl rfl))]
  rfl

def halfLayer : List Step := [⟨.call .composite, fun _ => true⟩, ⟨.call (.addLayer none), fun _ => true⟩,
  ⟨.call (.setLayerOpacity 2 128), fun _ => true⟩]

theorem composite_eq_scratch_halfLayer : ∃ d, PPDocument.new.steps (fun _ _ => none) halfLayer = some d ∧
    (d.compositeOn true).map (·.2) = some d.scratch := by
  have hd := steps_composite (fun _ _ => none) PPDocument.new
    [⟨.call (.addLayer none), fun _ => true⟩, ⟨.call (.setLayerOpacity 2 128), fun _ => true⟩]
  exact ⟨_, hd.trans rfl, @composite_eq_scratch (fun _ _ => none) halfLayer _
    ⟨Or.inr (Or.inl rfl), fun _ _ => ⟨trivial, fun _ _ => ⟨trivial, fun _ _ => trivial⟩⟩⟩ (hd.trans rfl)⟩

/-- A picture made, and a message of the canvas's size without a layer. -/
def emptyMessage : List Step := [⟨.call .composite, fun _ => true⟩,
  ⟨.loadFromMessage [("w", .int32 793), ("h", .int32 1123)], fun _ => true⟩]

/-- `Composite` still gives the picture of the layers that `LoadFromMessage` has dropped. -/
theorem composite_keeps_dropped : ¬ ∀ (unflate : List UInt8 → Nat → Option (List UInt8)) (ss : List Step) (d : PPDocument),
    PPDocument.new.steps unflate ss = some d → d.fInStroke = false → (d.compositeOn true).map (·.2) = some d.scratch := by
  intro h
  have hs := h (fun _ _ => none) emptyMessage _ ((steps_composite _ _ _).trans rfl) (by decide +kernel)
  have hp := congrArg (Option.map (fun m : BBitmap => m.pixel 0 0)) hs
  exact absurd hp (by decide +kernel)

end Paint
end Prose
