import Prose.PaintLoad
/-!
# PaintWhole — what a call that fails leaves behind

A document is whole when every layer has the size of the canvas and the active one is among them.  Painting keeps the
shape of a document: the size of its canvas, and the ids and the sizes of its layers.  `Resize` that runs out of bitmaps
after its first layer, and `LoadFromMessage` that finds no layer it can read or none but the last without an id, leave a
document that is not whole; every other step leaves one that is, and a step that fails leaves the document it met.
-/
namespace Prose
namespace Paint

open BMessage List

/-! ## The shape of a document -/

def PPLayer.shape (l : PPLayer) : Int × Nat × Nat := (l.id, l.bits.width, l.bits.height)

structure Shape where
  width : Nat
  height : Nat
  layers : List (Int × Nat × Nat)
  activeId : Int
  nextId : Int

def PPDocument.shape (d : PPDocument) : Shape :=
  ⟨d.fWidth, d.fHeight, d.fLayers.map PPLayer.shape, d.fActiveId, d.fNextLayerId⟩

/-- **Every layer has the size of the canvas, there is a layer, and the active one is among them.** -/
structure Whole (d : PPDocument) : Prop where
  sized : ∀ l ∈ d.fLayers, l.bits.Sized d.fWidth d.fHeight
  nonempty : d.fLayers ≠ []
  active : d.activeLayer.isSome

structure Steady (d : PPDocument) : Prop extends Whole d where
  next : 0 < d.fNextLayerId

theorem layerById_isSome {ls : List PPLayer} {id : Int} : (layerById ls id).isSome ↔ ∃ l ∈ ls, l.id = id := by
  unfold layerById
  rw [find?_isSome]
  simp only [decide_eq_true_eq]

theorem activeLayer_isSome {d : PPDocument} : d.activeLayer.isSome ↔ d.fActiveId ≠ 0 ∧ ∃ l ∈ d.fLayers, l.id = d.fActiveId := by
  rw [← layerById_isSome]
  unfold PPDocument.activeLayer
  split
  · rename_i h
    exact ⟨fun hl => ⟨h, hl⟩, fun hl => hl.2⟩
  · rename_i h
    exact ⟨fun hl => (nomatch hl), fun hl => absurd hl.1 h⟩

def Shape.Steady (s : Shape) : Prop :=
  (∀ x ∈ s.layers, x.2 = (s.width, s.height)) ∧ (s.activeId ≠ 0 ∧ ∃ x ∈ s.layers, x.1 = s.activeId) ∧ 0 < s.nextId

instance (s : Shape) : Decidable s.Steady := inferInstanceAs (Decidable (_ ∧ _))

theorem steady_iff {d : PPDocument} : Steady d ↔ d.shape.Steady := by
  unfold Shape.Steady PPDocument.shape
  simp only [mem_map, forall_exists_index, and_imp, forall_apply_eq_imp_iff₂, exists_exists_and_eq_and]
  constructor
  · intro h
    exact ⟨fun l hl => Prod.ext (h.sized l hl).1 (h.sized l hl).2, activeLayer_isSome.1 h.active, h.next⟩
  · rintro ⟨h1, h2, h3⟩
    have hne : d.fLayers ≠ [] := h2.2.elim (fun _ hl => ne_nil_of_mem hl.1)
    exact ⟨⟨fun l hl => ⟨congrArg Prod.fst (h1 l hl), congrArg Prod.snd (h1 l hl)⟩, hne, activeLayer_isSome.2 h2⟩, h3⟩

theorem Steady.of_shape {d d' : PPDocument} (h : Steady d) (hs : d'.shape = d.shape) : Steady d' := by
  rw [steady_iff, hs, ← steady_iff]
  exact h

/-! ## Painting keeps the shape -/

@[simp] theorem shape_markDirty (d : PPDocument) (r : Rect) : (d.markDirty r).shape = d.shape := by
  obtain ⟨_, _, h⟩ := markDirty_frame d r
  rw [h]
  rfl

@[simp] theorem shape_growStep (d : PPDocument) (r : Rect) : (d.growStep r).shape = d.shape := by
  unfold PPDocument.growStep
  split <;> rfl

theorem map_shape_setBits {id : Int} {m : BBitmap} : ∀ {ls : List PPLayer} {l : PPLayer}, layerById ls id = some l →
    m.Sized l.bits.width l.bits.height → (setBits id m ls).map PPLayer.shape = ls.map PPLayer.shape
  | [], _, h, _ => by cases h
  | x :: ls, l, h, hm => by
    rw [layerById_cons] at h
    rw [setBits_cons]
    by_cases hx : x.id = id
    · rw [if_pos hx, Option.some.injEq] at h
      subst h
      rw [if_pos hx, map_cons, map_cons]
      congr 1
      exact Prod.ext rfl (Prod.ext hm.1 hm.2)
    · rw [if_neg hx] at h
      rw [if_neg hx, map_cons, map_cons, map_shape_setBits h hm]

theorem shape_setBits {d : PPDocument} {id : Int} {l : PPLayer} {m : BBitmap} (hl : layerById d.fLayers id = some l)
    (hm : m.Sized l.bits.width l.bits.height) : { d with fLayers := setBits id m d.fLayers }.shape = d.shape := by
  unfold PPDocument.shape
  dsimp only
  rw [map_shape_setBits hl hm]

theorem map_shape_modifyLayer (id : Int) {f : PPLayer → PPLayer} (hf : ∀ l, (f l).shape = l.shape) :
    ∀ ls : List PPLayer, (modifyLayer id f ls).map PPLayer.shape = ls.map PPLayer.shape
  | [] => rfl
  | l :: ls => by
    unfold modifyLayer
    split
    · rw [map_cons, hf, map_cons]
    · rw [map_cons, map_shape_modifyLayer id hf ls, map_cons]

theorem shape_modifyLayer (d : PPDocument) (id : Int) {f : PPLayer → PPLayer} (hf : ∀ l, (f l).shape = l.shape) :
    { d with fLayers := modifyLayer id f d.fLayers }.shape = d.shape := by
  unfold PPDocument.shape
  dsimp only
  rw [map_shape_modifyLayer id hf]

theorem shape_dabColour (d : PPDocument) (x y : Int) (colour : RgbColor) (mask : Option Mask) (flow : UInt8) :
    (d.dabColour x y colour mask flow).shape = d.shape := by
  unfold PPDocument.dabColour
  split
  · rename_i l mask hl
    dsimp only
    rw [shape_growStep, shape_markDirty]
    split
    · rfl
    · exact shape_setBits (activeLayer_eq_some hl) ⟨rfl, rfl⟩
  · rfl

theorem shape_dabErase (d : PPDocument) (x y : Int) (mask : Option Mask) (flow : UInt8) :
    (d.dabErase x y mask flow).shape = d.shape := by
  unfold PPDocument.dabErase
  split
  · rename_i l mask hl
    dsimp only
    rw [shape_growStep, shape_markDirty]
    split
    · rfl
    · exact shape_setBits (activeLayer_eq_some hl) ⟨rfl, rfl⟩
  · rfl

theorem shape_dabSmudge (d : PPDocument) (x y : Int) (mask : Option Mask) (strength : UInt8) :
    (d.dabSmudge x y mask strength).shape = d.shape := by
  unfold PPDocument.dabSmudge
  split
  · rename_i l mask hl
    dsimp only
    split
    · rfl
    · rw [shape_growStep, shape_markDirty]
      exact shape_setBits (activeLayer_eq_some hl) ⟨rfl, rfl⟩
  · rfl

theorem shape_fillAt (d : PPDocument) (x y : Int) (colour : RgbColor) (tolerance : UInt8) :
    (d.fillAt x y colour tolerance).1.shape = d.shape := by
  unfold PPDocument.fillAt
  split
  · rfl
  rename_i l hl
  split
  · rfl
  obtain ⟨hw, hh, -⟩ := @fillLoop_outside d.fWidth d.fHeight (near (l.bits.pixel x.toNat y.toNat) tolerance)
    ⟨colour.blue, colour.green, colour.red, 255⟩
    { bits := l.bits, visited := List.replicate (d.fWidth * d.fHeight) false, stack := [y.toNat * d.fWidth + x.toNat] }
    length_replicate
  refine (shape_growStep _ _).trans ((shape_markDirty _ _).trans ?_)
  exact shape_setBits (activeLayer_eq_some hl) ⟨hw, hh⟩

theorem shape_strokeEnd (d : PPDocument) : d.strokeEnd.shape = d.shape := by
  unfold PPDocument.strokeEnd
  split
  · rfl
  dsimp only
  split
  · rfl
  split
  · rename_i l snap hl hsnap
    unfold PPDocument.endStroke
    dsimp only
    cases d.fStrokeBuf with
    | none => rfl
    | some buf => exact (shape_markDirty _ _).trans (shape_setBits hl ⟨rfl, rfl⟩)
  · rfl

theorem shape_applyStep (d : PPDocument) (step : UndoStep) (forward : Bool) :
    (d.applyStep step forward).shape = d.shape := by
  unfold PPDocument.applyStep
  split
  · rfl
  · rename_i l hl
    exact (shape_markDirty _ _).trans (shape_setBits hl ⟨rfl, rfl⟩)

theorem shape_undo (d : PPDocument) : d.undo.shape = d.shape := by
  unfold PPDocument.undo
  split
  · rfl
  · rename_i step rest _
    exact shape_applyStep { d with fUndo := rest } step false

theorem shape_redo (d : PPDocument) : d.redo.shape = d.shape := by
  unfold PPDocument.redo
  split
  · rfl
  · rename_i step rest _
    exact shape_applyStep { d with fRedo := rest } step true

theorem shape_renameLayer (d : PPDocument) (id : Int) (name : String) : (d.renameLayer id name).shape = d.shape := by
  unfold PPDocument.renameLayer
  split
  · exact shape_modifyLayer d id (fun _ => rfl)
  · rfl

theorem shape_setLayerVisible (d : PPDocument) (id : Int) (visible : Bool) :
    (d.setLayerVisible id visible).shape = d.shape := by
  unfold PPDocument.setLayerVisible
  split
  · rfl
  · split
    · rfl
    · exact (shape_markDirty _ _).trans (shape_modifyLayer d id (fun _ => rfl))

theorem shape_setLayerOpacity (d : PPDocument) (id : Int) (opacity : UInt8) :
    (d.setLayerOpacity id opacity).shape = d.shape := by
  unfold PPDocument.setLayerOpacity
  split
  · rfl
  · split
    · rfl
    · exact (shape_markDirty _ _).trans (shape_modifyLayer d id (fun _ => rfl))

theorem shape_composite (d : PPDocument) : d.composite.1.shape = d.shape := by
  unfold PPDocument.composite
  dsimp only
  split <;> rfl

/-! ## Layers come and go -/

theorem steady_layers {d d' : PPDocument} (h : Steady d) (hw : d'.fWidth = d.fWidth) (hh : d'.fHeight = d.fHeight)
    (hn : d'.fNextLayerId = d.fNextLayerId) (hl : ∀ l ∈ d'.fLayers, l ∈ d.fLayers)
    (ha : d'.fActiveId ≠ 0 ∧ ∃ l ∈ d'.fLayers, l.id = d'.fActiveId) : Steady d' where
  sized l hmem := by
    rw [hw, hh]
    exact h.sized l (hl l hmem)
  nonempty := ha.2.elim (fun _ hmem => ne_nil_of_mem hmem.1)
  active := activeLayer_isSome.2 ha
  next := by
    rw [hn]
    exact h.next

theorem steady_markDirty {d : PPDocument} {r : Rect} {modified : Bool} :
    Steady { d.markDirty r with fModified := modified } ↔ Steady d :=
  ⟨fun h => h.of_shape (shape_markDirty d r).symm, fun h => h.of_shape (shape_markDirty d r)⟩

theorem steady_addLayer {d : PPDocument} (h : ∀ l ∈ d.fLayers, l.bits.Sized d.fWidth d.fHeight) (hn : 0 < d.fNextLayerId)
    (name : Option String) : Steady (d.addLayer name) := by
  unfold PPDocument.addLayer
  refine steady_markDirty.2 ⟨⟨fun l hl => ?_, by simp, activeLayer_isSome.2 ⟨Int.ne_of_gt hn, ?_⟩⟩, ?_⟩
  · rcases mem_append.1 hl with hl | hl
    · exact h l hl
    · rw [mem_singleton.1 hl]
      exact ⟨rfl, rfl⟩
  · exact ⟨_, mem_append_right _ (mem_singleton_self _), rfl⟩
  · exact Int.lt_add_one_of_le (Int.le_of_lt hn)

theorem eraseIdx_findIdx (p : PPLayer → Bool) : ∀ ls : List PPLayer, ls.eraseIdx (ls.findIdx p) = ls.eraseP p
  | [] => rfl
  | l :: ls => by
    rw [findIdx_cons, eraseP_cons]
    cases hp : p l with
    | true => rfl
    | false =>
      rw [cond_false, eraseIdx_cons_succ, eraseIdx_findIdx p ls]
      rfl

theorem mem_swapAt_iff {ls : List PPLayer} {i j : Nat} {l : PPLayer} : l ∈ swapAt ls i j ↔ l ∈ ls := by
  unfold swapAt
  split
  · rename_i a b ha hb
    obtain ⟨hi, rfl⟩ := List.getElem?_eq_some_iff.1 ha
    obtain ⟨hj, rfl⟩ := List.getElem?_eq_some_iff.1 hb
    exact (set_set_perm hi hj).mem_iff
  · exact Iff.rfl

/-- The layers that stay when `DeleteLayer` takes one. -/
def PPDocument.remaining (d : PPDocument) (id : Int) : List PPLayer := d.fLayers.eraseP (fun l => decide (l.id = id))

/-- `DeleteLayer` does not pass the active layer on to a layer without an id. -/
def PPDocument.PassesOn (d : PPDocument) (id : Int) : Prop :=
  d.fActiveId = id → 1 < d.fLayers.length → ∀ l ∈ (d.remaining id).getLast?, l.id ≠ 0

theorem steady_deleteLayer {d : PPDocument} (h : Steady d) (id : Int) : Steady (d.deleteLayer id) ↔ d.PassesOn id := by
  unfold PPDocument.deleteLayer PPDocument.PassesOn
  have hactive := activeLayer_isSome.1 h.active
  split
  · rename_i hlen
    exact iff_of_true h (fun _ hlt => absurd hlt (Nat.not_lt.2 hlen))
  rename_i hlen
  split
  · rename_i hnone
    refine iff_of_true h (fun hid => ?_)
    rw [← hid, Option.isNone_iff_eq_none, ← Option.not_isSome_iff_eq_none, layerById_isSome] at hnone
    exact absurd hactive.2 hnone
  rename_i hsome
  rw [eraseIdx_findIdx, steady_markDirty]
  obtain ⟨l₀, hl₀, he₀⟩ := layerById_isSome.1 (Option.isSome_iff_ne_none.2 (Option.isNone_iff_eq_none.not.1 hsome))
  have hlast : ∃ l, (d.remaining id).getLast? = some l := by
    rw [← Option.isSome_iff_exists, getLast?_isSome, ← length_pos_iff_ne_nil, PPDocument.remaining,
      length_eraseP_of_mem hl₀ (decide_eq_true he₀)]
    omega
  obtain ⟨l, hl⟩ := hlast
  have hmem : ∀ l ∈ d.remaining id, l ∈ d.fLayers := fun l hl => mem_of_mem_eraseP hl
  by_cases hid : d.fActiveId = id
  · rw [if_pos hid]
    change Steady { d with
      fLayers := d.remaining id, fActiveId := ((d.remaining id).getLast?.map PPLayer.id).getD d.fActiveId } ↔ _
    rw [hl]
    constructor
    · rintro hs - - l' hl'
      rw [← Option.some.inj hl']
      exact (activeLayer_isSome.1 hs.active).1
    · intro hs
      exact steady_layers h rfl rfl rfl hmem ⟨hs hid (Nat.not_le.1 hlen) l rfl, l, mem_of_getLast? hl, rfl⟩
  · rw [if_neg hid]
    refine iff_of_true ?_ (fun hid' => absurd hid' hid)
    obtain ⟨h0, l₁, hl₁, he₁⟩ := hactive
    refine steady_layers h rfl rfl rfl hmem ⟨h0, l₁, (mem_eraseP_of_neg ?_).2 hl₁, he₁⟩
    rw [he₁, decide_eq_true_eq]
    exact hid

theorem steady_setActiveLayer {d : PPDocument} (h : Steady d) (id : Int) :
    Steady (d.setActiveLayer id) ↔ (id = 0 → layerById d.fLayers 0 = none) := by
  unfold PPDocument.setActiveLayer
  split
  · rename_i hl
    constructor
    · rintro hs rfl
      exact absurd rfl (activeLayer_isSome.1 hs.active).1
    · intro h0
      refine steady_layers h rfl rfl rfl (fun _ hl => hl) ⟨?_, layerById_isSome.1 hl⟩
      rintro rfl
      rw [h0 rfl] at hl
      cases hl
  · rename_i hl
    refine iff_of_true h ?_
    rintro rfl
    exact Option.not_isSome_iff_eq_none.1 hl

theorem steady_swapAt {d : PPDocument} (h : Steady d) (i j : Nat) : Steady { d with fLayers := swapAt d.fLayers i j } := by
  obtain ⟨h0, l, hl, he⟩ := activeLayer_isSome.1 h.active
  exact steady_layers h rfl rfl rfl (fun _ hl => mem_swapAt_iff.1 hl) ⟨h0, l, mem_swapAt_iff.2 hl, he⟩

theorem steady_moveLayer {d : PPDocument} (h : Steady d) (id : Int) (up : Bool) : Steady (d.moveLayer id up) := by
  unfold PPDocument.moveLayer
  dsimp only
  split
  · exact h
  split
  · split
    · exact h
    · exact steady_markDirty.2 (steady_swapAt h _ _)
  · split
    · exact h
    · exact steady_markDirty.2 (steady_swapAt h _ _)

/-! ## Another canvas -/

/-- `SetCanvas` refuses these arguments. -/
def RefusesCanvas (width height : Int) (dpi : Rat) : Prop := width < 1 ∨ height < 1 ∨ dpi < 12

theorem steady_setCanvasOn {d : PPDocument} (h : Steady d) (ok : Bool) (width height : Int) (dpi : Rat) (paper : PPPaper)
    (white : Bool) : (∀ d', d.setCanvasOn ok width height dpi paper white = some d' → Steady d') ↔
      RefusesCanvas width height dpi ∨ ok = true ∨ white = true := by
  unfold PPDocument.setCanvasOn
  split
  · rename_i hr
    refine iff_of_true (fun d' hd => ?_) (Or.inl hr)
    rw [← Option.some.inj hd]
    exact h
  rename_i hr
  cases ok with
  | true =>
    refine iff_of_true (fun d' hd => ?_) (Or.inr (Or.inl rfl))
    have hs := steady_addLayer (d := { d with
      fWidth := width.toNat, fHeight := height.toNat, fDPI := dpi, fPaper := paper, fLayers := [], fUndo := []
      fRedo := [], fNextLayerId := 1 }) (fun _ hl => nomatch hl) Int.one_pos (some "Background")
    unfold PPDocument.addLayerOn at hd
    dsimp only at hd
    rw [if_pos rfl] at hd
    split at hd
    · obtain ⟨-, -, rfl⟩ := Option.map_eq_some_iff.1 hd
      exact hs.of_shape (shape_modifyLayer (PPDocument.addLayer _ _) 1 (fun _ => rfl))
    · rw [← Option.some.inj hd]
      exact hs.of_shape rfl
  | false =>
    unfold PPDocument.addLayerOn
    dsimp only
    rw [if_neg Bool.false_ne_true]
    cases white with
    | true => exact iff_of_true (fun d' hd => nomatch hd) (Or.inr (Or.inr rfl))
    | false =>
      refine iff_of_false (fun hs => (hs _ rfl).nonempty rfl) ?_
      rintro (hr' | h' | h')
      · exact hr hr'
      · cases h'
      · cases h'

/-- `Resize` refuses these arguments. -/
def PPDocument.RefusesSize (d : PPDocument) (width height : Int) : Prop :=
  width < 1 ∨ height < 1 ∨ width > 8192 ∨ height > 8192 ∨ (width = d.fWidth ∧ height = d.fHeight)

instance (d : PPDocument) (width height : Int) : Decidable (d.RefusesSize width height) :=
  inferInstanceAs (Decidable (_ ∨ _))

section
variable (w h keepWidth keepHeight : Nat)

theorem resizeLayers_of_all : ∀ {ls : List PPLayer} {ok : Memory}, (∀ i < ls.length, ok i = true) →
    resizeLayers w h keepWidth keepHeight ok ls =
      (ls.map (fun l : PPLayer => { l with bits := l.bits.resized w h keepWidth keepHeight }), true)
  | [], _, _ => rfl
  | l :: ls, ok, hok => by
    unfold resizeLayers
    rw [if_pos (hok 0 (Nat.zero_lt_succ _)),
      @resizeLayers_of_all ls ok.next (fun i hi => hok (i + 1) (Nat.succ_lt_succ hi))]
    rfl

theorem resizeLayers_snd : ∀ {ls : List PPLayer} {ok : Memory},
    (resizeLayers w h keepWidth keepHeight ok ls).2 = true ↔ ∀ i < ls.length, ok i = true
  | [], _ => iff_of_true rfl (fun _ hi => nomatch hi)
  | l :: ls, ok => by
    unfold resizeLayers
    split
    · rename_i h0
      refine (@resizeLayers_snd ls ok.next).trans ⟨fun hs i hi => ?_, fun hs i hi => hs (i + 1) (Nat.succ_lt_succ hi)⟩
      cases i with
      | zero => exact h0
      | succ i => exact hs i (Nat.lt_of_succ_lt_succ hi)
    · rename_i h0
      exact iff_of_false Bool.false_ne_true (fun hs => h0 (hs 0 (Nat.zero_lt_succ _)))

theorem resizeLayers_head {l : PPLayer} {ls : List PPLayer} {ok : Memory} :
    (resizeLayers w h keepWidth keepHeight ok (l :: ls)).1 = l :: ls ∧ ok 0 = false ∨
      ∃ l' ∈ (resizeLayers w h keepWidth keepHeight ok (l :: ls)).1, l'.bits.Sized w h ∧ ok 0 = true := by
  unfold resizeLayers
  split
  · rename_i h0
    exact Or.inr ⟨_, mem_cons_self, ⟨rfl, rfl⟩, h0⟩
  · rename_i h0
    exact Or.inl ⟨rfl, Bool.eq_false_iff.2 h0⟩

end

/-- The canvas size, the layers with their pixels and the active layer are the same. -/
structure Same (d d' : PPDocument) : Prop where
  width : d'.fWidth = d.fWidth
  height : d'.fHeight = d.fHeight
  layers : d'.fLayers = d.fLayers
  activeId : d'.fActiveId = d.fActiveId

theorem Same.refl (d : PPDocument) : Same d d := ⟨rfl, rfl, rfl, rfl⟩

theorem resizeOn_of_all {d : PPDocument} {ok : Memory} (hok : ∀ i < d.fLayers.length, ok i = true) (width height : Int) :
    d.resizeOn ok width height = d.resize width height := by
  unfold PPDocument.resizeOn PPDocument.resize
  split
  · rfl
  · dsimp only
    rw [resizeLayers_of_all _ _ _ _ hok]
    rfl

theorem resizeOn_of_none {d : PPDocument} {ok : Memory} (h0 : ok 0 = false) (hne : d.fLayers ≠ []) (width height : Int) :
    d.resizeOn ok width height = d := by
  obtain ⟨l, ls, hls⟩ := exists_cons_of_ne_nil hne
  have hr : ∀ w h kw kh, resizeLayers w h kw kh ok d.fLayers = (d.fLayers, false) := fun w h kw kh => by
    rw [hls]
    exact if_neg (by rw [h0]; exact Bool.false_ne_true)
  unfold PPDocument.resizeOn
  split
  · rfl
  · dsimp only
    rw [hr]
    rfl

theorem steady_resize {d : PPDocument} (h : Steady d) (width height : Int) : Steady (d.resize width height) := by
  unfold PPDocument.resize
  split
  · exact h
  refine steady_markDirty.2 ⟨⟨fun l hl => ?_, fun hnil => h.nonempty (map_eq_nil_iff.1 hnil), ?_⟩, h.next⟩
  · obtain ⟨l', -, rfl⟩ := mem_map.1 hl
    exact ⟨rfl, rfl⟩
  · obtain ⟨h0, l, hl, he⟩ := activeLayer_isSome.1 h.active
    exact activeLayer_isSome.2 ⟨h0, _, mem_map_of_mem hl, he⟩

theorem steady_resizeOn {d : PPDocument} (h : Steady d) (ok : Memory) (width height : Int) :
    ((¬ d.RefusesSize width height ∧ (∃ i < d.fLayers.length, ok i = false) → Same d (d.resizeOn ok width height)) ∧
      Steady (d.resizeOn ok width height)) ↔
    d.RefusesSize width height ∨ ok 0 = false ∨ ∀ i < d.fLayers.length, ok i = true := by
  by_cases hr : d.RefusesSize width height
  · have he : d.resizeOn ok width height = d := if_pos hr
    rw [he]
    exact iff_of_true ⟨fun _ => Same.refl d, h⟩ (Or.inl hr)
  by_cases hall : ∀ i < d.fLayers.length, ok i = true
  · rw [resizeOn_of_all hall]
    refine iff_of_true ⟨?_, steady_resize h width height⟩ (Or.inr (Or.inr hall))
    rintro ⟨-, i, hi, hfail⟩
    rw [hall i hi] at hfail
    cases hfail
  have hdone := mt (resizeLayers_snd width.toNat height.toNat (min d.fWidth width.toNat)
    (min d.fHeight height.toNat)).1 hall
  have he : d.resizeOn ok width height = { d with
      fLayers := (resizeLayers width.toNat height.toNat (min d.fWidth width.toNat)
        (min d.fHeight height.toNat) ok d.fLayers).1 } := (if_neg hr).trans (if_pos hdone)
  rw [he]
  obtain ⟨l, ls, hls⟩ := exists_cons_of_ne_nil h.nonempty
  rw [hls]
  rcases @resizeLayers_head width.toNat height.toNat (min d.fWidth width.toNat) (min d.fHeight height.toNat) l ls ok with ⟨hsame, h0⟩ | ⟨l', hl', hsize, h0⟩
  · refine iff_of_true ?_ (Or.inr (Or.inl h0))
    rw [hsame, ← hls]
    exact ⟨fun _ => Same.refl d, h⟩
  refine iff_of_false (fun hs => ?_) ?_
  · have hd := hs.2.sized l' hl'
    refine hr ?_
    have h1 : width.toNat = d.fWidth := hsize.1.symm.trans hd.1
    have h2 : height.toNat = d.fHeight := hsize.2.symm.trans hd.2
    unfold PPDocument.RefusesSize
    omega
  · rintro (hr' | h0' | hall')
    · exact hr hr'
    · rw [h0] at h0'
      cases h0'
    · rw [← hls] at hall'
      exact hall hall'

/-! ## Loading -/

section
variable (unflate : List UInt8 → Nat → Option (List UInt8))

/-- A layer's message with bits, and rows long enough, for which the loader asks for a bitmap. -/
def Asks (w : Nat) (m : BMessage Rat) : Prop := (find Field.data? "bits" m).isSome ∧ ¬ findD Field.int32? "bpr" 0 m < w * 4

instance (w : Nat) (m : BMessage Rat) : Decidable (Asks w m) := inferInstanceAs (Decidable (_ ∧ _))

def Inflates (w h : Nat) (m : BMessage Rat) : Prop :=
  ∃ data ∈ find Field.data? "bits" m, (unflate data (w * 4 * h)).isSome

instance (w h : Nat) (m : BMessage Rat) : Decidable (Inflates unflate w h m) := inferInstanceAs (Decidable (∃ _ ∈ _, _))

/-- The layers' messages that can be read: among those for which the loader asks for a bitmap, those that get one and
inflate. -/
def readable (w h : Nat) (ok : Memory) (ms : List (BMessage Rat)) : List (BMessage Rat) :=
  (((ms.filter (fun m => decide (Asks w m))).zipIdx).filter
    (fun p => ok p.2 && decide (Inflates unflate w h p.1))).map Prod.fst

theorem readable_cons_of_asks {w h : Nat} {m : BMessage Rat} (hm : Asks w m) (ok : Memory) (ms : List (BMessage Rat)) :
    readable unflate w h ok (m :: ms) =
      (if ok 0 = true ∧ Inflates unflate w h m then [m] else []) ++ readable unflate w h ok.next ms := by
  unfold readable
  have hdec : decide (Asks w m) = true := decide_eq_true hm
  rw [filter_cons, if_pos hdec, zipIdx_cons, zipIdx_succ, filter_cons, filter_map]
  have hcond : (ok 0 && decide (Inflates unflate w h m)) = true ↔ ok 0 = true ∧ Inflates unflate w h m := by
    rw [Bool.and_eq_true, decide_eq_true_eq]
  by_cases hc : ok 0 = true ∧ Inflates unflate w h m
  · rw [if_pos (hcond.2 hc), if_pos hc, map_cons, map_map]
    rfl
  · rw [if_neg (mt hcond.1 hc), if_neg hc, map_map]
    rfl

theorem readable_cons_of_not_asks {w h : Nat} {m : BMessage Rat} (hm : ¬ Asks w m) (ok : Memory)
    (ms : List (BMessage Rat)) : readable unflate w h ok (m :: ms) = readable unflate w h ok ms := by
  unfold readable
  rw [filter_cons_of_neg (by rw [decide_eq_true_eq]; exact hm)]

/-- **A layer for each message that can be read**, of the size of the canvas. -/
theorem shape_loadLayers (w h : Nat) : ∀ (ms : List (BMessage Rat)) (ok : Memory),
    (loadLayers unflate w h ok ms).map PPLayer.shape =
      (readable unflate w h ok ms).map (fun m => (findD Field.int32? "id" 0 m, w, h))
  | [], _ => rfl
  | m :: ms, ok => by
    have ih := shape_loadLayers w h ms
    unfold loadLayers
    cases hdata : find Field.data? "bits" m with
    | none =>
      rw [readable_cons_of_not_asks unflate (fun ha => by simp [Asks, hdata] at ha)]
      exact ih ok
    | some data =>
      dsimp only
      split
      · rename_i hbpr
        rw [readable_cons_of_not_asks unflate (fun ha => ha.2 hbpr)]
        exact ih ok
      rename_i hbpr
      rw [readable_cons_of_asks unflate ⟨by rw [hdata]; rfl, hbpr⟩]
      have hinf : Inflates unflate w h m ↔ (unflate data (w * 4 * h)).isSome := by
        unfold Inflates
        rw [hdata]
        simp
      split
      · rename_i h0
        cases hu : unflate data (w * 4 * h) with
        | none =>
          rw [if_neg (by rw [hinf, hu]; simp)]
          exact ih ok.next
        | some bytes =>
          rw [if_pos ⟨h0, by rw [hinf, hu]; rfl⟩]
          exact congrArg (_ :: ·) (ih ok.next)
      · rename_i h0
        rw [if_neg (fun hc => h0 hc.1)]
        exact ih ok.next

theorem one_le_foldl_nextLayerId : ∀ (ls : List PPLayer) (n : Int), 1 ≤ n →
    1 ≤ ls.foldl (fun n l => max n ((l.id + 1).bmod 4294967296)) n
  | [], _, h => h
  | _ :: ls, _, h => one_le_foldl_nextLayerId ls _ (Int.le_trans h (Int.le_max_left _ _))

theorem nextLayerId_pos (ls : List PPLayer) : 0 < nextLayerId ls := one_le_foldl_nextLayerId ls 1 (Int.le_refl 1)

/-- The loader has a size it goes on with, and a layer it can read; the last such has an id. -/
def Loads (ok : Memory) (msg : BMessage Rat) (w h : Nat) : Prop :=
  ∃ m ∈ (readable unflate w h ok (all Field.message? "layer" msg)).getLast?, findD Field.int32? "id" 0 m ≠ 0

theorem steady_loadFromMessage {d : PPDocument} (h : Steady d) (ok : Memory) (msg : BMessage Rat) :
    (((d.loadFromMessage unflate ok msg).2 ≠ .ok → Same d (d.loadFromMessage unflate ok msg).1) ∧
      Steady (d.loadFromMessage unflate ok msg).1) ↔ ∀ c ∈ canvasOf msg, Loads unflate ok msg c.1 c.2 := by
  unfold PPDocument.loadFromMessage
  cases hc : canvasOf msg with
  | none => exact iff_of_true ⟨fun _ => Same.refl d, h⟩ (fun _ hc => nomatch hc)
  | some c =>
    obtain ⟨w, ht⟩ := c
    dsimp only
    have hls : (d.loaded unflate ok msg w ht).fLayers.map PPLayer.shape =
        (readable unflate w ht ok (all Field.message? "layer" msg)).map (fun m => (findD Field.int32? "id" 0 m, w, ht)) :=
      shape_loadLayers unflate w ht _ ok
    have hlast := congrArg List.getLast? hls
    rw [getLast?_map, getLast?_map] at hlast
    have hloads : (∀ c ∈ some (w, ht), Loads unflate ok msg c.1 c.2) ↔
        ∃ l ∈ (d.loaded unflate ok msg w ht).fLayers.getLast?, l.id ≠ 0 := by
      simp only [Option.mem_def, Option.some.injEq, forall_eq', Loads]
      cases hr : (readable unflate w ht ok (all Field.message? "layer" msg)).getLast? with
      | none =>
        rw [hr, Option.map_none, Option.map_eq_none_iff] at hlast
        rw [hlast]
        simp
      | some m =>
        rw [hr, Option.map_some, Option.map_eq_some_iff] at hlast
        obtain ⟨l, hl, he⟩ := hlast
        have hid : l.id = findD Field.int32? "id" 0 m := congrArg Prod.fst he
        rw [hl]
        simp [hid]
    rw [hloads]
    cases hl : (d.loaded unflate ok msg w ht).fLayers.getLast? with
    | none =>
      refine iff_of_false (fun hs => hs.2.nonempty (getLast?_eq_none_iff.1 hl)) ?_
      rintro ⟨l, hl, -⟩
      cases hl
    | some l =>
      have hmem := mem_of_getLast? hl
      simp only [Option.mem_def, Option.some.injEq, exists_eq_left']
      rw [steady_markDirty]
      constructor
      · exact fun hs => (activeLayer_isSome.1 hs.2.active).1
      · intro h0
        refine ⟨fun hn => absurd rfl hn, ⟨fun l' hl' => ?_, ne_nil_of_mem hmem,
          activeLayer_isSome.2 ⟨h0, l, hmem, rfl⟩⟩, nextLayerId_pos _⟩
        have hs : l'.shape ∈ (d.loaded unflate ok msg w ht).fLayers.map PPLayer.shape := mem_map_of_mem hl'
        rw [hls, mem_map] at hs
        obtain ⟨m, -, he⟩ := hs
        exact ⟨congrArg (fun x => x.2.1) he.symm, congrArg (fun x => x.2.2) he.symm⟩

/-! ## Steps -/

def Call.Reshapes : Call → Prop
  | .addLayer _ | .deleteLayer _ | .moveLayer _ _ | .setActiveLayer _ | .resize _ _ | .setCanvas _ _ _ _ _ => True
  | _ => False

theorem shape_callOn {d d' : PPDocument} {ok : Memory} {c : Call} (hc : ¬ c.Reshapes) (h : d.callOn ok c = some d') :
    d'.shape = d.shape := by
  cases c with
  | strokeBegin opacity =>
    rw [← Option.some.inj h, PPDocument.strokeBeginOn]
    split <;> rfl
  | dabColour x y colour mask flow =>
    rw [← Option.some.inj h, PPDocument.dabColourOn]
    split
    · rfl
    · exact shape_dabColour d x y colour mask flow
  | dabErase x y mask flow =>
    rw [← Option.some.inj h, PPDocument.dabEraseOn]
    split
    · rfl
    · exact shape_dabErase d x y mask flow
  | dabSmudge x y mask strength =>
    rw [← Option.some.inj h]
    exact shape_dabSmudge d x y mask strength
  | fillAt x y colour tolerance =>
    rw [← Option.some.inj h]
    exact shape_fillAt d x y colour tolerance
  | strokeEnd =>
    rw [← Option.some.inj h]
    exact shape_strokeEnd d
  | renameLayer id name =>
    rw [← Option.some.inj h]
    exact shape_renameLayer d id name
  | setLayerVisible id visible =>
    rw [← Option.some.inj h]
    exact shape_setLayerVisible d id visible
  | setLayerOpacity id opacity =>
    rw [← Option.some.inj h]
    exact shape_setLayerOpacity d id opacity
  | composite =>
    obtain ⟨p, hp, rfl⟩ := Option.map_eq_some_iff.1 h
    unfold PPDocument.compositeOn at hp
    split at hp
    · rw [← Option.some.inj hp]
    split at hp
    · rw [← Option.some.inj hp]
      exact shape_composite d
    split at hp
    · cases hp
    · rw [← Option.some.inj hp]
      rfl
  | undo =>
    rw [← Option.some.inj h]
    exact shape_undo d
  | redo =>
    rw [← Option.some.inj h]
    exact shape_redo d
  | savedClean =>
    rw [← Option.some.inj h]
    rfl
  | addLayer | deleteLayer | moveLayer | setActiveLayer | resize | setCanvas => exact absurd trivial hc

theorem bounded_of_reshapes (d : PPDocument) {c : Call} (hc : c.Reshapes) : d.Bounded c := by
  cases c with
  | addLayer | deleteLayer | moveLayer | setActiveLayer | resize | setCanvas =>
    exact ⟨fun _ hk => (nomatch hk), fun _ hm => (nomatch hm)⟩
  | _ => exact hc.elim

theorem step_call {d : PPDocument} {c : Call} (hb : d.Bounded c) (ok : Memory) :
    d.step unflate ⟨.call c, ok⟩ = d.callOn ok c := if_pos hb

theorem callOn_of_step {d d' : PPDocument} {c : Call} {ok : Memory} (h : d.step unflate ⟨.call c, ok⟩ = some d') :
    d.callOn ok c = some d' := by
  by_cases hb : d.Bounded c
  · rw [← step_call unflate hb ok]
    exact h
  · cases (if_neg hb).symm.trans h

def Fails (d : PPDocument) (s : Step) : Prop :=
  match s.op with
  | .call (.resize width height) => ¬ d.RefusesSize width height ∧ ∃ i < d.fLayers.length, s.ok i = false
  | .call (.addLayer _) => s.ok 0 = false
  | .loadFromMessage msg => (d.loadFromMessage unflate s.ok msg).2 ≠ .ok
  | _ => False

/-- `Resize` gets the bitmap of every layer or already fails to get the first; `SetCanvas` gets the one of its layer, or
has no outcome; no layer without an id becomes the active one; `LoadFromMessage` refuses the size or has layers it can
read, the last of them with an id. -/
def Keeps (d : PPDocument) (s : Step) : Prop :=
  match s.op with
  | .call (.resize width height) =>
    d.RefusesSize width height ∨ s.ok 0 = false ∨ ∀ i < d.fLayers.length, s.ok i = true
  | .call (.setCanvas width height dpi _ white) => RefusesCanvas width height dpi ∨ s.ok 0 = true ∨ white = true
  | .call (.deleteLayer id) => d.PassesOn id
  | .call (.setActiveLayer id) => id = 0 → layerById d.fLayers 0 = none
  | .loadFromMessage msg => ∀ c ∈ canvasOf msg, Loads unflate s.ok msg c.1 c.2
  | _ => True

/-- **A step keeps a whole document whole and fails without a trace if and only if `Keeps`.** -/
theorem steady_step_iff {d : PPDocument} (h : Steady d) (s : Step) :
    (∀ d', d.step unflate s = some d' → (Fails unflate d s → Same d d') ∧ Steady d') ↔ Keeps unflate d s := by
  obtain ⟨op, ok⟩ := s
  cases op with
  | loadFromMessage msg =>
    refine Iff.trans ?_ (steady_loadFromMessage unflate h ok msg)
    exact ⟨fun hs => hs _ rfl, fun hs d' hd => by rw [← Option.some.inj hd]; exact hs⟩
  | call c =>
    by_cases hc : c.Reshapes
    · simp only [step_call unflate (bounded_of_reshapes d hc) ok]
      cases c with
      | addLayer name =>
        refine iff_of_true (fun d' hd => ?_) trivial
        rw [← Option.some.inj hd]
        unfold PPDocument.addLayerOn
        split
        · rename_i h0
          exact ⟨fun hf => (Bool.false_ne_true (hf.symm.trans h0)).elim, steady_addLayer h.sized h.next name⟩
        · exact ⟨fun _ => ⟨rfl, rfl, rfl, rfl⟩, ⟨h.sized, h.nonempty, h.active⟩, Int.lt_add_one_of_le (Int.le_of_lt h.next)⟩
      | deleteLayer id =>
        refine Iff.trans ?_ (steady_deleteLayer h id)
        exact ⟨fun hs => (hs _ rfl).2, fun hs d' hd => ⟨fun hf => hf.elim, by rw [← Option.some.inj hd]; exact hs⟩⟩
      | moveLayer id up =>
        refine iff_of_true (fun d' hd => ⟨fun hf => hf.elim, ?_⟩) trivial
        rw [← Option.some.inj hd]
        exact steady_moveLayer h id up
      | setActiveLayer id =>
        refine Iff.trans ?_ (steady_setActiveLayer h id)
        exact ⟨fun hs => (hs _ rfl).2, fun hs d' hd => ⟨fun hf => hf.elim, by rw [← Option.some.inj hd]; exact hs⟩⟩
      | resize width height =>
        refine Iff.trans ?_ (steady_resizeOn h ok width height)
        exact ⟨fun hs => hs _ rfl, fun hs d' hd => by rw [← Option.some.inj hd]; exact hs⟩
      | setCanvas width height dpi paper white =>
        refine Iff.trans ?_ (steady_setCanvasOn h (ok 0) width height dpi paper white)
        exact ⟨fun hs d' hd => (hs d' hd).2, fun hs d' hd => ⟨fun hf => hf.elim, hs d' hd⟩⟩
      | _ => exact hc.elim
    · have hshape : ∀ d', d.step unflate ⟨.call c, ok⟩ = some d' → Steady d' := fun d' hd =>
        h.of_shape (shape_callOn hc (callOn_of_step unflate hd))
      cases c with
      | addLayer | deleteLayer | moveLayer | setActiveLayer | resize | setCanvas => exact absurd trivial hc
      | _ => exact iff_of_true (fun d' hd => ⟨fun hf => hf.elim, hshape d' hd⟩) trivial

/-! ## Runs -/

theorem next_of_shape {d d' : PPDocument} (h : 0 < d.fNextLayerId) (hs : d'.shape = d.shape) : 0 < d'.fNextLayerId := by
  have he : d'.fNextLayerId = d.fNextLayerId := congrArg Shape.nextId hs
  rw [he]
  exact h

theorem next_markDirty {d : PPDocument} {r : Rect} (h : 0 < d.fNextLayerId) : 0 < (d.markDirty r).fNextLayerId :=
  next_of_shape h (shape_markDirty d r)

theorem next_resizeOn {d : PPDocument} (h : 0 < d.fNextLayerId) (ok : Memory) (width height : Int) :
    0 < (d.resizeOn ok width height).fNextLayerId := by
  unfold PPDocument.resizeOn
  split
  · exact h
  dsimp only
  split
  · exact h
  · exact next_markDirty h

theorem next_addLayerOn {d : PPDocument} (h : 0 < d.fNextLayerId) (ok : Bool) (name : Option String) :
    0 < (d.addLayerOn ok name).1.fNextLayerId := by
  have hlt : 0 < d.fNextLayerId + 1 := Int.lt_add_one_of_le (Int.le_of_lt h)
  unfold PPDocument.addLayerOn
  split
  · exact next_markDirty hlt
  · exact hlt

theorem next_setCanvasOn {d d' : PPDocument} (h : 0 < d.fNextLayerId) {ok : Bool} {width height : Int} {dpi : Rat}
    {paper : PPPaper} {white : Bool} (hd : d.setCanvasOn ok width height dpi paper white = some d') :
    0 < d'.fNextLayerId := by
  unfold PPDocument.setCanvasOn at hd
  split at hd
  · rw [← Option.some.inj hd]
    exact h
  dsimp only at hd
  split at hd
  · obtain ⟨-, -, rfl⟩ := Option.map_eq_some_iff.1 hd
    exact next_addLayerOn Int.one_pos ok _
  · rw [← Option.some.inj hd]
    exact next_addLayerOn Int.one_pos ok _

theorem next_step {d d' : PPDocument} (h : 0 < d.fNextLayerId) {s : Step} (hd : d.step unflate s = some d') :
    0 < d'.fNextLayerId := by
  obtain ⟨op, ok⟩ := s
  cases op with
  | loadFromMessage msg =>
    rw [← Option.some.inj hd]
    unfold PPDocument.loadFromMessage
    split
    · exact h
    dsimp only
    split
    · exact nextLayerId_pos _
    · exact next_markDirty (nextLayerId_pos _)
  | call c =>
    replace hd := callOn_of_step unflate hd
    by_cases hc : c.Reshapes
    · cases c with
      | addLayer name =>
        rw [← Option.some.inj hd]
        exact next_addLayerOn h (ok 0) name
      | deleteLayer id =>
        rw [← Option.some.inj hd]
        show 0 < (d.deleteLayer id).fNextLayerId
        unfold PPDocument.deleteLayer
        split
        · exact h
        · split
          · exact h
          · exact next_markDirty h
      | moveLayer id up =>
        rw [← Option.some.inj hd]
        show 0 < (d.moveLayer id up).fNextLayerId
        unfold PPDocument.moveLayer
        dsimp only
        split
        · exact h
        split
        · split
          · exact h
          · exact next_markDirty h
        · split
          · exact h
          · exact next_markDirty h
      | setActiveLayer id =>
        rw [← Option.some.inj hd]
        show 0 < (d.setActiveLayer id).fNextLayerId
        unfold PPDocument.setActiveLayer
        split <;> exact h
      | resize width height =>
        rw [← Option.some.inj hd]
        exact next_resizeOn h ok width height
      | setCanvas width height dpi paper white => exact next_setCanvasOn h hd
      | _ => exact hc.elim
    · exact next_of_shape h (shape_callOn hc hd)

theorem steady_new : Steady PPDocument.new := steady_iff.2 (by decide +kernel)

/-- Every document of a run from a new one is whole, and a step of the run that fails leaves the document it met. -/
def AllOrNothing (ss : List Step) : Prop :=
  Whole PPDocument.new ∧ ∀ pre s post d, ss = pre ++ s :: post → PPDocument.new.steps unflate pre = some d →
    ∀ d', d.step unflate s = some d' → (Fails unflate d s → Same d d') ∧ Whole d'

/-- **A run is all or nothing if and only if `Keeps` all the way.** -/
theorem allOrNothing_iff (ss : List Step) :
    AllOrNothing unflate ss ↔ Runs.Along (PPDocument.step unflate) (Keeps unflate) PPDocument.new ss := by
  refine (and_iff_right steady_new.toWhole).trans (Runs.along_iff.symm.trans
    (Runs.along_congr (I := Steady) (fun d s d' h hk hd => ?_) (fun d s h => ?_) steady_new))
  · exact ((steady_step_iff unflate h s).2 hk d' hd).2
  · rw [← steady_step_iff unflate h s]
    exact ⟨fun hs d' hd => ⟨(hs d' hd).1, (hs d' hd).2, next_step unflate h.next hd⟩,
      fun hs d' hd => ⟨(hs d' hd).1, (hs d' hd).2.toWhole⟩⟩

end

def secondLayer : Step := ⟨.call (.addLayer none), fun _ => true⟩

/-- `Resize(10, 10)` with a bitmap for the first layer only. -/
def resizeShort : Step := ⟨.call (.resize 10 10), fun n => decide (n = 0)⟩

/-- `Resize` has replaced the first layer when the bitmap of the second fails. -/
theorem resize_half_done : ¬ ∀ (unflate : List UInt8 → Nat → Option (List UInt8)) (ss : List Step), AllOrNothing unflate ss := by
  intro h
  have hs := ((h (fun _ _ => none) [secondLayer, resizeShort]).2 [secondLayer] resizeShort [] _ rfl rfl _ rfl).1
  have hf : Fails (fun _ _ => none) (PPDocument.new.addLayer none) resizeShort := ⟨by decide +kernel, 1, by decide +kernel⟩
  have hl := congrArg (List.map PPLayer.shape) (hs hf).layers
  exact absurd hl (by decide +kernel)

end Paint
end Prose
