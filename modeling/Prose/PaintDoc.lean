import Mathlib.Data.Rat.Floor
import Mathlib.Data.Rat.Defs
import Prose.Rects
import Prose.Splice
/-!
# PaintDoc — `PPDocument.cpp`

The layers, the strokes, the fill, the composite and the undo stack, translated function by function.  A loop over a
rectangle meets every pixel once, so it is written as what becomes of a pixel.  The arithmetic of a channel is that of
`uint32`s too small to wrap.  `copies` lists the rectangles that `StrokeEnd` and `ApplyStep` copy, with the sizes of the
bitmaps they copy from and to.

The types are those of `PPDocument.h`.  A bitmap is its size and a pixel for every column and row; the padding of a row is not
modelled, and no allocation fails.  The edges of a `BRect` are whole pixels, far below 2^24, where a `float` is exact.
-/
namespace Prose
namespace Paint

open Splice List

/-! ## The data -/

/-- Four bytes of a `B_RGBA32` row: blue, green, red, alpha. -/
structure Pixel where
  b : UInt8 := 0
  g : UInt8 := 0
  r : UInt8 := 0
  a : UInt8 := 0
deriving DecidableEq

structure RgbColor where
  red : UInt8
  green : UInt8
  blue : UInt8
  alpha : UInt8

/-- A `B_RGBA32` bitmap: the pixel in a column and a row. -/
structure BBitmap where
  width : Nat
  height : Nat
  pixel : Nat → Nat → Pixel

def BBitmap.cleared (width height : Nat) : BBitmap := ⟨width, height, fun _ _ => {}⟩

/-- `Bounds`. -/
def BBitmap.bounds (m : BBitmap) : Rect := ⟨0, 0, m.width - 1, m.height - 1⟩

/-- The default `BRect`, which is not valid. -/
def noRect : Rect := ⟨0, 0, -1, -1⟩

structure PPLayer where
  id : Int
  name : String := ""
  visible : Bool := true
  opacity : UInt8 := 255
  bits : BBitmap

structure PPPaper where
  name : String := "A4"
  widthPt : Rat := 595
  heightPt : Rat := 842

/-- One stroke: the bytes of its rectangle before and after, by column and row from its corner. -/
structure UndoStep where
  layerId : Int := 0
  rect : Rect := noRect
  before : Nat → Nat → Pixel := fun _ _ => {}
  after : Nat → Nat → Pixel := fun _ _ => {}

structure PPDocument where
  fWidth : Nat
  fHeight : Nat
  fDPI : Rat
  fPaper : PPPaper
  fLayers : List PPLayer := []
  fNextLayerId : Int := 1
  fActiveId : Int := 0
  fComposite : Option BBitmap := none
  fCompositeDirty : Bool := true
  fDirty : Rect := noRect
  fInStroke : Bool := false
  fCurrentStep : UndoStep := {}
  fBeforeSnap : Option BBitmap := none
  fStrokeBuf : Option BBitmap := none
  fStrokeErase : Bool := false
  fStrokeOpacity : UInt8 := 255
  fSmudgeFoot : List Pixel := []
  fUndo : List UndoStep := []
  fRedo : List UndoStep := []
  fModified : Bool := false

/-- A brush mask, `maskBpr` bytes from a row to the next. -/
structure Mask where
  bytes : List UInt8
  maskSize : Nat
  maskBpr : Nat

/-- `mask[my * maskBpr + mx]`. -/
def Mask.byte (m : Mask) (mx my : Nat) : UInt8 := m.bytes.getD (my * m.maskBpr + mx) 0

/-! ## Layers -/

def layerById (ls : List PPLayer) (id : Int) : Option PPLayer := ls.find? (fun l => decide (l.id = id))

/-- The bits of the layer `LayerById` finds, replaced. -/
def setBits (id : Int) (m : BBitmap) : List PPLayer → List PPLayer
  | []      => []
  | l :: ls => if l.id = id then { l with bits := m } :: ls else l :: setBits id m ls

def PPDocument.activeLayer (d : PPDocument) : Option PPLayer :=
  if d.fActiveId ≠ 0 then layerById d.fLayers d.fActiveId else none

/-- `BRect(0, 0, fWidth - 1, fHeight - 1)`. -/
def PPDocument.canvas (d : PPDocument) : Rect := ⟨0, 0, d.fWidth - 1, d.fHeight - 1⟩

def PPDocument.markDirty (d : PPDocument) (r : Rect) : PPDocument :=
  let c := r.inter d.canvas
  if ¬ c.Valid then d
  else { d with fCompositeDirty := true, fDirty := if ¬ d.fDirty.Valid then c else d.fDirty.union c }

def PPDocument.addLayer (d : PPDocument) (name : Option String) : PPDocument :=
  let id := d.fNextLayerId
  let l : PPLayer :=
    { id := id
      name := match name with
        | some n => if n ≠ "" then n else if d.fLayers = [] then "Background" else "Layer " ++ toString id
        | none => if d.fLayers = [] then "Background" else "Layer " ++ toString id
      bits := BBitmap.cleared d.fWidth d.fHeight }
  { { d with fNextLayerId := id + 1, fLayers := d.fLayers ++ [l], fActiveId := id }.markDirty d.canvas with
    fModified := true }

def PPDocument.deleteLayer (d : PPDocument) (id : Int) : PPDocument :=
  if d.fLayers.length ≤ 1 then d
  else if (layerById d.fLayers id).isNone then d
  else
    let rest := d.fLayers.eraseIdx (d.fLayers.findIdx (fun l => decide (l.id = id)))
    { { d with
        fLayers := rest
        fActiveId := if d.fActiveId = id then (rest.getLast?.map PPLayer.id).getD d.fActiveId else d.fActiveId }.markDirty
          d.canvas with fModified := true }

/-- `std::swap` of two neighbours. -/
def swapAt (ls : List PPLayer) (i j : Nat) : List PPLayer :=
  match ls[i]?, ls[j]? with
  | some a, some b => (ls.set i b).set j a
  | _, _ => ls

def PPDocument.moveLayer (d : PPDocument) (id : Int) (up : Bool) : PPDocument :=
  let idx := d.fLayers.findIdx (fun l => decide (l.id = id))
  if idx ≥ d.fLayers.length then d
  else if up then
    if idx + 1 ≥ d.fLayers.length then d
    else { { d with fLayers := swapAt d.fLayers idx (idx + 1) }.markDirty d.canvas with fModified := true }
  else if idx = 0 then d
  else { { d with fLayers := swapAt d.fLayers idx (idx - 1) }.markDirty d.canvas with fModified := true }

/-- A change of the layer `LayerById` finds. -/
def modifyLayer (id : Int) (f : PPLayer → PPLayer) : List PPLayer → List PPLayer
  | []      => []
  | l :: ls => if l.id = id then f l :: ls else l :: modifyLayer id f ls

def PPDocument.renameLayer (d : PPDocument) (id : Int) (name : String) : PPDocument :=
  if (layerById d.fLayers id).isSome ∧ name ≠ "" then
    { d with fLayers := modifyLayer id (fun l => { l with name := name }) d.fLayers, fModified := true }
  else d

def PPDocument.setLayerVisible (d : PPDocument) (id : Int) (visible : Bool) : PPDocument :=
  match layerById d.fLayers id with
  | none => d
  | some l =>
    if l.visible = visible then d
    else { { d with fLayers := modifyLayer id (fun l => { l with visible := visible }) d.fLayers }.markDirty d.canvas with
      fModified := true }

def PPDocument.setLayerOpacity (d : PPDocument) (id : Int) (opacity : UInt8) : PPDocument :=
  match layerById d.fLayers id with
  | none => d
  | some l =>
    if l.opacity = opacity then d
    else { { d with fLayers := modifyLayer id (fun l => { l with opacity := opacity }) d.fLayers }.markDirty d.canvas with
      fModified := true }

def PPDocument.setActiveLayer (d : PPDocument) (id : Int) : PPDocument :=
  if (layerById d.fLayers id).isSome then { d with fActiveId := id } else d

/-! ## The canvas -/

def BBitmap.whitened (m : BBitmap) (width height : Nat) : BBitmap :=
  { m with pixel := fun x y => if x < width ∧ y < height then ⟨255, 255, 255, 255⟩ else m.pixel x y }

def PPDocument.setCanvas (d : PPDocument) (width height : Int) (dpi : Rat) (paper : PPPaper) (whiteBackground : Bool) :
    PPDocument :=
  if width < 1 ∨ height < 1 ∨ dpi < 12 then d
  else
    let d' := { d with
      fWidth := width.toNat, fHeight := height.toNat, fDPI := dpi, fPaper := paper, fLayers := [], fUndo := []
      fRedo := [], fNextLayerId := 1 }.addLayer (some "Background")
    { d' with
      fLayers := if whiteBackground then
          modifyLayer 1 (fun l => { l with bits := l.bits.whitened d'.fWidth d'.fHeight }) d'.fLayers
        else d'.fLayers
      fModified := false }

/-- `PaperWidthPx` and `PaperHeightPx`. -/
def paperPx (pt dpi : Rat) : Int := ⌊pt * dpi / 72 + 1 / 2⌋

/-- `PPDocument::PPDocument`. -/
def PPDocument.new : PPDocument :=
  ({ fWidth := 794, fHeight := 1123, fDPI := 96, fPaper := {} } : PPDocument).setCanvas (paperPx 595 96)
    (paperPx 842 96) 96 {} true

/-- `ImportBits` into a new bitmap: content anchored top-left, the new area transparent. -/
def BBitmap.resized (m : BBitmap) (width height keepWidth keepHeight : Nat) : BBitmap :=
  ⟨width, height, fun x y => if x < keepWidth ∧ y < keepHeight then m.pixel x y else {}⟩

def PPDocument.resize (d : PPDocument) (width height : Int) : PPDocument :=
  if width < 1 ∨ height < 1 ∨ width > 8192 ∨ height > 8192 ∨ (width = d.fWidth ∧ height = d.fHeight) then d
  else
    let w := width.toNat
    let h := height.toNat
    let d' := { d with
      fLayers := d.fLayers.map (fun l : PPLayer => { l with bits := l.bits.resized w h (min d.fWidth w) (min d.fHeight h) })
      fWidth := w, fHeight := h, fUndo := [], fRedo := [], fStrokeBuf := none }
    { d'.markDirty d'.canvas with fModified := true }

/-! ## Dabs -/

def PPDocument.strokeBegin (d : PPDocument) (opacity : UInt8) : PPDocument :=
  { d with
    fInStroke := true
    fDirty := noRect
    fSmudgeFoot := []
    fCurrentStep := { layerId := d.fActiveId }
    fStrokeOpacity := opacity
    fStrokeErase := false
    fStrokeBuf := none
    fBeforeSnap := d.activeLayer.map (·.bits) }

/-- `StrokeBuffer`. -/
def PPDocument.strokeBuffer (d : PPDocument) : BBitmap := d.fStrokeBuf.getD (BBitmap.cleared d.fWidth d.fHeight)

def PPDocument.growStep (d : PPDocument) (r : Rect) : PPDocument :=
  if d.fInStroke then
    { d with fCurrentStep := { d.fCurrentStep with
        rect := if ¬ d.fCurrentStep.rect.Valid then r else d.fCurrentStep.rect.union r } }
  else d

/-- The square of a mask with its corner at `(x0, y0)`. -/
def maskRect (x0 y0 : Int) (maskSize : Nat) : Rect := ⟨x0, y0, x0 + maskSize - 1, y0 + maskSize - 1⟩

/-- The loop over a mask with its corner at `(x0, y0)`: `f`, given the place in the mask, on every pixel of the canvas under
it. -/
def underMask (width height : Nat) (x0 y0 : Int) (maskSize : Nat) (f : Nat → Nat → Pixel → Pixel) (m : BBitmap) :
    BBitmap :=
  { m with
    pixel := fun px py =>
      if px < width ∧ py < height ∧ (maskRect x0 y0 maskSize).Contains px py then
        f (px - x0).toNat (py - y0).toNat (m.pixel px py)
      else m.pixel px py }

def Mask.flowed (m : Mask) (flow : UInt8) (mx my : Nat) : Nat := (m.byte mx my).toNat * flow.toNat / 255

/-- A channel of `src` at alpha `sa` over one of `dst` at alpha `da`, straight alpha, `outA` the alpha of the two. -/
def overChannel (src sa dst da outA : Nat) : UInt8 := UInt8.ofNat (min 255 ((src * sa + dst * da * (255 - sa) / 255) / outA))

def overAlpha (sa da : Nat) : Nat := sa + da * (255 - sa) / 255

/-- A pixel under a byte `m` of a colour dab. -/
def dabPixel (colour : RgbColor) (m : Nat) (d : Pixel) : Pixel :=
  if m = 0 then d
  else
    let outA := overAlpha m d.a.toNat
    if outA = 0 then d
    else
      { b := overChannel colour.blue.toNat m d.b.toNat d.a.toNat outA
        g := overChannel colour.green.toNat m d.g.toNat d.a.toNat outA
        r := overChannel colour.red.toNat m d.r.toNat d.a.toNat outA
        a := UInt8.ofNat outA }

def PPDocument.dabColour (d : PPDocument) (x y : Int) (colour : RgbColor) (mask : Option Mask) (flow : UInt8) :
    PPDocument :=
  match d.activeLayer, mask with
  | some l, some mask =>
    let x0 := x - mask.maskSize / 2
    let y0 := y - mask.maskSize / 2
    let paint := underMask d.fWidth d.fHeight x0 y0 mask.maskSize
      (fun mx my p => dabPixel colour (mask.flowed flow mx my) p)
    let d' := if d.fInStroke then { d with fStrokeBuf := some (paint d.strokeBuffer) }
      else { d with fLayers := setBits d.fActiveId (paint l.bits) d.fLayers }
    let d' := d'.markDirty (maskRect x0 y0 mask.maskSize)
    d'.growStep d'.fDirty
  | _, _ => d

/-- A pixel of alpha `d.a * (255 - m) / 255`, its colours scaled with the alpha. -/
def erasePixel (m : Nat) (d : Pixel) : Pixel :=
  if m = 0 then d
  else
    let a := d.a.toNat * (255 - m) / 255
    { b := UInt8.ofNat (d.b.toNat * a / 255)
      g := UInt8.ofNat (d.g.toNat * a / 255)
      r := UInt8.ofNat (d.r.toNat * a / 255)
      a := UInt8.ofNat a }

def gatherPixel (m : Nat) (d : Pixel) : Pixel :=
  if m = 0 then d else if m > d.a.toNat then { d with a := UInt8.ofNat m } else d

def PPDocument.dabErase (d : PPDocument) (x y : Int) (mask : Option Mask) (flow : UInt8) : PPDocument :=
  match d.activeLayer, mask with
  | some l, some mask =>
    let x0 := x - mask.maskSize / 2
    let y0 := y - mask.maskSize / 2
    let under := underMask d.fWidth d.fHeight x0 y0 mask.maskSize
    let d' := if d.fInStroke then
        { d with
          fStrokeErase := true
          fStrokeBuf := some (under (fun mx my p => gatherPixel (mask.flowed flow mx my) p) d.strokeBuffer) }
      else
        { d with
          fLayers := setBits d.fActiveId (under (fun mx my p => erasePixel (mask.flowed flow mx my) p) l.bits)
            d.fLayers }
    let d' := d'.markDirty (maskRect x0 y0 mask.maskSize)
    d'.growStep d'.fDirty
  | _, _ => d

/-- `resize(maskSize * maskSize * 4, 0)` of the footprint. -/
def resizeFoot (foot : List Pixel) (n : Nat) : List Pixel := foot.take n ++ List.replicate (n - foot.length) ⟨0, 0, 0, 0⟩

def pickFoot (width height : Nat) (x0 y0 : Int) (maskSize : Nat) (m : BBitmap) (foot : List Pixel) : List Pixel :=
  foot.mapIdx (fun i p =>
    let px := x0 + (i % maskSize : Nat)
    let py := y0 + (i / maskSize : Nat)
    if px < 0 ∨ px ≥ width ∨ py < 0 ∨ py ≥ height then { p with a := 0 } else m.pixel px.toNat py.toNat)

def mixChannel (foot d strength : UInt8) : UInt8 :=
  UInt8.ofNat ((foot.toNat * strength.toNat + d.toNat * (255 - strength.toNat)) / 255)

def mixPixel (strength : UInt8) (foot d : Pixel) : Pixel :=
  ⟨mixChannel foot.b d.b strength, mixChannel foot.g d.g strength, mixChannel foot.r d.r strength,
    mixChannel foot.a d.a strength⟩

def mixFoot (width height : Nat) (x0 y0 : Int) (mask : Mask) (strength : UInt8) (m : BBitmap) (foot : List Pixel) :
    List Pixel :=
  foot.mapIdx (fun i p =>
    let px := x0 + (i % mask.maskSize : Nat)
    let py := y0 + (i / mask.maskSize : Nat)
    if px < 0 ∨ px ≥ width ∨ py < 0 ∨ py ≥ height ∨ mask.byte (i % mask.maskSize) (i / mask.maskSize) = 0 then p
    else mixPixel strength p (m.pixel px.toNat py.toNat))

def PPDocument.dabSmudge (d : PPDocument) (x y : Int) (mask : Option Mask) (strength : UInt8) : PPDocument :=
  match d.activeLayer, mask with
  | some l, some mask =>
    let x0 := x - mask.maskSize / 2
    let y0 := y - mask.maskSize / 2
    let size := mask.maskSize * mask.maskSize
    if d.fSmudgeFoot.length ≠ size then
      { d with fSmudgeFoot := pickFoot d.fWidth d.fHeight x0 y0 mask.maskSize l.bits (resizeFoot d.fSmudgeFoot size) }
    else
      let foot := mixFoot d.fWidth d.fHeight x0 y0 mask strength l.bits d.fSmudgeFoot
      let bits := underMask d.fWidth d.fHeight x0 y0 mask.maskSize
        (fun mx my p => if mask.byte mx my = 0 then p else foot.getD (my * mask.maskSize + mx) p) l.bits
      let d' := { d with fSmudgeFoot := foot, fLayers := setBits d.fActiveId bits d.fLayers }
      let d' := d'.markDirty (maskRect x0 y0 mask.maskSize)
      d'.growStep d'.fDirty
  | _, _ => d

/-! ## `FillAt` -/

def absDiff (x y : UInt8) : Nat := x.toNat - y.toNat + (y.toNat - x.toNat)

/-- `near`: every channel within the tolerance of the seed's. -/
def near (seed : Pixel) (tolerance : UInt8) (p : Pixel) : Bool :=
  if tolerance = 0 then p.b = seed.b ∧ p.g = seed.g ∧ p.r = seed.r ∧ p.a = seed.a
  else !(absDiff p.b seed.b > tolerance.toNat) && !(absDiff p.g seed.g > tolerance.toNat) &&
    !(absDiff p.r seed.r > tolerance.toNat) && !(absDiff p.a seed.a > tolerance.toNat)

structure FillState where
  bits : BBitmap
  visited : List Bool
  stack : List Nat
  filled : Nat := 0

def walkLeft (ok : Nat → Bool) : Nat → Nat
  | 0        => 0
  | left + 1 => if ok left then walkLeft ok left else left + 1

/-- `n` columns lie to the right. -/
def walkRight (ok : Nat → Bool) : Nat → Nat → Nat
  | 0, right     => right
  | n + 1, right => if ok (right + 1) then walkRight ok n (right + 1) else right

/-- One row of the fill through the pixel `idx`, and the seeds above and below it. -/
def fillRun (width height : Nat) (nearSeed : Pixel → Bool) (colour : Pixel) (s : FillState) (idx : Nat) : FillState :=
  let px := idx % width
  let py := idx / width
  let ok := fun visited bits x y => !(visited : List Bool).getD (y * width + x) true && nearSeed (BBitmap.pixel bits x y)
  let left := walkLeft (fun x => ok s.visited s.bits x py) px
  let right := walkRight (fun x => ok s.visited s.bits x py) (width - 1 - px) px
  let visited := mapSpan (py * width + left) (py * width + right + 1) (fun _ => true) s.visited
  let bits := { s.bits with pixel := fun x y =>
    if y = py ∧ left ≤ x ∧ x ≤ right then colour else s.bits.pixel x y }
  let stack := (List.range' left (right + 1 - left)).foldl (fun stack x =>
    let stack := if py > 0 ∧ ok visited bits x (py - 1) then ((py - 1) * width + x) :: stack else stack
    if py + 1 < height ∧ ok visited bits x (py + 1) then ((py + 1) * width + x) :: stack else stack) s.stack
  { bits := bits, visited := visited, stack := stack, filled := s.filled + (right + 1 - left) }

theorem walkLeft_le (ok : Nat → Bool) : ∀ n, walkLeft ok n ≤ n
  | 0 => Nat.le_refl 0
  | n + 1 => by
    unfold walkLeft
    split
    · exact Nat.le_succ_of_le (walkLeft_le ok n)
    · exact Nat.le_refl _

theorem le_walkRight (ok : Nat → Bool) : ∀ n right, right ≤ walkRight ok n right
  | 0, right => Nat.le_refl right
  | n + 1, right => by
    unfold walkRight
    split
    · exact Nat.le_trans (Nat.le_succ right) (le_walkRight ok n (right + 1))
    · exact Nat.le_refl _

theorem mapSpan_singleton {α : Type} (i j : Nat) (g : α → α) (x : α) :
    mapSpan i j g [x] = [if i ≤ 0 ∧ 0 < j then g x else x] := rfl

theorem count_false_mapSpan_le : ∀ (l : List Bool) (i j : Nat), (mapSpan i j (fun _ => true) l).count false ≤ l.count false
  | [], _, _ => Nat.le_refl _
  | b :: l, i, j => by
    have ih := count_false_mapSpan_le l (i - 1) (j - 1)
    rw [← singleton_append, mapSpan_append, mapSpan_singleton, count_append, count_append]
    refine Nat.add_le_add ?_ ih
    split
    · exact Nat.zero_le _
    · exact Nat.le_refl _

theorem count_false_mapSpan {l : List Bool} {i j k : Nat} (h1 : i ≤ k) (h2 : k < j) (hk : l[k]? = some false) :
    (mapSpan i j (fun _ => true) l).count false < l.count false := by
  obtain ⟨hlt, he⟩ := List.getElem?_eq_some_iff.1 hk
  have hl : l = l.take k ++ ([false] ++ l.drop (k + 1)) := by
    rw [← he, singleton_append, getElem_cons_drop, take_append_drop]
  have hlen : (l.take k).length = k := by rw [length_take]; omega
  have h3 := count_false_mapSpan_le (l.take k) i j
  have h4 := count_false_mapSpan_le (l.drop (k + 1)) (i - k - 1) (j - k - 1)
  rw [hl, mapSpan_append, mapSpan_append, hlen, mapSpan_singleton, if_pos (by omega), count_append, count_append,
    count_append, count_append]
  have h5 : List.count false [true] = 0 := rfl
  have h6 : List.count false [false] = 1 := rfl
  have h7 : [false].length = 1 := rfl
  rw [h5, h6, h7]
  omega

theorem fillRun_marks {width height : Nat} {nearSeed : Pixel → Bool} {colour : Pixel} {s : FillState} {idx : Nat}
    (h : ¬ s.visited.getD idx true = true) :
    (fillRun width height nearSeed colour s idx).visited.count false < s.visited.count false := by
  have hk : s.visited[idx]? = some false := by
    rw [getD_eq_getElem?_getD] at h
    cases hv : s.visited[idx]? with
    | none => rw [hv] at h; exact absurd rfl h
    | some b => rw [hv] at h; cases b <;> simp_all
  have hidx := Nat.div_add_mod idx width
  rw [Nat.mul_comm] at hidx
  unfold fillRun
  refine count_false_mapSpan ?_ ?_ hk
  · exact Nat.le_trans (Nat.add_le_add_left (walkLeft_le _ _) _) (by omega)
  · exact Nat.lt_succ_of_le (Nat.le_trans (by omega) (Nat.add_le_add_left (le_walkRight _ (width - 1 - idx % width) _) _))

/-- Every turn takes a pixel off the stack, and marks one or leaves the marks as they are. -/
def fillLoop (width height : Nat) (nearSeed : Pixel → Bool) (colour : Pixel) (s : FillState) : FillState :=
  match _h : s.stack with
  | [] => s
  | idx :: stack =>
    if _hv : s.visited.getD idx true then fillLoop width height nearSeed colour { s with stack := stack }
    else fillLoop width height nearSeed colour (fillRun width height nearSeed colour { s with stack := stack } idx)
termination_by (s.visited.count false, s.stack.length)
decreasing_by
  · rw [_h]
    exact Prod.Lex.right _ (Nat.lt_succ_self _)
  · exact Prod.Lex.left _ _ (fillRun_marks _hv)

def PPDocument.fillAt (d : PPDocument) (x y : Int) (colour : RgbColor) (tolerance : UInt8) : PPDocument × Nat :=
  match d.activeLayer with
  | none => (d, 0)
  | some l =>
    if x < 0 ∨ x ≥ d.fWidth ∨ y < 0 ∨ y ≥ d.fHeight then (d, 0)
    else
      let s := fillLoop d.fWidth d.fHeight (near (l.bits.pixel x.toNat y.toNat) tolerance)
        ⟨colour.blue, colour.green, colour.red, 255⟩
        { bits := l.bits, visited := List.replicate (d.fWidth * d.fHeight) false, stack := [y.toNat * d.fWidth + x.toNat] }
      let d' := { d with fLayers := setBits d.fActiveId s.bits d.fLayers }.markDirty d.canvas
      ({ d'.growStep d.canvas with fModified := true }, s.filled)

/-! ## `StrokeEnd` -/

def BBitmap.read (m : BBitmap) (r : Rect) : Nat → Nat → Pixel :=
  fun x y => m.pixel (r.left + x).toNat (r.top + y).toNat

def BBitmap.write (m : BBitmap) (r : Rect) (bytes : Nat → Nat → Pixel) : BBitmap :=
  { m with
    pixel := fun x y =>
      if r.Contains x y then bytes ((x : Int) - r.left).toNat ((y : Int) - r.top).toNat else m.pixel x y }

def landPixel (erase : Bool) (opacity : UInt8) (s d : Pixel) : Pixel :=
  let sa := s.a.toNat * opacity.toNat / 255
  if erase then erasePixel sa d
  else if sa = 0 then d
  else
    let outA := overAlpha sa d.a.toNat
    if outA = 0 then d
    else
      { b := overChannel s.b.toNat sa d.b.toNat d.a.toNat outA
        g := overChannel s.g.toNat sa d.g.toNat d.a.toNat outA
        r := overChannel s.r.toNat sa d.r.toNat d.a.toNat outA
        a := UInt8.ofNat outA }

def BBitmap.land (m buf : BBitmap) (erase : Bool) (opacity : UInt8) (width height : Nat) : BBitmap :=
  { m with
    pixel := fun x y => if x < width ∧ y < height then landPixel erase opacity (buf.pixel x y) (m.pixel x y) else m.pixel x y }

/-- A rectangle copied, and the size of the bitmap it is copied from or to. -/
structure Copy where
  width : Nat
  height : Nat
  rect : Rect
deriving DecidableEq

def BBitmap.copy (m : BBitmap) (r : Rect) : Copy := ⟨m.width, m.height, r⟩

/-- `CaptureAfter`. -/
def captureAfter (ls : List PPLayer) (step : UndoStep) : UndoStep :=
  match layerById ls step.layerId with
  | none => step
  | some l => if ¬ step.rect.Valid then step else { step with after := l.bits.read step.rect }

def captureAfterCopies (ls : List PPLayer) (step : UndoStep) : List Copy :=
  match layerById ls step.layerId with
  | none => []
  | some l => if ¬ step.rect.Valid then [] else [l.bits.copy step.rect]

/-- `StrokeEnd` from where the stroke is known to have painted. -/
def PPDocument.endStroke (d : PPDocument) (l : PPLayer) (snap : BBitmap) : PPDocument :=
  let d' := match d.fStrokeBuf with
    | none => d
    | some buf =>
      { d with
        fLayers := setBits d.fCurrentStep.layerId
          (l.bits.land buf d.fStrokeErase d.fStrokeOpacity d.fWidth d.fHeight) d.fLayers
        fStrokeBuf := none }.markDirty d.canvas
  let step := captureAfter d'.fLayers { d'.fCurrentStep with before := snap.read d'.fCurrentStep.rect }
  { d' with
    fBeforeSnap := none
    fUndo := if (step :: d'.fUndo).length > 40 then (step :: d'.fUndo).dropLast else step :: d'.fUndo
    fRedo := []
    fModified := true
    fCurrentStep := {} }

def PPDocument.strokeEnd (d : PPDocument) : PPDocument :=
  if ¬ d.fInStroke then d
  else
    let d := { d with fInStroke := false }
    if ¬ d.fCurrentStep.rect.Valid then { d with fBeforeSnap := none, fStrokeBuf := none }
    else match layerById d.fLayers d.fCurrentStep.layerId, d.fBeforeSnap with
      | some l, some snap => d.endStroke l snap
      | _, _ => { d with fBeforeSnap := none, fStrokeBuf := none }

/-- What `StrokeEnd` copies: the canvas from the stroke buffer to the layer, the step's rectangle from the snapshot and, in
`CaptureAfter`, from the layer. -/
def PPDocument.strokeEndCopies (d : PPDocument) : List Copy :=
  if ¬ d.fInStroke ∨ ¬ d.fCurrentStep.rect.Valid then []
  else match layerById d.fLayers d.fCurrentStep.layerId, d.fBeforeSnap with
    | some l, some snap =>
      (match d.fStrokeBuf with
        | none => []
        | some buf => [buf.copy d.canvas, l.bits.copy d.canvas]) ++
        snap.copy d.fCurrentStep.rect :: captureAfterCopies d.fLayers d.fCurrentStep
    | _, _ => []

/-! ## The composite -/

def overPixel (opacity : UInt8) (s d : Pixel) : Pixel :=
  let layerA := s.a.toNat * opacity.toNat / 255
  let outA := overAlpha layerA d.a.toNat
  if outA = 0 then {}
  else
    { b := overChannel s.b.toNat layerA d.b.toNat d.a.toNat outA
      g := overChannel s.g.toNat layerA d.g.toNat d.a.toNat outA
      r := overChannel s.r.toNat layerA d.r.toNat d.a.toNat outA
      a := UInt8.ofNat outA }

def compositePixel (ls : List PPLayer) (x y : Nat) : Pixel :=
  ls.foldl (fun p l => if ¬ l.visible ∨ l.opacity = 0 then p else overPixel l.opacity (l.bits.pixel x y) p) {}

/-- `Composite`: the display cache, recomputed when it is dirty. -/
def PPDocument.composite (d : PPDocument) : PPDocument × BBitmap :=
  let fresh : BBitmap := ⟨d.fWidth, d.fHeight, fun x y =>
    if x < d.fWidth ∧ y < d.fHeight then compositePixel d.fLayers x y else {}⟩
  match d.fCompositeDirty, d.fComposite with
  | false, some m => (d, m)
  | _, _ => ({ d with fComposite := some fresh, fCompositeDirty := false }, fresh)

/-- `PickColour`, but for what it does to the cache. -/
def PPDocument.pickColour (d : PPDocument) (x y : Int) : RgbColor :=
  if x < 0 ∨ x ≥ d.fWidth ∨ y < 0 ∨ y ≥ d.fHeight then ⟨0, 0, 0, 0⟩
  else
    let p := d.composite.2.pixel x.toNat y.toNat
    ⟨p.r, p.g, p.b, p.a⟩

/-! ## The undo stack -/

def PPDocument.applyStep (d : PPDocument) (step : UndoStep) (forward : Bool) : PPDocument :=
  match layerById d.fLayers step.layerId with
  | none => d
  | some l =>
    { { d with
        fLayers := setBits step.layerId (l.bits.write step.rect (if forward then step.after else step.before))
          d.fLayers }.markDirty step.rect with fModified := true }

def PPDocument.applyStepCopies (d : PPDocument) (step : UndoStep) : List Copy :=
  match layerById d.fLayers step.layerId with
  | none => []
  | some l => [l.bits.copy step.rect]

def PPDocument.undo (d : PPDocument) : PPDocument :=
  match d.fUndo with
  | [] => d
  | step :: rest =>
    let d' := { d with fUndo := rest }.applyStep step false
    { d' with fRedo := step :: d'.fRedo }

def PPDocument.redo (d : PPDocument) : PPDocument :=
  match d.fRedo with
  | [] => d
  | step :: rest =>
    let d' := { d with fRedo := rest }.applyStep step true
    { d' with fUndo := step :: d'.fUndo }

/-! ## The calls -/

inductive Call
  | strokeBegin (opacity : UInt8)
  | dabColour (x y : Int) (colour : RgbColor) (mask : Option Mask) (flow : UInt8)
  | dabErase (x y : Int) (mask : Option Mask) (flow : UInt8)
  | dabSmudge (x y : Int) (mask : Option Mask) (strength : UInt8)
  | fillAt (x y : Int) (colour : RgbColor) (tolerance : UInt8)
  | strokeEnd
  | addLayer (name : Option String)
  | deleteLayer (id : Int)
  | moveLayer (id : Int) (up : Bool)
  | renameLayer (id : Int) (name : String)
  | setLayerVisible (id : Int) (visible : Bool)
  | setLayerOpacity (id : Int) (opacity : UInt8)
  | setActiveLayer (id : Int)
  | resize (width height : Int)
  | setCanvas (width height : Int) (dpi : Rat) (paper : PPPaper) (whiteBackground : Bool)
  | composite
  | undo
  | redo
  | savedClean

def PPDocument.call (d : PPDocument) : Call → PPDocument
  | .strokeBegin opacity => d.strokeBegin opacity
  | .dabColour x y colour mask flow => d.dabColour x y colour mask flow
  | .dabErase x y mask flow => d.dabErase x y mask flow
  | .dabSmudge x y mask strength => d.dabSmudge x y mask strength
  | .fillAt x y colour tolerance => (d.fillAt x y colour tolerance).1
  | .strokeEnd => d.strokeEnd
  | .addLayer name => d.addLayer name
  | .deleteLayer id => d.deleteLayer id
  | .moveLayer id up => d.moveLayer id up
  | .renameLayer id name => d.renameLayer id name
  | .setLayerVisible id visible => d.setLayerVisible id visible
  | .setLayerOpacity id opacity => d.setLayerOpacity id opacity
  | .setActiveLayer id => d.setActiveLayer id
  | .resize width height => d.resize width height
  | .setCanvas width height dpi paper white => d.setCanvas width height dpi paper white
  | .composite => d.composite.1
  | .undo => d.undo
  | .redo => d.redo
  | .savedClean => { d with fModified := false }

/-- What `StrokeEnd`, `CaptureAfter` and `ApplyStep` copy during a call. -/
def PPDocument.copies (d : PPDocument) : Call → List Copy
  | .strokeEnd => d.strokeEndCopies
  | .undo => match d.fUndo with
    | [] => []
    | step :: _ => d.applyStepCopies step
  | .redo => match d.fRedo with
    | [] => []
    | step :: _ => d.applyStepCopies step
  | _ => []

end Paint
end Prose
