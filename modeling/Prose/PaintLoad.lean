import Prose.BMessage
import Prose.PaintBounds
import Prose.Runs
/-!
# PaintLoad — `LoadFromMessage`, and bitmaps that are not to be had

A `Step` is a call, or a message to load, with what becomes of each bitmap it asks for, in the order it asks.  A bitmap
that could not be had is `BBitmap.invalid`, which has no bits.  A step that copies from or to what is not in a bitmap, or
follows the layer that is not there, has no outcome.  `unflate` stands for zlib's `uncompress` into a buffer of a given
length.  The names in a message are bytes, each a character of the document's.
-/
namespace Prose
namespace Paint

open BMessage

abbrev Memory := Nat → Bool

def Memory.next (ok : Memory) : Memory := fun n => ok (n + 1)

/-- A bitmap that is not `IsValid`. -/
def BBitmap.invalid : BBitmap := .cleared 0 0

/-! ## Layers and the canvas -/

/-- `AddLayer` and the id it returns. -/
def PPDocument.addLayerOn (d : PPDocument) (ok : Bool) (name : Option String) : PPDocument × Int :=
  if ok then (d.addLayer name, d.fNextLayerId) else ({ d with fNextLayerId := d.fNextLayerId + 1 }, -1)

def PPDocument.setCanvasOn (d : PPDocument) (ok : Bool) (width height : Int) (dpi : Rat) (paper : PPPaper)
    (whiteBackground : Bool) : Option PPDocument :=
  if width < 1 ∨ height < 1 ∨ dpi < 12 then some d
  else
    let (d', id) := { d with
      fWidth := width.toNat, fHeight := height.toNat, fDPI := dpi, fPaper := paper, fLayers := [], fUndo := []
      fRedo := [], fNextLayerId := 1 }.addLayerOn ok (some "Background")
    if whiteBackground then
      (layerById d'.fLayers id).map (fun _ => { d' with
        fLayers := modifyLayer id (fun l => { l with bits := l.bits.whitened d'.fWidth d'.fHeight }) d'.fLayers
        fModified := false })
    else some { d' with fModified := false }

/-- The loop of `Resize`: the layers it leaves, and whether it came to the end. -/
def resizeLayers (width height keepWidth keepHeight : Nat) : Memory → List PPLayer → List PPLayer × Bool
  | _, []       => ([], true)
  | ok, l :: ls =>
    if ok 0 then
      let (ls', done) := resizeLayers width height keepWidth keepHeight ok.next ls
      ({ l with bits := l.bits.resized width height keepWidth keepHeight } :: ls', done)
    else (l :: ls, false)

def PPDocument.resizeOn (d : PPDocument) (ok : Memory) (width height : Int) : PPDocument :=
  if width < 1 ∨ height < 1 ∨ width > 8192 ∨ height > 8192 ∨ (width = d.fWidth ∧ height = d.fHeight) then d
  else
    let w := width.toNat
    let h := height.toNat
    let (ls, done) := resizeLayers w h (min d.fWidth w) (min d.fHeight h) ok d.fLayers
    if ¬ done then { d with fLayers := ls }
    else
      let d' := { d with fLayers := ls, fWidth := w, fHeight := h, fUndo := [], fRedo := [], fStrokeBuf := none }
      { d'.markDirty d'.canvas with fModified := true }

/-! ## Strokes and the composite -/

def PPDocument.strokeBeginOn (d : PPDocument) (ok : Bool) (opacity : UInt8) : PPDocument :=
  if ok then d.strokeBegin opacity
  else { d.strokeBegin opacity with fBeforeSnap := d.activeLayer.map (fun _ => .invalid) }

/-- `StrokeBuffer` asks for a bitmap. -/
def PPDocument.NeedsBuffer (d : PPDocument) (mask : Option Mask) : Prop :=
  d.activeLayer.isSome ∧ mask.isSome ∧ d.fInStroke = true ∧ d.fStrokeBuf.isNone

instance (d : PPDocument) (mask : Option Mask) : Decidable (d.NeedsBuffer mask) := inferInstanceAs (Decidable (_ ∧ _))

def PPDocument.dabColourOn (d : PPDocument) (ok : Bool) (x y : Int) (colour : RgbColor) (mask : Option Mask)
    (flow : UInt8) : PPDocument :=
  if d.NeedsBuffer mask ∧ ok = false then d else d.dabColour x y colour mask flow

def PPDocument.dabEraseOn (d : PPDocument) (ok : Bool) (x y : Int) (mask : Option Mask) (flow : UInt8) : PPDocument :=
  if d.NeedsBuffer mask ∧ ok = false then { d with fStrokeErase := true } else d.dabErase x y mask flow

/-- A layer that `Composite` does not pass over. -/
def PPLayer.shown (l : PPLayer) : Bool := l.visible && l.opacity != 0

def PPDocument.CacheFits (d : PPDocument) : Prop := ∃ m ∈ d.fComposite, m.width = d.fWidth ∧ m.height = d.fHeight

instance (d : PPDocument) : Decidable d.CacheFits := inferInstanceAs (Decidable (∃ _ ∈ _, _))

def PPDocument.compositeOn (d : PPDocument) (ok : Bool) : Option (PPDocument × BBitmap) :=
  match d.fCompositeDirty, d.fComposite with
  | false, some m => some (d, m)
  | _, _ =>
    if d.CacheFits ∨ ok = true then some d.composite
    else if d.fLayers.any PPLayer.shown then none
    else some ({ d with fComposite := some .invalid, fCompositeDirty := false }, .invalid)

/-! ## `LoadFromMessage` -/

inductive Status
  | ok
  | badValue
  | error

def nameOf (s : List { b : UInt8 // b ≠ 0 }) : String := String.ofList (s.map (fun b => Char.ofNat b.1.toNat))

/-- Rows of `width * 4` bytes. -/
def BBitmap.ofBytes (width height : Nat) (bytes : List UInt8) : BBitmap :=
  ⟨width, height, fun x y =>
    let i := (y * width + x) * 4
    ⟨bytes.getD i 0, bytes.getD (i + 1) 0, bytes.getD (i + 2) 0, bytes.getD (i + 3) 0⟩⟩

def PPLayer.ofMessage (m : BMessage Rat) (bits : BBitmap) : PPLayer where
  id := findD Field.int32? "id" 0 m
  name := ((find Field.string? "name" m).map nameOf).getD ""
  visible := findD Field.bool? "vis" true m
  opacity := UInt8.ofInt (findD Field.int32? "opa" 255 m)
  bits := bits

section
variable (unflate : List UInt8 → Nat → Option (List UInt8))

/-- The loop over the messages named `layer`.  Only one with bits and a large enough `bpr` asks for a bitmap. -/
def loadLayers (w h : Nat) : Memory → List (BMessage Rat) → List PPLayer
  | _, []       => []
  | ok, m :: ms =>
    match find Field.data? "bits" m with
    | none => loadLayers w h ok ms
    | some data =>
      if findD Field.int32? "bpr" 0 m < w * 4 then loadLayers w h ok ms
      else if ok 0 then
        match unflate data (w * 4 * h) with
        | none => loadLayers w h ok.next ms
        | some bytes => .ofMessage m (.ofBytes w h bytes) :: loadLayers w h ok.next ms
      else loadLayers w h ok.next ms

/-- The `w` and `h` of a message that `LoadFromMessage` goes on with. -/
def canvasOf (msg : BMessage Rat) : Option (Nat × Nat) :=
  match find Field.int32? "w" msg, find Field.int32? "h" msg with
  | some w, some h => if w < 1 ∨ h < 1 ∨ w > 8192 ∨ h > 8192 then none else some (w.toNat, h.toNat)
  | _, _ => none

/-- `std::max(fNextLayerId, l.id + 1)`. -/
def nextLayerId (ls : List PPLayer) : Int := ls.foldl (fun n l => max n ((l.id + 1).bmod 4294967296)) 1

def PPDocument.loaded (d : PPDocument) (ok : Memory) (msg : BMessage Rat) (w h : Nat) : PPDocument :=
  let dpi := findD Field.float? "dpi" d.fDPI msg
  let dpi := if dpi < 12 then 96 else dpi
  let pw := findD Field.float? "pw" d.fPaper.widthPt msg
  let ph := findD Field.float? "ph" d.fPaper.heightPt msg
  let ls := loadLayers unflate w h ok (all Field.message? "layer" msg)
  { d with
    fWidth := w
    fHeight := h
    fDPI := dpi
    fPaper :=
      { name := ((find Field.string? "paper" msg).map nameOf).getD d.fPaper.name
        widthPt := if pw ≤ 0 then w * 72 / dpi else pw
        heightPt := if ph ≤ 0 then h * 72 / dpi else ph }
    fLayers := ls
    fUndo := []
    fRedo := []
    fNextLayerId := nextLayerId ls }

def PPDocument.loadFromMessage (d : PPDocument) (ok : Memory) (msg : BMessage Rat) : PPDocument × Status :=
  match canvasOf msg with
  | none => (d, .badValue)
  | some (w, h) =>
    let d' := d.loaded unflate ok msg w h
    match d'.fLayers.getLast? with
    | none => (d', .error)
    | some l => ({ { d' with fActiveId := l.id }.markDirty d'.canvas with fModified := false }, .ok)

/-! ## Steps -/

inductive Op
  | call (c : Call)
  | loadFromMessage (msg : BMessage Rat)

structure Step where
  op : Op
  ok : Memory

def PPDocument.callOn (d : PPDocument) (ok : Memory) : Call → Option PPDocument
  | .strokeBegin opacity => some (d.strokeBeginOn (ok 0) opacity)
  | .dabColour x y colour mask flow => some (d.dabColourOn (ok 0) x y colour mask flow)
  | .dabErase x y mask flow => some (d.dabEraseOn (ok 0) x y mask flow)
  | .addLayer name => some (d.addLayerOn (ok 0) name).1
  | .resize width height => some (d.resizeOn ok width height)
  | .setCanvas width height dpi paper white => d.setCanvasOn (ok 0) width height dpi paper white
  | .composite => (d.compositeOn (ok 0)).map (·.1)
  | c => some (d.call c)

theorem inside_iff (k : Copy) : (k.rect.Valid → k.rect.Within ⟨0, 0, k.width - 1, k.height - 1⟩) ↔ k.Inside := by
  unfold Copy.Inside Rect.Valid Rect.Within Rect.Contains
  constructor
  · rintro h x y hc
    have := h ⟨by omega, by omega⟩
    dsimp only at this
    omega
  · rintro h hv
    have h1 := h k.rect.left k.rect.top ⟨by omega, by omega, by omega, by omega⟩
    have h2 := h k.rect.right k.rect.bottom ⟨by omega, by omega, by omega, by omega⟩
    dsimp only
    omega

instance (k : Copy) : Decidable k.Inside := decidable_of_iff _ (inside_iff k)

def PPDocument.paintsInto (d : PPDocument) : Call → Option BBitmap
  | .dabColour _ _ _ _ _ | .dabErase _ _ _ _ => if d.fInStroke then d.fStrokeBuf else none
  | _ => none

def PPDocument.Bounded (d : PPDocument) (c : Call) : Prop :=
  (∀ k ∈ d.copies c, k.Inside) ∧ ∀ m ∈ d.paintsInto c, m.Covers d.fWidth d.fHeight

instance (d : PPDocument) (c : Call) : Decidable (d.Bounded c) := inferInstanceAs (Decidable (_ ∧ _))

def PPDocument.step (d : PPDocument) (s : Step) : Option PPDocument :=
  match s.op with
  | .call c => if d.Bounded c then d.callOn s.ok c else none
  | .loadFromMessage msg => some (d.loadFromMessage unflate s.ok msg).1

def PPDocument.steps (d : PPDocument) (ss : List Step) : Option PPDocument := Runs.run (PPDocument.step unflate) d ss

end

end Paint
end Prose
