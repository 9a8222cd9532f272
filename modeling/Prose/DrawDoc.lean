import Mathlib.Data.List.Sort
import Prose.DrawModel
import Prose.SortedMap
/-!
# DrawDoc — `PDDocument.cpp` and the edits of `PDCanvas.cpp`

The shapes, the undo stack and the canvas calls that add and duplicate shapes, translated function by function.  A
pointer to a shape is the shape it was found as; what it reads once `push_back` has moved the shapes is `freed`.
-/
namespace Prose
namespace Draw

/-! ## Shapes -/

def shapeById (shapes : List PDShape) (id : Int) : Option PDShape := shapes.find? (fun s => decide (s.id = id))

/-- A write through the pointer that `ShapeById` finds. -/
def modifyShape (id : Int) (f : PDShape → PDShape) : List PDShape → List PDShape
  | []      => []
  | s :: ss => if s.id = id then f s :: ss else s :: modifyShape id f ss

/-- A write through the pointer that `AddShape` gives. -/
def modifyBack (f : PDShape → PDShape) : List PDShape → List PDShape
  | []           => []
  | [s]          => [f s]
  | s :: t :: ss => s :: modifyBack f (t :: ss)

def PDDocument.snapRect (d : PDDocument) (r : BRect) : BRect :=
  if !d.fSnap then r
  else
    let g := d.fGrid
    ⟨(r.left / g).round * g, (r.top / g).round * g, (r.right / g).round * g, (r.bottom / g).round * g⟩

def PDDocument.setGrid (d : PDDocument) (g : Float32) : PDDocument := if 2 ≤ g then { d with fGrid := g } else d

def PDDocument.snapshot (d : PDDocument) : PDDocument :=
  let undo := (d.fShapes, d.fNextId) :: d.fUndo
  { d with fUndo := if undo.length > 200 then undo.dropLast else undo, fRedo := [], fModified := true }

/-- The room after a `push_back`: twice the shapes when there was none left. -/
def pushCapacity (length capacity : Nat) : Nat := if length = capacity then length + max length 1 else capacity

/-- `AddShape`, and the id of the shape added. -/
def PDDocument.addShape (d : PDDocument) (kind : PDShapeKind) (rect : BRect) (label : Option (List Byte)) : PDDocument × Int :=
  let d := d.snapshot
  let style : PDStyle := if kind = .text then { fillOn := false, strokeWidth := 0 } else {}
  let s : PDShape :=
    { id := d.fNextId, kind := kind, rect := d.snapRect rect, style := style, label := label.getD [] }
  ({ d with
    fNextId := d.fNextId + 1
    fShapes := d.fShapes ++ [s]
    fCapacity := pushCapacity d.fShapes.length d.fCapacity
    fModified := true }, s.id)

/-- `AddImageRGBA`; `rgba` is the bytes from the pointer on, `none` no pointer. -/
def PDDocument.addImageRGBA (d : PDDocument) (width height : Int) (rgba : Option (Nat → UInt8)) : PDDocument × Int :=
  match rgba with
  | none => (d, -1)
  | some rgba =>
    if h : 0 < width ∧ 0 < height then
      let img : PDImage :=
        { id := d.fNextImageId, width := width, height := height
          bits := (List.range (width * height * 4).toNat).map rgba
          width_pos := h.1, height_pos := h.2, length_bits := by rw [List.length_map, List.length_range] }
      ({ d with fNextImageId := d.fNextImageId + 1, fImages := d.fImages ++ [img], fModified := true }, img.id)
    else (d, -1)

def imageById (images : List PDImage) (id : Int) : Option PDImage := images.find? (fun img => decide (img.id = id))

/-- The ids to remove, and those of the connectors that hang off them. -/
def cascade (gone : List Int) : List PDShape → List Int
  | []      => gone
  | s :: ss => cascade (if s.kind = .connector ∧ (s.fromId ∈ gone ∨ s.toId ∈ gone) then gone ++ [s.id] else gone) ss

def PDDocument.removeShapes (d : PDDocument) (ids : List Int) : PDDocument :=
  let d := d.snapshot
  let gone := cascade ids d.fShapes
  { d with fShapes := d.fShapes.filter (fun s => decide (s.id ∉ gone)), fModified := true }

def PDDocument.setShape (d : PDDocument) (id : Int) (keep : PDShape → Bool) (f : PDShape → PDShape) : PDDocument :=
  match shapeById d.fShapes id with
  | none => d
  | some s =>
    if keep s then d
    else
      let d := d.snapshot
      { d with fShapes := modifyShape id f d.fShapes, fModified := true }

def PDDocument.setShapeRect (d : PDDocument) (id : Int) (rect : BRect) : PDDocument :=
  d.setShape id (fun s => s.rect.eq rect) (fun s => { s with rect := d.snapRect rect })

def PDDocument.setShapeLabel (d : PDDocument) (id : Int) (label : List Byte) : PDDocument :=
  d.setShape id (fun s => s.label = label) (fun s => { s with label := label })

def PDDocument.setShapeStyle (d : PDDocument) (id : Int) (style : PDStyle) : PDDocument :=
  d.setShape id (fun s => s.style.eq style) (fun s => { s with style := style })

def PDDocument.setShapeFlags (d : PDDocument) (id : Int) (arrowEnd arrowStart orthogonal : Bool) : PDDocument :=
  d.setShape id
    (fun s => s.kind ≠ .connector || s.arrowEnd = arrowEnd && s.arrowStart = arrowStart && s.orthogonal = orthogonal)
    (fun s => { s with arrowEnd := arrowEnd, arrowStart := arrowStart, orthogonal := orthogonal })

def PDDocument.moveZ (d : PDDocument) (id : Int) (toFront : Bool) : PDDocument :=
  let i := d.fShapes.findIdx (fun s => decide (s.id = id))
  match d.fShapes[i]? with
  | none => d
  | some s =>
    if toFront ∧ i + 1 = d.fShapes.length then d
    else if ¬ toFront ∧ i = 0 then d
    else
      let d := d.snapshot
      let rest := d.fShapes.eraseIdx i
      { d with fShapes := if toFront then rest ++ [s] else s :: rest, fModified := true }

/-! ## Alignment -/

/-- `std::min` and `std::max`. -/
def stdMin (x y : Float32) : Float32 := if y < x then y else x

def stdMax (x y : Float32) : Float32 := if x < y then y else x

/-- `s->rect.OffsetBy`, by what the shape's rectangle then says. -/
def offsetShape (id : Int) (shift : BRect → Float32 × Float32) : List PDShape → List PDShape :=
  modifyShape id (fun s => { s with rect := s.rect.offsetBy (shift s.rect).1 (shift s.rect).2 })

/-- Even gaps along an axis: every shape to where the last one ended. -/
def distribute (start : BRect → Float32) (size : BRect → Float32) (shift : Float32 → Float32 × Float32) (gap : Float32) :
    Float32 → List Int → List PDShape → List PDShape
  | _, [], shapes       => shapes
  | x, id :: ids, shapes =>
    let shapes := offsetShape id (fun r => shift (x - start r)) shapes
    let size' := match shapeById shapes id with
      | none => 0
      | some s => size s.rect
    distribute start size shift gap (x + (size' + gap)) ids shapes

/-- The shapes moved, for a selection `first :: rest`. -/
def alignShapes (mode : PDAlign) (first : PDShape) (rest : List PDShape) (shapes : List PDShape) : List PDShape :=
  let sel := first :: rest
  let left := sel.foldl (fun v s => stdMin v s.rect.left) first.rect.left
  let right := sel.foldl (fun v s => stdMax v s.rect.right) first.rect.right
  let top := sel.foldl (fun v s => stdMin v s.rect.top) first.rect.top
  let bottom := sel.foldl (fun v s => stdMax v s.rect.bottom) first.rect.bottom
  let midX := (left + right) / 2
  let midY := (top + bottom) / 2
  let each := fun shift : BRect → Float32 × Float32 => sel.foldl (fun shapes s => offsetShape s.id shift shapes) shapes
  let order := fun start : BRect → Float32 => sel.mergeSort (fun a b => !(decide (start b.rect < start a.rect)))
  let gap := fun (extent : Float32) (size : BRect → Float32) (order : List PDShape) =>
    (extent - order.foldl (fun total s => total + size s.rect) 0) / Float32.ofNat (order.length - 1)
  match mode with
  | .left => each (fun r => (left - r.left, 0))
  | .right => each (fun r => (right - r.right, 0))
  | .hcenter => each (fun r => (midX - (r.left + r.right) / 2, 0))
  | .top => each (fun r => (0, top - r.top))
  | .bottom => each (fun r => (0, bottom - r.bottom))
  | .vcenter => each (fun r => (0, midY - (r.top + r.bottom) / 2))
  | .distributeH =>
    let order := order BRect.left
    distribute BRect.left BRect.width (fun v => (v, 0)) (gap (right - left) BRect.width order) left (order.map PDShape.id)
      shapes
  | .distributeV =>
    let order := order BRect.top
    distribute BRect.top BRect.height (fun v => (0, v)) (gap (bottom - top) BRect.height order) top (order.map PDShape.id)
      shapes

def PDDocument.align (d : PDDocument) (ids : List Int) (mode : PDAlign) : PDDocument × Bool :=
  if ids.length < (if mode = .distributeH ∨ mode = .distributeV then 3 else 2) then (d, false)
  else
    let sel := ids.filterMap (fun id => (shapeById d.fShapes id).filter (fun s => decide (s.kind ≠ .connector)))
    if sel.length ≠ ids.length ∨ sel.length < 2 then (d, false)
    else match sel with
      | [] => (d, false)
      | first :: rest =>
        let d := d.snapshot
        ({ d with fShapes := alignShapes mode first rest d.fShapes, fModified := true }, true)

/-! ## The undo stack -/

/-- `Restore`, and the same from the other stack: the vector swapped in is a copy, with no room to spare. -/
def PDDocument.undo (d : PDDocument) : PDDocument :=
  match d.fUndo with
  | [] => d
  | (shapes, nextId) :: rest =>
    { d with
      fUndo := rest, fRedo := (d.fShapes, d.fNextId) :: d.fRedo
      fShapes := shapes, fCapacity := shapes.length, fNextId := nextId, fModified := true }

def PDDocument.redo (d : PDDocument) : PDDocument :=
  match d.fRedo with
  | [] => d
  | (shapes, nextId) :: rest =>
    { d with
      fRedo := rest, fUndo := (d.fShapes, d.fNextId) :: d.fUndo
      fShapes := shapes, fCapacity := shapes.length, fNextId := nextId, fModified := true }

/-! ## The canvas -/

/-- `ShapeAtPoint`: the id of the topmost shape that is no connector, or 0. -/
def PDDocument.shapeAtPoint (d : PDDocument) (p : BPoint) : Int :=
  match d.fShapes.reverse.find? (fun s => decide (s.kind ≠ .connector) && s.rect.contains p) with
  | none => 0
  | some s => s.id

def PDDocument.addConnector (d : PDDocument) (f : PDShape → PDShape) : PDDocument × Int :=
  let a := d.addShape .connector ⟨0, 0, 0, 0⟩ none
  ({ a.1 with fShapes := modifyBack f a.1.fShapes }, a.2)

def PDDocument.connect (d : PDDocument) (p q : BPoint) : PDDocument :=
  let connectFrom := d.shapeAtPoint p
  let hit := d.shapeAtPoint q
  if connectFrom = 0 ∨ hit = 0 ∨ hit = connectFrom then d
  else (d.addConnector (fun c => { c with fromId := connectFrom, toId := hit })).1

def PDDocument.queueConnector (d : PDDocument) (elbow : Bool) : PDDocument :=
  match (d.fShapes.reverse.filter (fun s => decide (s.kind ≠ .connector))).take 2 with
  | [s, t] => (d.addConnector (fun c => { c with fromId := t.id, toId := s.id, orthogonal := elbow })).1
  | _ => d

/-- What `DuplicateSelection` works on: the document, the new ids by the old ones, the new selection. -/
structure Duplication where
  doc : PDDocument
  remap : SortedMap Int Int := SortedMap.empty
  fresh : List Int := []

def duplicateShape (r : Duplication) (id : Int) : Duplication :=
  match shapeById r.doc.fShapes id with
  | none => r
  | some s =>
    if s.kind = .connector then r
    else
      let a := r.doc.addShape s.kind (s.rect.offsetBy r.doc.fGrid r.doc.fGrid) (some s.label)
      { doc := { a.1 with fShapes := modifyBack (fun n => { n with style := s.style }) a.1.fShapes }
        remap := r.remap.set id a.2
        fresh := r.fresh ++ [a.2] }

/-- `remap[id]`: a key not there is put in, with 0. -/
def remapAt (remap : SortedMap Int Int) (id : Int) : Int × SortedMap Int Int :=
  match remap.get? id with
  | some v => (v, remap)
  | none => (0, remap.set id 0)

section
variable (freed : PDDocument → PDShape → PDShape)

/-- A turn of the second loop: a connector among the shapes.  When `AddShape` moves the shapes, `s` is left pointing to
memory given back. -/
def duplicateConnector (r : Duplication) (id : Int) : Duplication :=
  match shapeById r.doc.fShapes id with
  | none => r
  | some s =>
    if s.kind ≠ .connector then r
    else if (r.remap.get? s.fromId).isSome ∧ (r.remap.get? s.toId).isSome then
      let a := r.doc.addShape .connector ⟨0, 0, 0, 0⟩ none
      let s := if r.doc.fShapes.length = r.doc.fCapacity then freed a.1 s else s
      let fromEnd := remapAt r.remap s.fromId
      let toEnd := remapAt fromEnd.2 s.toId
      { doc := { a.1 with fShapes := modifyBack (fun c => { c with
          fromId := fromEnd.1, toId := toEnd.1, style := s.style, arrowEnd := s.arrowEnd, arrowStart := s.arrowStart
          orthogonal := s.orthogonal }) a.1.fShapes }
        remap := toEnd.2
        fresh := r.fresh ++ [a.2] }
    else r

/-- `DuplicateSelection`, and the new selection. -/
def PDDocument.duplicateSelection (d : PDDocument) (selection : List Int) : PDDocument × List Int :=
  let r := selection.foldl (duplicateConnector freed) (selection.foldl duplicateShape { doc := d })
  (r.doc, r.fresh)

/-! ## The calls -/

inductive Call
  | addShape (kind : PDShapeKind) (h : kind ≠ .connector) (rect : BRect) (label : Option (List Byte))
  | addImageRGBA (width height : Int) (rgba : Option (Nat → UInt8))
  | connect (p q : BPoint)
  | queueConnector (elbow : Bool)
  | removeShapes (ids : List Int)
  | setShapeRect (id : Int) (rect : BRect)
  | setShapeLabel (id : Int) (label : List Byte)
  | setShapeStyle (id : Int) (style : PDStyle)
  | setShapeFlags (id : Int) (arrowEnd arrowStart orthogonal : Bool)
  | setGrid (g : Float32)
  | setSnapEnabled (on : Bool)
  | setShowGrid (on : Bool)
  | setPage (p : PDPageSetup)
  | moveZ (id : Int) (toFront : Bool)
  | align (ids : List Int) (mode : PDAlign)
  | duplicateSelection (selection : List Int)
  | pushUndo
  | undo
  | redo
  | savedClean

def PDDocument.call (d : PDDocument) : Call → PDDocument
  | .addShape kind _ rect label => (d.addShape kind rect label).1
  | .addImageRGBA width height rgba => (d.addImageRGBA width height rgba).1
  | .connect p q => d.connect p q
  | .queueConnector elbow => d.queueConnector elbow
  | .removeShapes ids => d.removeShapes ids
  | .setShapeRect id rect => d.setShapeRect id rect
  | .setShapeLabel id label => d.setShapeLabel id label
  | .setShapeStyle id style => d.setShapeStyle id style
  | .setShapeFlags id arrowEnd arrowStart orthogonal => d.setShapeFlags id arrowEnd arrowStart orthogonal
  | .setGrid g => d.setGrid g
  | .setSnapEnabled on => { d with fSnap := on }
  | .setShowGrid on => { d with fShowGrid := on }
  | .setPage p => { d with fPage := p }
  | .moveZ id toFront => d.moveZ id toFront
  | .align ids mode => (d.align ids mode).1
  | .duplicateSelection selection => (d.duplicateSelection freed selection).1
  | .pushUndo => d.snapshot
  | .undo => d.undo
  | .redo => d.redo
  | .savedClean => { d with fModified := false }

def PDDocument.calls (d : PDDocument) (cs : List Call) : PDDocument := cs.foldl (PDDocument.call freed) d

end

end Draw
end Prose
