import Prose.BMessage
import Prose.DrawDoc
/-!
# DrawMessage — `SaveToMessage` and `LoadFromMessage`

What a document is saved as, and what loading a message makes of the document that was open.  Loading adds the rasters of
the message behind those that are there, so a shape finds the raster it was saved with as long as no older one answers to
its id.
-/
namespace Prose
namespace Draw

open BMessage

/-! ## Saving -/

def colorToInt (c : RgbColor) : Int := pack c.red c.green c.blue c.alpha

def intToColor (v : Int) : RgbColor := ⟨byteAt v 0, byteAt v 8, byteAt v 16, byteAt v 24⟩

def PDShapeKind.byte : PDShapeKind → UInt8
  | .rect => 0
  | .rrect => 1
  | .ellipse => 2
  | .diamond => 3
  | .text => 4
  | .connector => 5
  | .image => 6
  | .unnamed b _ => b

/-- The cast to `PDShapeKind`. -/
def PDShapeKind.ofByte (b : UInt8) : PDShapeKind :=
  if h : 7 ≤ b then .unnamed b h
  else if b = 0 then .rect
  else if b = 1 then .rrect
  else if b = 2 then .ellipse
  else if b = 3 then .diamond
  else if b = 4 then .text
  else if b = 5 then .connector
  else .image

def PDStyle.archive (s : PDStyle) : BMessage Float32 :=
  [("fillOn", .bool s.fillOn), ("fill", .int32 (colorToInt s.fill)), ("stroke", .int32 (colorToInt s.stroke)),
    ("sw", .float s.strokeWidth), ("dashed", .bool s.dashed), ("ts", .float s.textSize),
    ("tc", .int32 (colorToInt s.textColor))]

def PDStyle.unarchive (s : PDStyle) (m : BMessage Float32) : PDStyle where
  fillOn := findD Field.bool? "fillOn" s.fillOn m
  fill := intToColor (findD Field.int32? "fill" (colorToInt s.fill) m)
  stroke := intToColor (findD Field.int32? "stroke" (colorToInt s.stroke) m)
  strokeWidth := findD Field.float? "sw" s.strokeWidth m
  dashed := findD Field.bool? "dashed" s.dashed m
  textSize := findD Field.float? "ts" s.textSize m
  textColor := intToColor (findD Field.int32? "tc" (colorToInt s.textColor) m)

def PDShape.message (s : PDShape) : BMessage Float32 :=
  [("id", .int32 s.id), ("kind", .int8 s.kind.byte.toInt8.toInt), ("l", .float s.rect.left), ("t", .float s.rect.top),
    ("r", .float s.rect.right), ("b", .float s.rect.bottom)] ++
  (if 0 < s.label.length then [("label", .string s.label)] else []) ++
  s.style.archive ++
  [("from", .int32 s.fromId), ("to", .int32 s.toId), ("ae", .bool s.arrowEnd), ("as", .bool s.arrowStart)] ++
  (if s.orthogonal then [("ort", .bool true)] else []) ++
  (if s.kind = .image then [("img", .int32 s.imageId)] else [])

def PDImage.message (img : PDImage) : BMessage Float32 :=
  [("id", .int32 img.id), ("w", .int32 img.width), ("h", .int32 img.height), ("bits", .data img.bits)]

def PDDocument.saveToMessage (d : PDDocument) : BMessage Float32 :=
  [("pw", .float d.fPage.width), ("ph", .float d.fPage.height), ("grid", .float d.fGrid)] ++
  d.fShapes.map (fun s => ("shape", .message s.message)) ++
  d.fImages.map (fun img => ("image", .message img.message))

/-! ## Loading -/

def loadShape (m : BMessage Float32) : PDShape where
  id := findD Field.int32? "id" 0 m
  kind := PDShapeKind.ofByte (Int8.ofInt (findD Field.int8? "kind" 0 m)).toUInt8
  rect := ⟨findD Field.float? "l" 0 m, findD Field.float? "t" 0 m, findD Field.float? "r" 0 m,
    findD Field.float? "b" 0 m⟩
  label := findD Field.string? "label" [] m
  style := ({} : PDStyle).unarchive m
  fromId := findD Field.int32? "from" 0 m
  toId := findD Field.int32? "to" 0 m
  arrowEnd := findD Field.bool? "ae" true m
  arrowStart := findD Field.bool? "as" false m
  orthogonal := findD Field.bool? "ort" false m
  imageId := findD Field.int32? "img" 0 m

def loadImage (m : BMessage Float32) : Option PDImage :=
  let width := findD Field.int32? "w" 0 m
  let height := findD Field.int32? "h" 0 m
  match find Field.data? "bits" m with
  | none => none
  | some bits =>
    if h : 0 < width ∧ 0 < height ∧ bits.length = (width * height * 4).toNat then
      some
        { id := findD Field.int32? "id" 0 m, width := width, height := height, bits := bits
          width_pos := h.1, height_pos := h.2.1, length_bits := h.2.2 }
    else none

def PDDocument.loadFromMessage (d : PDDocument) (m : BMessage Float32) : PDDocument :=
  let shapes := (all Field.message? "shape" m).map loadShape
  let images := (all Field.message? "image" m).filterMap loadImage
  { d with
    fPage := ⟨findD Field.float? "pw" d.fPage.width m, findD Field.float? "ph" d.fPage.height m⟩
    fGrid := findD Field.float? "grid" d.fGrid m
    fShapes := shapes
    fCapacity := (List.range shapes.length).foldl (fun capacity n => pushCapacity n capacity) d.fCapacity
    fImages := d.fImages ++ images
    fUndo := [], fRedo := []
    fNextId := shapes.foldl (fun next s => max next (s.id + 1)) 1
    fNextImageId := images.foldl (fun next img => max next (img.id + 1)) d.fNextImageId
    fModified := false }

/-! ## What a message gives back -/

theorem intToColor_colorToInt (c : RgbColor) : intToColor (colorToInt c) = c := by
  obtain ⟨h0, h1, h2, h3⟩ := byteAt_pack c.red c.green c.blue c.alpha
  unfold intToColor colorToInt
  rw [h0, h1, h2, h3]

theorem ofByte_byte (k : PDShapeKind) : PDShapeKind.ofByte k.byte = k := by
  cases k with
  | unnamed b h => exact dif_pos h
  | _ => rfl

theorem ofByte_int8 (k : PDShapeKind) :
    PDShapeKind.ofByte (Int8.ofInt k.byte.toInt8.toInt).toUInt8 = k := by
  rw [Int8.ofInt_toInt]
  exact ofByte_byte k

theorem unarchive_message (s : PDShape) : ({} : PDStyle).unarchive s.message = s.style := by
  unfold PDStyle.unarchive PDShape.message PDStyle.archive findD
  simp [Field.bool?, Field.int32?, Field.float?, intToColor_colorToInt]

/-- **A shape comes back**, but for the image id of what is no image. -/
theorem loadShape_message (s : PDShape) :
    loadShape s.message = { s with imageId := if s.kind = .image then s.imageId else 0 } := by
  have hlabel : findD Field.string? "label" [] s.message = s.label := by
    unfold findD PDShape.message PDStyle.archive
    by_cases h : 0 < s.label.length
    · simp [h, Field.string?]
    · simp [List.length_eq_zero_iff.1 (Nat.eq_zero_of_not_pos h)]
  have hkind : findD Field.int8? "kind" 0 s.message = s.kind.byte.toInt8.toInt := by
    unfold findD PDShape.message PDStyle.archive
    simp [Field.int8?]
  have horthogonal : findD Field.bool? "ort" false s.message = s.orthogonal := by
    unfold findD PDShape.message PDStyle.archive
    cases s.orthogonal <;> simp [Field.bool?]
  have himage : findD Field.int32? "img" 0 s.message = if s.kind = .image then s.imageId else 0 := by
    unfold findD PDShape.message PDStyle.archive
    by_cases h : s.kind = .image <;> simp [h, Field.int32?]
  unfold loadShape
  rw [unarchive_message, hlabel, hkind, ofByte_int8, horthogonal, himage]
  unfold findD PDShape.message PDStyle.archive
  simp [Field.int32?, Field.float?, Field.bool?]

theorem loadImage_message (img : PDImage) : loadImage img.message = some img := by
  unfold loadImage PDImage.message findD
  simp [Field.int32?, Field.data?, img.width_pos, img.height_pos, img.length_bits]

/-! ## Loading what was saved -/

theorem all_shapes (d : PDDocument) : all Field.message? "shape" d.saveToMessage = d.fShapes.map PDShape.message := by
  unfold PDDocument.saveToMessage
  rw [all_append, all_append, all_map, all_map_of_ne _ _ _ (by decide)]
  simp [all, Field.message?]

theorem all_images (d : PDDocument) : all Field.message? "image" d.saveToMessage = d.fImages.map PDImage.message := by
  unfold PDDocument.saveToMessage
  rw [all_append, all_append, all_map, all_map_of_ne _ _ _ (by decide)]
  simp [all, Field.message?]

theorem loadFromMessage_fShapes (A B : PDDocument) : (B.loadFromMessage A.saveToMessage).fShapes =
    A.fShapes.map (fun s => { s with imageId := if s.kind = .image then s.imageId else 0 }) := by
  show (all Field.message? "shape" A.saveToMessage).map loadShape = _
  rw [all_shapes, List.map_map]
  exact congrArg (List.map · A.fShapes) (funext loadShape_message)

theorem loadFromMessage_fImages (A B : PDDocument) : (B.loadFromMessage A.saveToMessage).fImages = B.fImages ++ A.fImages := by
  show B.fImages ++ (all Field.message? "image" A.saveToMessage).filterMap loadImage = _
  rw [all_images, List.filterMap_map, show loadImage ∘ PDImage.message = some from funext loadImage_message,
    List.filterMap_some]

theorem loadFromMessage_page (A B : PDDocument) : (B.loadFromMessage A.saveToMessage).fPage = A.fPage ∧
    (B.loadFromMessage A.saveToMessage).fGrid = A.fGrid := by
  unfold PDDocument.loadFromMessage PDDocument.saveToMessage findD
  simp [Field.float?]

def PDImage.raster (img : PDImage) : Int × Int × List UInt8 := (img.width, img.height, img.bits)

theorem imageById_append (images images' : List PDImage) (id : Int) :
    imageById (images ++ images') id = (imageById images id).or (imageById images' id) := List.find?_append

/-- `R` shows what `A` shows. -/
def Restores (A R : PDDocument) : Prop :=
  R.fShapes = A.fShapes ∧ R.fPage = A.fPage ∧ R.fGrid = A.fGrid ∧
    ∀ s ∈ A.fShapes, (imageById R.fImages s.imageId).map PDImage.raster = (imageById A.fImages s.imageId).map PDImage.raster

/-- **Loading into an open document** gives the saved one when only images have image ids, and no raster of the open
document answers to such an id unless it looks the same. -/
theorem load_restores_iff (A B : PDDocument) : Restores A (B.loadFromMessage A.saveToMessage) ↔
    (∀ s ∈ A.fShapes, s.kind ≠ .image → s.imageId = 0) ∧
      ∀ s ∈ A.fShapes, ∀ img ∈ imageById B.fImages s.imageId,
        (imageById A.fImages s.imageId).map PDImage.raster = some img.raster := by
  obtain ⟨hpage, hgrid⟩ := loadFromMessage_page A B
  unfold Restores
  rw [loadFromMessage_fShapes, loadFromMessage_fImages, and_iff_right hpage, and_iff_right hgrid]
  refine and_congr ?_ (forall₂_congr fun s _ => ?_)
  · rw [← List.map_id A.fShapes, List.map_map, List.map_inj_left, List.map_id]
    refine forall₂_congr fun s _ => ?_
    by_cases hk : s.kind = .image
    · rw [Function.comp_apply, if_pos (show (id s).kind = .image from hk)]
      exact iff_of_true rfl (fun hn => absurd hk hn)
    rw [Function.comp_apply, if_neg (show (id s).kind ≠ .image from hk)]
    constructor
    · exact fun h _ => (congrArg PDShape.imageId h).symm
    · intro h
      rw [← h hk]
      rfl
  · rw [imageById_append]
    cases hB : imageById B.fImages s.imageId with
    | none =>
      rw [Option.none_or]
      exact iff_of_true rfl (fun img himg => by cases himg)
    | some img =>
      rw [Option.some_or, Option.map_some]
      constructor
      · rintro h img' himg
        cases himg
        exact h.symm
      · exact fun h => (h img rfl).symm

/-- An image on the page and its raster, `b` in every byte. -/
def onePicture (b : UInt8) : PDDocument :=
  { (({} : PDDocument).addImageRGBA 1 1 (some fun _ => b)).1 with
    fShapes := [{ id := 1, kind := .image, imageId := 1 }], fNextId := 2 }

/-- The image shows the raster of the document that was open. -/
theorem load_keeps_old_raster : ¬ ∀ A B : PDDocument, Restores A (B.loadFromMessage A.saveToMessage) := by
  intro h
  have hraster := (h (onePicture 255) (onePicture 0)).2.2.2 _ List.mem_cons_self
  rw [loadFromMessage_fImages] at hraster
  exact absurd hraster (by decide)

end Draw
end Prose
