import Prose.DrawDoc
import Prose.Traverse
/-!
# DrawPdf — `PDPDF.cpp`, the images

What of the PDF writer decides which raster a shape shows: the content stream numbers an image by its first use, the
resource dictionary and the image objects follow the map of the images used, which is in the order of their ids.  The two
agree when, place by place, the images look the same.
-/
namespace Prose
namespace Draw

open SortedMap List

/-! ## The writer -/

/-- What `EmitShape` puts into the content stream for a shape: an image by its number, `/ImN Do`, or the operators of one
of the other branches. -/
inductive ContentOp
  | image (s : PDShape) (n : Int)
  | drawn (s : PDShape)
deriving DecidableEq

/-- `PdfPen`'s content, and `imageObject`. -/
structure Pen where
  content : List ContentOp := []
  imageObject : SortedMap Int Int := SortedMap.empty

/-- `EmitShape`.  `imageObject[s.imageId] = imageObject.size()` takes the size before the entry is there. -/
def emitShape (images : List PDImage) (p : Pen) (s : PDShape) : Pen :=
  if s.kind = .image then
    match imageById images s.imageId with
    | none => p
    | some _ =>
      let imageObject := p.imageObject.number s.imageId
      { content := p.content ++ [.image s ((imageObject.get? s.imageId).getD 0)], imageObject := imageObject }
  else { p with content := p.content ++ [.drawn s] }

def PDImage.rgb (img : PDImage) : List UInt8 :=
  (List.range img.height.toNat).flatMap (fun y => (List.range img.width.toNat).flatMap (fun x =>
    [2, 1, 0].map (fun c => img.bits.getD (y * (img.width.toNat * 4) + x * 4 + c) 0)))

/-- An image object: its number, its dictionary's width and height, its stream. -/
structure PdfImage where
  number : Nat
  width : Int
  height : Int
  flate : List UInt8

/-- What the file says of images: the content stream, the names and object numbers of the page's XObject dictionary, the
image objects. -/
structure PdfParts where
  content : List ContentOp
  xObjects : List (Nat × Nat)
  images : List PdfImage

def kFixedObjects : Nat := 5

section
variable (compress : List UInt8 → Option (List UInt8))

def imageBits (images : List PDImage) (entry : Int × Int) : Option (PDImage × List UInt8) := do
  let img ← imageById images entry.1
  let flate ← compress img.rgb
  return (img, flate)

/-- `PD_WritePDF`: none when an image cannot be compressed. -/
def PDDocument.writePDF (d : PDDocument) : Option PdfParts := do
  let p := d.fShapes.foldl (emitShape d.fImages) {}
  let images ← p.imageObject.entries.mapM (imageBits compress d.fImages)
  return {
    content := p.content
    xObjects := (List.range images.length).map (fun i => (i, kFixedObjects + 1 + i))
    images := images.mapIdx (fun i img =>
      { number := kFixedObjects + 1 + i, width := img.1.width, height := img.1.height, flate := img.2 }) }

end

/-! ## What a reader sees -/

/-- The image object that `/ImN Do` draws. -/
def PdfParts.resolve (f : PdfParts) (n : Int) : Option PdfImage :=
  (f.xObjects.find? (fun x => decide ((x.1 : Int) = n))).bind
    (fun x => f.images.find? (fun img => decide (img.number = x.2)))

def PdfParts.Faithful (inflate : List UInt8 → List UInt8) (images : List PDImage) (f : PdfParts) : Prop :=
  ∀ s n, ContentOp.image s n ∈ f.content → ∃ img obj, imageById images s.imageId = some img ∧ f.resolve n = some obj ∧
    obj.width = img.width ∧ obj.height = img.height ∧ inflate obj.flate = img.rgb

def showsImage (images : List PDImage) (s : PDShape) : Bool :=
  decide (s.kind = .image) && (imageById images s.imageId).isSome

def PDDocument.usedIds (d : PDDocument) : List Int := (d.fShapes.filter (showsImage d.fImages)).map PDShape.imageId

def PDImage.shown (img : PDImage) : Int × Int × List UInt8 := (img.width, img.height, img.rgb)

def PDDocument.shown (d : PDDocument) (ids : List Int) : List (Option (Int × Int × List UInt8)) :=
  ids.map (fun id => (imageById d.fImages id).map PDImage.shown)

/-- The images in the order of first use look like the images in the order of their ids. -/
def PDDocument.InOrder (d : PDDocument) : Prop :=
  d.shown (firstUses [] d.usedIds) = d.shown ((firstUses [] d.usedIds).mergeSort (fun a b => decide (a ≤ b)))

/-! ## Numbers in the content stream -/

structure Drawn (images : List PDImage) (p : Pen) (seen : List Int) : Prop where
  numbers : Numbers p.imageObject seen
  known : ∀ id ∈ seen, (imageById images id).isSome
  image : ∀ s n, ContentOp.image s n ∈ p.content → ∃ i : Nat, n = i ∧ seen[i]? = some s.imageId
  used : ∀ (i : Nat) (id : Int), seen[i]? = some id → ∃ s, ContentOp.image s i ∈ p.content ∧ s.imageId = id

section
variable {images : List PDImage} {p : Pen} {seen : List Int} (h : Drawn images p seen)
include h

theorem Drawn.other {s : PDShape} (hs : showsImage images s = false) : Drawn images (emitShape images p s) seen := by
  unfold emitShape
  split
  · rename_i hk
    cases hi : imageById images s.imageId with
    | none => exact h
    | some img =>
      unfold showsImage at hs
      rw [hi, decide_eq_true hk] at hs
      cases hs
  · refine ⟨h.numbers, h.known, fun t n ht => ?_, fun i id hi => ?_⟩
    · refine h.image t n ((mem_append.1 ht).resolve_right (fun ht => ?_))
      cases mem_singleton.1 ht
    · obtain ⟨t, ht, hid⟩ := h.used i id hi
      exact ⟨t, mem_append_left _ ht, hid⟩

theorem Drawn.imageShape {s : PDShape} (hs : showsImage images s = true) :
    Drawn images (emitShape images p s) (if s.imageId ∈ seen then seen else seen ++ [s.imageId]) := by
  unfold showsImage at hs
  rw [Bool.and_eq_true, decide_eq_true_eq, Option.isSome_iff_exists] at hs
  obtain ⟨hk, img, himg⟩ := hs
  have hn := h.numbers.number s.imageId
  -- the ids seen keep their places, and this one has a place
  have hkeep : ∀ (i : Nat) (id : Int), seen[i]? = some id →
      (if s.imageId ∈ seen then seen else seen ++ [s.imageId])[i]? = some id := fun i id hi => by
    split
    · exact hi
    · rw [getElem?_append_left (List.getElem?_eq_some_iff.1 hi).1]
      exact hi
  have hback : ∀ (i : Nat) (id : Int), (if s.imageId ∈ seen then seen else seen ++ [s.imageId])[i]? = some id →
      id ≠ s.imageId → seen[i]? = some id := fun i id hi hne => by
    split at hi
    · exact hi
    rw [getElem?_append] at hi
    split at hi
    · exact hi
    · exact absurd (mem_singleton.1 (mem_of_getElem? hi)) hne
  have hmem : s.imageId ∈ (if s.imageId ∈ seen then seen else seen ++ [s.imageId]) := by
    split
    · assumption
    · exact mem_append_right _ mem_cons_self
  generalize (if s.imageId ∈ seen then seen else seen ++ [s.imageId]) = seen' at hn hkeep hback hmem
  obtain ⟨i₀, hi₀⟩ := mem_iff_getElem?.1 hmem
  have hget := (hn.get? s.imageId i₀).2 ⟨i₀, rfl, hi₀⟩
  unfold emitShape
  rw [if_pos hk, himg]
  dsimp only
  rw [hget, Option.getD_some]
  refine ⟨hn, fun id hid => ?_, fun t n ht => ?_, fun i id hi => ?_⟩
  · obtain ⟨i, hi⟩ := mem_iff_getElem?.1 hid
    by_cases hs : id = s.imageId
    · rw [hs, himg]
      rfl
    · exact h.known id (mem_of_getElem? (hback i id hi hs))
  · rcases mem_append.1 ht with ht | ht
    · obtain ⟨i, rfl, hi⟩ := h.image t n ht
      exact ⟨i, rfl, hkeep i _ hi⟩
    · cases mem_singleton.1 ht
      exact ⟨i₀, rfl, hi₀⟩
  · by_cases hs : id = s.imageId
    · have hii := (hn.get? id i).2 ⟨i, rfl, hi⟩
      rw [hs, hget, Option.some.injEq] at hii
      exact ⟨s, mem_append_right _ (by rw [hii]; exact mem_cons_self), hs.symm⟩
    · obtain ⟨t, ht, hid⟩ := h.used i id (hback i id hi hs)
      exact ⟨t, mem_append_left _ ht, hid⟩

end

theorem Drawn.foldl {images : List PDImage} : ∀ (ss : List PDShape) {p : Pen} {seen : List Int}, Drawn images p seen →
    Drawn images (ss.foldl (emitShape images) p) (firstUses seen ((ss.filter (showsImage images)).map PDShape.imageId))
  | [], _, _, h => h
  | s :: ss, p, seen, h => by
    rw [foldl_cons, filter_cons]
    cases hs : showsImage images s with
    | false => exact Drawn.foldl ss (h.other hs)
    | true => exact Drawn.foldl ss (h.imageShape hs)

/-! ## Numbers in the resource dictionary -/

section
variable (compress : List UInt8 → Option (List UInt8))

theorem writePDF_eq_some {d : PDDocument} {f : PdfParts} (h : d.writePDF compress = some f) :
    ∃ (p : Pen) (images : List (PDImage × List UInt8)), Drawn d.fImages p (firstUses [] d.usedIds) ∧ f.content = p.content ∧
      f.xObjects = (List.range images.length).map (fun i => (i, kFixedObjects + 1 + i)) ∧
      f.images = images.mapIdx (fun i img =>
        { number := kFixedObjects + 1 + i, width := img.1.width, height := img.1.height, flate := img.2 }) ∧
      List.Forall₂ (fun id (img : PDImage × List UInt8) => imageById d.fImages id = some img.1 ∧
        compress img.1.rgb = some img.2) ((firstUses [] d.usedIds).mergeSort (fun a b => decide (a ≤ b))) images := by
  unfold PDDocument.writePDF at h
  rw [Option.bind_eq_bind, Option.bind_eq_some_iff] at h
  obtain ⟨images, himages, hf⟩ := h
  cases hf
  have hdrawn : Drawn d.fImages (d.fShapes.foldl (emitShape d.fImages) {}) (firstUses [] d.usedIds) :=
    Drawn.foldl d.fShapes ⟨numbers_empty, fun _ h => (nomatch h), fun _ _ h => (nomatch h), fun _ _ h => (nomatch h)⟩
  refine ⟨_, images, hdrawn, rfl, rfl, rfl, ?_⟩
  rw [← hdrawn.numbers.keys_eq, List.forall₂_map_left_iff]
  refine (Traverse.forall₂_of_mapM himages).imp (fun e img himg => ?_)
  unfold imageBits at himg
  rw [Option.bind_eq_bind, Option.bind_eq_some_iff] at himg
  obtain ⟨i, hi, himg⟩ := himg
  rw [Option.bind_eq_bind, Option.bind_eq_some_iff] at himg
  obtain ⟨z, hz, himg⟩ := himg
  cases himg
  exact ⟨hi, hz⟩

theorem resolve_eq {f : PdfParts} {images : List (PDImage × List UInt8)}
    (hx : f.xObjects = (List.range images.length).map (fun i => (i, kFixedObjects + 1 + i)))
    (hf : f.images = images.mapIdx (fun i img =>
      { number := kFixedObjects + 1 + i, width := img.1.width, height := img.1.height, flate := img.2 }))
    {i : Nat} {img : PDImage × List UInt8} (hi : images[i]? = some img) :
    f.resolve i = some
      { number := kFixedObjects + 1 + i, width := img.1.width, height := img.1.height, flate := img.2 } := by
  have hlt := (List.getElem?_eq_some_iff.1 hi).1
  unfold PdfParts.resolve
  rw [hx, hf]
  rw [@Traverse.find?_of_unique _ _ _ i (i, kFixedObjects + 1 + i)]
  · rw [Option.bind_some]
    refine Traverse.find?_of_unique (i := i) ?_ (decide_eq_true rfl) (fun j obj hj hobj => ?_)
    · rw [getElem?_mapIdx, hi]
      rfl
    · rw [getElem?_mapIdx, Option.map_eq_some_iff] at hj
      obtain ⟨img', -, rfl⟩ := hj
      have := of_decide_eq_true hobj
      dsimp only at this
      omega
  · rw [getElem?_map, getElem?_range hlt]
    rfl
  · exact decide_eq_true rfl
  · intro j x hj hxj
    rw [getElem?_map, Option.map_eq_some_iff] at hj
    obtain ⟨k, hk, rfl⟩ := hj
    have := of_decide_eq_true hxj
    dsimp only at this
    have hjk : j = k := by
      obtain ⟨hlt', he⟩ := List.getElem?_eq_some_iff.1 hk
      rw [getElem_range] at he
      exact he
    omega

/-- **The images drawn are the images meant** when the images in the order of first use look like the images in the order of
their ids, and only then. -/
theorem writePDF_faithful_iff {inflate : List UInt8 → List UInt8}
    (hz : ∀ bytes z, compress bytes = some z → inflate z = bytes) {d : PDDocument} {f : PdfParts}
    (h : d.writePDF compress = some f) : f.Faithful inflate d.fImages ↔ d.InOrder := by
  obtain ⟨p, images, hdrawn, hcontent, hx, hf, himages⟩ := writePDF_eq_some compress h
  have hperm := mergeSort_perm (firstUses [] d.usedIds) (fun a b => decide (a ≤ b))
  generalize hseen : firstUses [] d.usedIds = seen at hdrawn himages hperm
  generalize hsort : seen.mergeSort (fun a b => decide (a ≤ b)) = sorted at himages hperm
  -- the image object of a number
  have hobj : ∀ {i : Nat} {v : Int}, sorted[i]? = some v → ∃ img obj, imageById d.fImages v = some img ∧
      f.resolve i = some obj ∧ obj.width = img.width ∧ obj.height = img.height ∧ inflate obj.flate = img.rgb := by
    intro i v hv
    obtain ⟨img, himg, hid, hcomp⟩ := Traverse.getElem?_of_forall₂ himages hv
    exact ⟨img.1, _, hid, resolve_eq hx hf himg, rfl, rfl, hz _ _ hcomp⟩
  have hplace : ∀ {i : Nat} {u : Int}, seen[i]? = some u → ∃ v, sorted[i]? = some v := by
    intro i u hu
    have hlt := (List.getElem?_eq_some_iff.1 hu).1
    rw [← hperm.length_eq] at hlt
    exact ⟨_, getElem?_eq_getElem hlt⟩
  unfold PDDocument.InOrder PDDocument.shown
  rw [hseen, hsort]
  constructor
  · intro hfaith
    refine ext_getElem? fun i => ?_
    rw [getElem?_map, getElem?_map]
    cases hu : seen[i]? with
    | none =>
      rw [getElem?_eq_none (by rw [hperm.length_eq]; exact List.getElem?_eq_none_iff.1 hu)]
    | some u =>
      obtain ⟨v, hv⟩ := hplace hu
      obtain ⟨s, hs, rfl⟩ := hdrawn.used i u hu
      obtain ⟨img, obj, himg, hres, hw, hh, hrgb⟩ := hfaith s i (by rw [hcontent]; exact hs)
      obtain ⟨img', obj', himg', hres', hw', hh', hrgb'⟩ := hobj hv
      rw [hres, Option.some.injEq] at hres'
      subst hres'
      rw [hv, Option.map_some, Option.map_some, himg, himg', Option.map_some, Option.map_some]
      unfold PDImage.shown
      rw [← hw, ← hh, ← hrgb, ← hw', ← hh', ← hrgb']
  · intro horder s n hs
    rw [hcontent] at hs
    obtain ⟨i, rfl, hi⟩ := hdrawn.image s n hs
    obtain ⟨v, hv⟩ := hplace hi
    obtain ⟨img', obj, himg', hres, hw, hh, hrgb⟩ := hobj hv
    obtain ⟨img, himg⟩ := Option.isSome_iff_exists.1 (hdrawn.known s.imageId (mem_of_getElem? hi))
    have hi' := congrArg (·[i]?) horder
    rw [getElem?_map, getElem?_map, hi, hv, Option.map_some, Option.map_some, himg, himg', Option.map_some,
      Option.map_some, Option.some.injEq, Option.some.injEq] at hi'
    unfold PDImage.shown at hi'
    rw [Prod.mk.injEq, Prod.mk.injEq] at hi'
    exact ⟨img, obj, himg, hres, hw.trans hi'.1.symm, hh.trans hi'.2.1.symm, hrgb.trans hi'.2.2.symm⟩

end

/-- Two rasters of a pixel, dark and light, and a shape for each, the rear one for `rear`. -/
def twoPictures (rear front : Int) : PDDocument :=
  { ((({} : PDDocument).addImageRGBA 1 1 (some fun _ => 0)).1.addImageRGBA 1 1 (some fun _ => 255)).1 with
    fShapes := [{ id := 1, kind := .image, imageId := rear }, { id := 2, kind := .image, imageId := front }] }

/-- The second raster drawn first takes the name of the first. -/
theorem writePDF_swaps_images :
    ¬ ∀ (d : PDDocument) (f : PdfParts), d.writePDF some = some f → f.Faithful id d.fImages := by
  intro h
  obtain ⟨img, obj, himg, hres, -, -, hrgb⟩ :=
    h (twoPictures 2 1) _ rfl { id := 1, kind := .image, imageId := 2 } 0 (by decide)
  cases himg
  cases hres
  exact absurd hrgb (by decide)

theorem writePDF_faithful_twoPictures : ∃ f, (twoPictures 1 2).writePDF some = some f ∧ f.Faithful id (twoPictures 1 2).fImages :=
  ⟨_, rfl, (writePDF_faithful_iff some (fun _ _ h => (Option.some.inj h).symm) rfl).2 (by
    unfold PDDocument.InOrder
    rw [mergeSort_of_pairwise (by decide)])⟩

end Draw
end Prose
