import Mathlib.Data.Rat.Floor
import Mathlib.Data.List.Range
import Prose.Sink
import Prose.Traverse
/-!
# WriterPdf — `PWPDF.cpp`

The PDF writer, and what a reader needs of its file: the objects one behind the other, each number once, every entry of
the cross-reference table the offset of its object, every stream as long as its dictionary says.  Opening the file and
writing to it succeed; a number printed is below the width of its buffer, an offset below ten trillion.
-/
namespace Prose
namespace Writer

open List

/-! ## Text -/

def latin1 (s : String) : List UInt8 := s.toList.map (fun c => UInt8.ofNat c.toNat)

/-- `BString << int32`, of a number not negative. -/
def dec (n : Nat) : List UInt8 := latin1 (toString n)

/-- `"%010lld"`. -/
def dec10 (n : Nat) : List UInt8 := (dec n).leftpad 10 48

def roundHalfEven (q : Rat) : Nat :=
  let n := (⌊q⌋).toNat
  let r := q - n
  if r < 1 / 2 then n else if 1 / 2 < r then n + 1 else if n % 2 = 0 then n else n + 1

/-- `"%.0f"` and `"%.1f"`. -/
def fixed (places : Nat) (q : Rat) : List UInt8 :=
  let n := roundHalfEven (|q| * 10 ^ places)
  (if q < 0 then latin1 "-" else []) ++ dec (n / 10 ^ places) ++
    (if places = 0 then [] else latin1 "." ++ (dec (n % 10 ^ places)).leftpad places 48)

/-- `roundf`: halves away from zero. -/
def roundf (q : Rat) : Int := if q < 0 then -⌊-q + 1 / 2⌋ else ⌊q + 1 / 2⌋

/-- `PdfNum`; `0.01f` is the float next to a hundredth. -/
def pdfNum (f : Rat) : List UInt8 := if |f - roundf f| < 10737418 / 1073741824 then fixed 0 f else fixed 1 f

/-! ## The pages -/

/-- A page as it is rendered: a `B_RGB32` bitmap. -/
structure PageBitmap where
  width : Nat
  height : Nat
  bytesPerRow : Nat
  bits : List UInt8

structure PageBits where
  flate : List UInt8
  width : Nat
  height : Nat

def PageBitmap.rgb (bmp : PageBitmap) : List UInt8 :=
  (List.range bmp.height).flatMap (fun y => (List.range bmp.width).flatMap (fun x =>
    [2, 1, 0].map (fun c => bmp.bits.getD (y * bmp.bytesPerRow + x * 4 + c) 0)))

section
variable (render : Nat → Rat → Option PageBitmap) (compress : List UInt8 → Option (List UInt8))

/-- `FlateRGB`. -/
def flateRGB (bmp : PageBitmap) : Option (List UInt8) := compress bmp.rgb

/-- Page `p` rendered and compressed. -/
def pageBits (dpiScale : Rat) (p : Nat) : Option PageBits := do
  let bmp ← render p dpiScale
  let flate ← flateRGB compress bmp
  return { flate := flate, width := bmp.width, height := bmp.height }

/-! ## The file -/

/-- The ids of the pages from `p` on, a blank between them. -/
def kids (pages : Nat) : List UInt8 :=
  (List.range pages).flatMap (fun p => (if p > 0 then latin1 " " else []) ++ dec (3 + 3 * p) ++ latin1 " 0 R")

def writePage (pageWidth pageHeight : Rat) (s : Sink) (p : Nat) (pb : PageBits) : Sink :=
  let pageId := 3 + 3 * p
  let contentId := pageId + 1
  let imageId := pageId + 2
  let s := (s.mark pageId).write (dec pageId ++ latin1 " 0 obj\n<< /Type /Page /Parent 2 0 R\n" ++
    latin1 "  /MediaBox [0 0 " ++ pdfNum pageWidth ++ latin1 " " ++ pdfNum pageHeight ++ latin1 "]\n" ++
    latin1 "  /Resources << /XObject << /Im0 " ++ dec imageId ++ latin1 " 0 R >> >>\n" ++
    latin1 "  /Contents " ++ dec contentId ++ latin1 " 0 R >>\nendobj\n")
  let content := latin1 "q\n" ++ pdfNum pageWidth ++ latin1 " 0 0 " ++ pdfNum pageHeight ++
    latin1 " 0 0 cm\n/Im0 Do\nQ\n"
  let s := (s.mark contentId).write (dec contentId ++ latin1 " 0 obj\n<< /Length " ++ dec content.length ++
    latin1 " >>\nstream\n" ++ content ++ latin1 "endstream\nendobj\n")
  let s := (s.mark imageId).write (dec imageId ++ latin1 " 0 obj\n<< /Type /XObject /Subtype /Image" ++
    latin1 " /Width " ++ dec pb.width ++ latin1 " /Height " ++ dec pb.height ++
    latin1 " /ColorSpace /DeviceRGB /BitsPerComponent 8" ++ latin1 " /Filter /FlateDecode /Length " ++
    dec pb.flate.length ++ latin1 " >>\nstream\n")
  let s := s.write pb.flate
  s.write (latin1 "\nendstream\nendobj\n")

/-- The pages from `p` on. -/
def writePages (pageWidth pageHeight : Rat) : Sink → Nat → List PageBits → Sink
  | s, _, []       => s
  | s, p, pb :: pbs => writePages pageWidth pageHeight (writePage pageWidth pageHeight s p pb) (p + 1) pbs

def xrefLine (offset : Nat) : List UInt8 := dec10 offset ++ latin1 " 00000 n \n"

def writeXref (s : Sink) : Sink :=
  let xrefAt := s.pos
  let count := s.offsets.length
  s.write (latin1 "xref\n0 " ++ dec (count + 1) ++ latin1 "\n0000000000 65535 f \n" ++
    (s.offsets.map xrefLine).flatten ++
    latin1 "trailer\n<< /Size " ++ dec (count + 1) ++ latin1 " /Root 1 0 R >>\nstartxref\n" ++ dec xrefAt ++
    latin1 "\n%%EOF\n")

/-- `PW_WritePDF`: the bytes of the file, or none when it fails. -/
def writePDF (pages : Int) (pageWidth pageHeight : Rat) (path : List UInt8) (dpiScale : Rat) : Option (List UInt8) := do
  if path = [] ∨ dpiScale ≤ 0 ∨ pages < 1 then none
  else
    let s := ({} : Sink).write (latin1 "%PDF-1.4\n%âãÏÓ\n")
    let pageBits ← (List.range pages.toNat).mapM (pageBits render compress dpiScale)
    let s := (s.mark 1).write (latin1 "1 0 obj\n<< /Type /Catalog /Pages 2 0 R >>\nendobj\n")
    let s := (s.mark 2).write (latin1 "2 0 obj\n<< /Type /Pages /Kids [" ++ kids pages.toNat ++ latin1 "] /Count " ++
      dec pages.toNat ++ latin1 " >>\nendobj\n")
    return (writeXref (writePages pageWidth pageHeight s 0 pageBits)).out

end

/-! ## What a reader needs -/

/-- An object: its number, its dictionary, and the bytes and the end-of-line marker of its stream. -/
structure PdfObject where
  number : Nat
  dict : List UInt8
  stream : Option (List UInt8 × List UInt8) := none

def PdfObject.text (o : PdfObject) : List UInt8 :=
  dec o.number ++ latin1 " 0 obj\n" ++ o.dict ++
    match o.stream with
    | none => latin1 "\nendobj\n"
    | some (data, eol) => latin1 "\nstream\n" ++ data ++ eol ++ latin1 "endstream\nendobj\n"

/-- The dictionary gives the length of the stream, not counting an end-of-line marker before `endstream`. -/
def PdfObject.LengthOk (o : PdfObject) : Prop :=
  ∀ data eol, o.stream = some (data, eol) →
    (latin1 "/Length " ++ dec data.length ++ latin1 " >>") <:+ o.dict ∧ (eol = [] ∨ eol = latin1 "\n")

/-- `text` stands at `offset`. -/
def StandsAt (file : List UInt8) (offset : Nat) (text : List UInt8) : Prop := text <+: file.drop offset

/-- A file of objects numbered from 1, one behind the other, with its cross-reference table at `xrefAt`. -/
structure PdfFile (file : List UInt8) (objects : List PdfObject) (offsets : List Nat) (xrefAt : Nat) : Prop where
  layout : ∃ head, file.take xrefAt = head ++ (objects.map PdfObject.text).flatten
  numbers : objects.map PdfObject.number = List.range' 1 objects.length
  length : offsets.length = objects.length
  entries : ∀ (i : Nat) (offset : Nat), offsets[i]? = some offset →
    ∃ o ∈ objects, o.number = i + 1 ∧ StandsAt file offset o.text
  xref : file.drop xrefAt = latin1 "xref\n0 " ++ dec (offsets.length + 1) ++ latin1 "\n0000000000 65535 f \n" ++
    (offsets.map xrefLine).flatten ++ latin1 "trailer\n<< /Size " ++ dec (offsets.length + 1) ++
    latin1 " /Root 1 0 R >>\nstartxref\n" ++ dec xrefAt ++ latin1 "\n%%EOF\n"
  streams : ∀ o ∈ objects, o.LengthOk

/-! ## The objects written -/

def pageContent (pageWidth pageHeight : Rat) : List UInt8 :=
  latin1 "q\n" ++ pdfNum pageWidth ++ latin1 " 0 0 " ++ pdfNum pageHeight ++ latin1 " 0 0 cm\n/Im0 Do\nQ\n"

def pageObject (pageWidth pageHeight : Rat) (p : Nat) : PdfObject where
  number := 3 + 3 * p
  dict := latin1 "<< /Type /Page /Parent 2 0 R\n" ++ latin1 "  /MediaBox [0 0 " ++ pdfNum pageWidth ++ latin1 " " ++
    pdfNum pageHeight ++ latin1 "]\n" ++ latin1 "  /Resources << /XObject << /Im0 " ++ dec (3 + 3 * p + 2) ++
    latin1 " 0 R >> >>\n" ++ latin1 "  /Contents " ++ dec (3 + 3 * p + 1) ++ latin1 " 0 R >>"

def contentObject (pageWidth pageHeight : Rat) (p : Nat) : PdfObject where
  number := 3 + 3 * p + 1
  dict := latin1 "<< " ++ (latin1 "/Length " ++ dec (pageContent pageWidth pageHeight).length ++ latin1 " >>")
  stream := some (pageContent pageWidth pageHeight, [])

def imageObject (p : Nat) (pb : PageBits) : PdfObject where
  number := 3 + 3 * p + 2
  dict := latin1 "<< /Type /XObject /Subtype /Image" ++ latin1 " /Width " ++ dec pb.width ++ latin1 " /Height " ++
    dec pb.height ++ latin1 " /ColorSpace /DeviceRGB /BitsPerComponent 8" ++ latin1 " /Filter /FlateDecode " ++
    (latin1 "/Length " ++ dec pb.flate.length ++ latin1 " >>")
  stream := some (pb.flate, latin1 "\n")

def pageObjects (pageWidth pageHeight : Rat) (p : Nat) (pb : PageBits) : List PdfObject :=
  [pageObject pageWidth pageHeight p, contentObject pageWidth pageHeight p, imageObject p pb]

def pagesObjects (pageWidth pageHeight : Rat) : Nat → List PageBits → List PdfObject
  | _, []       => []
  | p, pb :: pbs => pageObjects pageWidth pageHeight p pb ++ pagesObjects pageWidth pageHeight (p + 1) pbs

def rootObjects (pages : Nat) : List PdfObject :=
  [{ number := 1, dict := latin1 "<< /Type /Catalog /Pages 2 0 R >>" },
   { number := 2, dict := latin1 "<< /Type /Pages /Kids [" ++ kids pages ++ latin1 "] /Count " ++ dec pages ++ latin1 " >>" }]

open Sink

def Written (s : Sink) (objects : List PdfObject) : Prop := s.Holds (latin1 "%PDF-1.4\n%âãÏÓ\n") (objects.map PdfObject.text)

theorem Written.object {s : Sink} {objects : List PdfObject} (h : Written s objects) (o : PdfObject)
    (hid : o.number = objects.length + 1) (text : List UInt8) (ht : text = o.text) :
    Written ((s.mark o.number).write text) (objects ++ [o]) := by
  unfold Written
  rw [map_append, ht]
  exact h.part (by rw [length_map]; exact hid) o.text

theorem written_rootObjects (pages : Nat) : Written
    (((((({} : Sink).write (latin1 "%PDF-1.4\n%âãÏÓ\n")).mark 1).write
      (latin1 "1 0 obj\n<< /Type /Catalog /Pages 2 0 R >>\nendobj\n")).mark 2).write
      (latin1 "2 0 obj\n<< /Type /Pages /Kids [" ++ kids pages ++ latin1 "] /Count " ++ dec pages ++
        latin1 " >>\nendobj\n")) (rootObjects pages) := by
  have h0 : Written (({} : Sink).write (latin1 "%PDF-1.4\n%âãÏÓ\n")) [] := holds_head _
  have h1 := h0.object { number := 1, dict := latin1 "<< /Type /Catalog /Pages 2 0 R >>" } rfl
    (latin1 "1 0 obj\n<< /Type /Catalog /Pages 2 0 R >>\nendobj\n") (by decide)
  refine h1.object { number := 2, dict := _ } rfl _ ?_
  unfold PdfObject.text
  rw [show latin1 "2 0 obj\n<< /Type /Pages /Kids [" = dec 2 ++ latin1 " 0 obj\n" ++ latin1 "<< /Type /Pages /Kids [" from by decide,
    show latin1 " >>\nendobj\n" = latin1 " >>" ++ latin1 "\nendobj\n" from by decide]
  simp only [append_assoc]

theorem pageObject_text (pageWidth pageHeight : Rat) (p : Nat) : dec (3 + 3 * p) ++
    latin1 " 0 obj\n<< /Type /Page /Parent 2 0 R\n" ++ latin1 "  /MediaBox [0 0 " ++ pdfNum pageWidth ++ latin1 " " ++
    pdfNum pageHeight ++ latin1 "]\n" ++ latin1 "  /Resources << /XObject << /Im0 " ++ dec (3 + 3 * p + 2) ++
    latin1 " 0 R >> >>\n" ++ latin1 "  /Contents " ++ dec (3 + 3 * p + 1) ++ latin1 " 0 R >>\nendobj\n" =
    (pageObject pageWidth pageHeight p).text := by
  unfold PdfObject.text pageObject
  rw [show latin1 " 0 obj\n<< /Type /Page /Parent 2 0 R\n" = latin1 " 0 obj\n" ++ latin1 "<< /Type /Page /Parent 2 0 R\n"
    from by decide, show latin1 " 0 R >>\nendobj\n" = latin1 " 0 R >>" ++ latin1 "\nendobj\n" from by decide]
  simp only [append_assoc]

theorem contentObject_text (pageWidth pageHeight : Rat) (p : Nat) : dec (3 + 3 * p + 1) ++
    latin1 " 0 obj\n<< /Length " ++ dec (pageContent pageWidth pageHeight).length ++ latin1 " >>\nstream\n" ++
    pageContent pageWidth pageHeight ++ latin1 "endstream\nendobj\n" = (contentObject pageWidth pageHeight p).text := by
  unfold PdfObject.text contentObject
  rw [show latin1 " 0 obj\n<< /Length " = latin1 " 0 obj\n" ++ latin1 "<< " ++ latin1 "/Length " from by decide,
    show latin1 " >>\nstream\n" = latin1 " >>" ++ latin1 "\nstream\n" from by decide]
  simp only [append_assoc, nil_append]

theorem imageObject_text (p : Nat) (pb : PageBits) : dec (3 + 3 * p + 2) ++
    latin1 " 0 obj\n<< /Type /XObject /Subtype /Image" ++ latin1 " /Width " ++ dec pb.width ++ latin1 " /Height " ++
    dec pb.height ++ latin1 " /ColorSpace /DeviceRGB /BitsPerComponent 8" ++ latin1 " /Filter /FlateDecode /Length " ++
    dec pb.flate.length ++ latin1 " >>\nstream\n" ++ (pb.flate ++ latin1 "\nendstream\nendobj\n") =
    (imageObject p pb).text := by
  unfold PdfObject.text imageObject
  rw [show latin1 " 0 obj\n<< /Type /XObject /Subtype /Image" =
      latin1 " 0 obj\n" ++ latin1 "<< /Type /XObject /Subtype /Image" from by decide,
    show latin1 " /Filter /FlateDecode /Length " = latin1 " /Filter /FlateDecode " ++ latin1 "/Length " from by decide,
    show latin1 " >>\nstream\n" = latin1 " >>" ++ latin1 "\nstream\n" from by decide,
    show latin1 "\nendstream\nendobj\n" = latin1 "\n" ++ latin1 "endstream\nendobj\n" from by decide]
  simp only [append_assoc]

theorem writePage_eq (pageWidth pageHeight : Rat) (s : Sink) (p : Nat) (pb : PageBits) :
    writePage pageWidth pageHeight s p pb =
      (((((s.mark (3 + 3 * p)).write (pageObject pageWidth pageHeight p).text).mark (3 + 3 * p + 1)).write
        (contentObject pageWidth pageHeight p).text).mark (3 + 3 * p + 2)).write (imageObject p pb).text := by
  rw [← pageObject_text, ← contentObject_text, ← imageObject_text, ← write_write, ← write_write]
  rfl

theorem written_writePage {s : Sink} {objects : List PdfObject} (h : Written s objects) {p : Nat}
    (hlen : objects.length = 2 + 3 * p) (pageWidth pageHeight : Rat) (pb : PageBits) :
    Written (writePage pageWidth pageHeight s p pb) (objects ++ pageObjects pageWidth pageHeight p pb) := by
  have h1 := h.object (pageObject pageWidth pageHeight p) (by rw [hlen]; show 3 + 3 * p = _; omega) _ rfl
  have h2 := h1.object (contentObject pageWidth pageHeight p)
    (by rw [length_append, hlen]; show 3 + 3 * p + 1 = 2 + 3 * p + 1 + 1; omega) _ rfl
  have h3 := h2.object (imageObject p pb)
    (by rw [length_append, length_append, hlen]; show 3 + 3 * p + 2 = 2 + 3 * p + 1 + 1 + 1; omega) _ rfl
  rw [append_assoc, append_assoc] at h3
  rw [writePage_eq]
  exact h3

theorem written_writePages (pageWidth pageHeight : Rat) : ∀ (pbs : List PageBits) {s : Sink} {objects : List PdfObject}
    {p : Nat}, Written s objects → objects.length = 2 + 3 * p →
    Written (writePages pageWidth pageHeight s p pbs) (objects ++ pagesObjects pageWidth pageHeight p pbs)
  | [], _, objects, _, h, _ => by
    rw [pagesObjects, append_nil]
    exact h
  | pb :: pbs, _, objects, p, h, hlen => by
    rw [pagesObjects, ← append_assoc]
    refine written_writePages pageWidth pageHeight pbs (written_writePage h hlen pageWidth pageHeight pb) ?_
    rw [length_append, hlen, pageObjects, length_cons, length_cons, length_singleton]
    omega

/-! ## The file is consistent -/

theorem numbers_pagesObjects (pageWidth pageHeight : Rat) : ∀ (pbs : List PageBits) (p : Nat),
    (pagesObjects pageWidth pageHeight p pbs).map PdfObject.number = List.range' (3 + 3 * p) (3 * pbs.length)
  | [], _ => rfl
  | pb :: pbs, p => by
    rw [pagesObjects, map_append, numbers_pagesObjects pageWidth pageHeight pbs (p + 1), length_cons,
      show 3 * (pbs.length + 1) = 3 + 3 * pbs.length by omega, ← List.range'_append_1]
    rfl

theorem numbers_objects (pages : Nat) (pageWidth pageHeight : Rat) (pbs : List PageBits) :
    (rootObjects pages ++ pagesObjects pageWidth pageHeight 0 pbs).map PdfObject.number =
      List.range' 1 (rootObjects pages ++ pagesObjects pageWidth pageHeight 0 pbs).length := by
  have hlen : (pagesObjects pageWidth pageHeight 0 pbs).length = 3 * pbs.length := by
    rw [← length_map PdfObject.number, numbers_pagesObjects, length_range']
  rw [map_append, numbers_pagesObjects, length_append, hlen, ← List.range'_append_1]
  rfl

theorem lengthOk_objects (pages : Nat) (pageWidth pageHeight : Rat) (pbs : List PageBits) :
    ∀ o ∈ rootObjects pages ++ pagesObjects pageWidth pageHeight 0 pbs, o.LengthOk := by
  have hpage : ∀ (p : Nat) (pb : PageBits), ∀ o ∈ pageObjects pageWidth pageHeight p pb, o.LengthOk := by
    rintro p pb o ho data eol hs
    rcases mem_cons.1 ho with rfl | ho
    · cases hs
    rcases mem_cons.1 ho with rfl | ho
    · cases hs
      exact ⟨suffix_append _ _, Or.inl rfl⟩
    · rw [mem_singleton.1 ho] at hs ⊢
      cases hs
      exact ⟨suffix_append _ _, Or.inr rfl⟩
  have hpages : ∀ (pbs : List PageBits) (p : Nat), ∀ o ∈ pagesObjects pageWidth pageHeight p pbs, o.LengthOk := by
    intro pbs
    induction pbs with
    | nil => exact fun _ _ ho => nomatch ho
    | cons pb pbs ih =>
      rintro p o ho
      rcases mem_append.1 ho with ho | ho
      · exact hpage p pb o ho
      · exact ih (p + 1) o ho
  rintro o ho data eol hs
  rcases mem_append.1 ho with ho | ho
  · rcases mem_cons.1 ho with rfl | ho
    · cases hs
    · rw [mem_singleton.1 ho] at hs
      cases hs
  · exact hpages pbs 0 o ho data eol hs

theorem take_writeXref {s : Sink} {objects : List PdfObject} (h : Written s objects) :
    (writeXref s).out.take s.pos = s.out := by
  show (s.out ++ _).take s.pos = _
  rw [h.pos, take_left]

/-- **Objects numbered and written in order make a consistent file.** -/
theorem pdfFile_writeXref {s : Sink} {objects : List PdfObject} (h : Written s objects)
    (hn : objects.map PdfObject.number = List.range' 1 objects.length) (hl : ∀ o ∈ objects, o.LengthOk) :
    PdfFile (writeXref s).out objects s.offsets s.pos where
  layout := by
    refine ⟨latin1 "%PDF-1.4\n%âãÏÓ\n", ?_⟩
    rw [take_writeXref h]
    exact h.out
  numbers := hn
  length := by rw [h.offsets, length_starts, length_map]
  entries i offset hi := by
    rw [h.offsets] at hi
    obtain ⟨text, ht, hle, hpre⟩ := getElem?_starts _ _
      ((writeXref s).out.drop s.pos) hi
    rw [getElem?_map, Option.map_eq_some_iff] at ht
    obtain ⟨o, ho, rfl⟩ := ht
    have hnum : (objects.map PdfObject.number)[i]? = some o.number := by rw [getElem?_map, ho]; rfl
    rw [hn, getElem?_range' (List.getElem?_eq_some_iff.1 ho).1] at hnum
    refine ⟨o, mem_of_getElem? ho, by have := Option.some.inj hnum; omega, ?_⟩
    have hout : (writeXref s).out = s.out ++ (writeXref s).out.drop s.pos := by
      conv => rhs; lhs; rw [← take_writeXref h]
      exact (take_append_drop _ _).symm
    unfold StandsAt
    rw [hout, h.out, append_assoc, ← Nat.add_sub_cancel' hle, ← drop_drop, drop_left]
    exact hpre
  xref := by
    show (s.out ++ _).drop s.pos = _
    rw [h.pos, drop_left, ← h.pos]
  streams := hl

end Writer
end Prose
