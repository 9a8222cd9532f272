import Mathlib.Algebra.GroupWithZero.Nat
import Prose.WriterRuns
/-!
# WriterDoc — `PWDocument.cpp`, the editing surface

Every public edit of the document, `Undo` and `Redo`, translated function by function.  An offset counts the bytes of the
paragraphs before it and one byte for each of their separators.  A call that never returns is `none`: `CaptureRuns`
spins when its range runs past the document (`captureFrom`), and with it every call that reaches it.
-/
namespace Prose
namespace Writer

open Splice

/-! ## Addresses -/

/-- `Locate`.  The offset of a separator is the end of its paragraph; past the end is the end of the last one. -/
def locate : List Para → Nat → Nat × Nat
  | [], _ => (0, 0)
  | [p], offset => (0, min offset p.text.length)
  | p :: q :: ps, offset =>
    if offset ≤ p.text.length then (0, offset)
    else ((locate (q :: ps) (offset - (p.text.length + 1))).1 + 1, (locate (q :: ps) (offset - (p.text.length + 1))).2)

def paraAt (ps : List Para) (i : Nat) : Para := ps.getD i { runs := [] }

def byteSpan (ps : List Para) : Nat := (ps.map (fun p => p.text.length + 1)).sum

def paraStart (ps : List Para) (i : Nat) : Nat := byteSpan (ps.take i)

/-- `Length`: no separator after the last paragraph. -/
def docLength (ps : List Para) : Nat := byteSpan ps - 1

def isSeparatorOffset (ps : List Para) (offset : Nat) : Bool :=
  (locate ps offset).2 = (paraAt ps (locate ps offset).1).text.length ∧ (locate ps offset).1 + 1 < ps.length

def plainText (ps : List Para) : List Byte := [newline].intercalate (ps.map (·.text))

def getText : List Para → Nat → Nat → List Byte
  | [], _, _ => []
  | p :: ps, offset, length =>
    if length = 0 then []
    else if p.text.length < offset then getText ps (offset - (p.text.length + 1)) length
    else
      let piece := (p.text.drop offset).take length
      if length = piece.length ∨ ps = [] then piece
      else piece ++ newline :: getText ps 0 (length - piece.length - 1)

/-! ## Formats at an offset -/

/-- `FormatAt`, within the paragraph. -/
def Para.formatAt (dflt : PWCharFormat) (p : Para) (inPara : Nat) : PWCharFormat :=
  match p.runs.find? (fun r => decide ((inPara : Int) ≥ r.start ∧ (inPara : Int) < r.rEnd)) with
  | some r => r.format
  | none => match p.runs.reverse.find? (fun r => decide (r.rEnd ≤ (inPara : Int) ∧ r.length > 0)) with
    | some r => r.format
    | none => match p.runs with
      | []     => dflt
      | r :: _ => r.format

def PWDocument.formatAt (d : PWDocument) (offset : Nat) : PWCharFormat :=
  (paraAt d.fParas (locate d.fParas offset).1).formatAt d.fDefault (locate d.fParas offset).2

/-- `FormatForInsert`: typing continues the style of the byte before. -/
def Para.formatForInsert (dflt : PWCharFormat) (p : Para) (inPara : Nat) : PWCharFormat :=
  match p.runs.reverse.find? (fun r => decide (r.length > 0 ∧ (inPara : Int) > r.start ∧ (inPara : Int) ≤ r.rEnd)) with
  | some r => r.format
  | none => match p.runs with
    | []     => dflt
    | r :: _ => r.format

/-! ## The undo stack -/

/-- `PushUndo`.  Edits made by `Undo` and `Redo` are invisible. -/
def PWDocument.pushUndo (d : PWDocument) (s : UndoStep) : PWDocument :=
  if d.fInternalEdit then { d with fModified := true }
  else
    { d with
      fModified := true
      fUndo := if (s :: d.fUndo).length > 512 then (s :: d.fUndo).dropLast else s :: d.fUndo
      fRedo := [] }

def PWDocument.canUndo (d : PWDocument) : Bool := !d.fUndo.isEmpty
def PWDocument.canRedo (d : PWDocument) : Bool := !d.fRedo.isEmpty

/-- `IsSingleUTF8Char`: the length its first byte announces is the length of the string. -/
def isSingleUTF8Char : List Byte → Bool
  | []     => false
  | c :: s =>
    let step := if c.val &&& 0xE0 = 0xC0 then 2 else if c.val &&& 0xF0 = 0xE0 then 3
      else if c.val &&& 0xF8 = 0xF0 then 4 else 1
    (c :: s).length = step

/-! ## `Insert` and `SplitPara` -/

/-- The paragraph half of `Insert`: runs, text, and the images at or behind the insertion point. -/
def Para.insertText (dflt : PWCharFormat) (p : Para) (inPara : Nat) (text : List Byte) (f : PWCharFormat) : Para :=
  { p with
    runs := normalizeRuns dflt (p.text.length + text.length) (insertRuns inPara text.length f p.runs)
    text := insertAt inPara text p.text
    images := SortedMap.put (fun k => some (if k ≥ inPara then k + text.length else k)) p.images SortedMap.empty
    revision := p.revision + 1 }

def insertParas (dflt : PWCharFormat) (ps : List Para) (offset : Nat) (text : List Byte) (fmt : Option PWCharFormat) :
    List Para :=
  ps.modify (locate ps offset).1 (fun p =>
    p.insertText dflt (locate ps offset).2 text (fmt.getD (p.formatForInsert dflt (locate ps offset).2)))

def coalesces (d : PWDocument) (offset : Nat) (text : List Byte) : Bool :=
  match d.fUndo with
  | []       => false
  | top :: _ => d.fCoalesce && top.kind = .insert && top.coalesce && top.offset + top.length = offset &&
      isSingleUTF8Char text

/-- `Insert` of a text without newlines. -/
def PWDocument.insertLine (d : PWDocument) (offset : Nat) (text : List Byte) (fmt : Option PWCharFormat) : PWDocument :=
  let d' := { d with fParas := insertParas d.fDefault d.fParas offset text fmt }
  if coalesces d offset text then
    { d' with
      fUndo := d.fUndo.modifyHead (fun top =>
        { top with length := top.length + text.length, text := top.text ++ text })
      fModified := true }
  else
    d'.pushUndo
      { kind := .insert, offset := offset, length := text.length, text := text, coalesce := d.fCoalesce }

def Para.splitHead (dflt : PWCharFormat) (p : Para) (inPara : Nat) : Para :=
  { p with
    runs := normalizeRuns dflt inPara (headRuns inPara p.runs)
    text := p.text.take inPara
    images := p.images.filter (fun k => decide (k < inPara))
    revision := p.revision + 1 }

def Para.splitTail (dflt : PWCharFormat) (p : Para) (inPara id : Nat) : Para :=
  { runs := normalizeRuns dflt (p.text.length - inPara) (tailRuns inPara p.runs)
    text := p.text.drop inPara
    format := p.format
    images := SortedMap.put (fun k => if k ≥ inPara then some (k - inPara) else none) p.images SortedMap.empty
    id := id }

def splitParas (dflt : PWCharFormat) (ps : List Para) (offset id : Nat) : List Para :=
  match ps.drop (locate ps offset).1 with
  | [] => ps
  | p :: post => ps.take (locate ps offset).1 ++
      p.splitHead dflt (locate ps offset).2 :: p.splitTail dflt (locate ps offset).2 id :: post

def PWDocument.splitPara (d : PWDocument) (offset : Nat) : PWDocument :=
  { d with fParas := splitParas d.fDefault d.fParas offset d.fNextParaId, fNextParaId := d.fNextParaId + 1 }.pushUndo
    { kind := .insert, offset := offset, length := 1, text := [newline], coalesce := false }

def lines : List Byte → List (List Byte)
  | []     => [[]]
  | c :: s =>
    if c = newline then [] :: lines s
    else match lines s with
      | []      => [[c]]
      | l :: ls => (c :: l) :: ls

def PWDocument.insertSegment (d : PWDocument) (offset : Nat) (seg : List Byte) (fmt : Option PWCharFormat) : PWDocument :=
  if seg = [] then d else d.insertLine offset seg fmt

/-- `Insert` of several lines: each piece, and a split between two of them. -/
def insertLines (fmt : Option PWCharFormat) : PWDocument → Nat → List (List Byte) → PWDocument
  | d, _, []         => d
  | d, at', seg :: ls => match ls with
    | []     => d.insertSegment at' seg fmt
    | _ :: _ => insertLines fmt ((d.insertSegment at' seg fmt).splitPara (at' + seg.length)) (at' + seg.length + 1) ls

def PWDocument.insert (d : PWDocument) (offset : Nat) (text : List Byte) (fmt : Option PWCharFormat) : PWDocument :=
  if text = [] then d
  else if newline ∈ text then insertLines fmt d offset (lines text)
  else d.insertLine offset text fmt

/-! ## `CaptureRuns` and `Remove` -/

def capturePieces (inPara take rel : Nat) (r : PWRun) : List PWRun :=
  let first := max (inPara : Int) r.start
  let stop := min ((inPara : Int) + take) r.rEnd
  if stop > first then [⟨rel + (first - inPara), stop - first, r.format⟩] else []

/-- The loop of `CaptureRuns` from the paragraph it stands in, `left` bytes before the end of its range.  In the last
paragraph a range that goes on is never used up: `take` is 0 from then on and the loop spins. -/
def captureFrom : List Para → Nat → Nat → Nat → Option (List PWRun)
  | [], _, _, _ => some []
  | p :: ps, inPara, rel, left =>
    if left = 0 then some []
    else if inPara + left > p.text.length then
      match ps with
      | []     => none
      | _ :: _ =>
        let take := p.text.length - inPara
        (captureFrom ps 0 (rel + take + 1) (left - (take + 1))).map
          (fun saved => p.runs.flatMap (capturePieces inPara take rel) ++ saved)
    else some (p.runs.flatMap (capturePieces inPara left rel))

/-- `CaptureRuns`: the runs over `[offset, offset + length)`, starts relative to `offset`. -/
def captureRuns (ps : List Para) (offset length : Nat) : Option (List PWRun) :=
  captureFrom (ps.drop (locate ps offset).1) (locate ps offset).2 0 length

/-- `Remove`: the bytes `[inPara, inPara + take)` go, the images behind them shift. -/
def Para.eraseText (dflt : PWCharFormat) (p : Para) (inPara take : Nat) : Para :=
  { p with
    runs := normalizeRuns dflt (p.text.length - take) (eraseRuns inPara take p.runs)
    text := cut inPara (inPara + take) p.text
    images := SortedMap.put
      (fun k => if k < inPara then some k else if k ≥ inPara + take then some (k - take) else none) p.images
      SortedMap.empty
    revision := p.revision + 1 }

/-- The images of the hole, keyed by the paragraph's start plus their key. -/
def Para.saveImages (p : Para) (inPara take paraBase : Nat) (saved : ImageTable) : ImageTable :=
  SortedMap.put (fun k => if k < inPara then none else if k ≥ inPara + take then none else some (paraBase + k))
    p.images saved

/-- `Remove`: the separator is swallowed and the next paragraph merged in. -/
def Para.mergeNext (p next : Para) : Para :=
  { p with
    runs := p.runs ++ shiftRuns p.text.length next.runs
    text := p.text ++ next.text
    images := SortedMap.put (fun k => some (k + p.text.length)) next.images p.images
    revision := p.revision + 1 }

/-- The loop of `Remove`, `left` bytes before the end of its range, in the paragraph `p` with `rest` behind it. -/
def removeLoop (dflt : PWCharFormat) (paraBase inPara : Nat) :
    List Para → Para → Nat → ImageTable → (Para × List Para) × ImageTable
  | rest, p, left, saved =>
    if left = 0 then ((p, rest), saved)
    else
      let crosses := inPara + left > p.text.length
      let take := if crosses then p.text.length - inPara else left
      let p' := if take > 0 then p.eraseText dflt inPara take else p
      let saved' := if take > 0 then p.saveImages inPara take paraBase saved else saved
      match rest with
      | [] => ((p', []), saved')
      | next :: rest' =>
        if crosses then removeLoop dflt paraBase inPara rest' (p'.mergeNext next) (left - (take + 1)) saved'
        else ((p', rest), saved')

def removeParas (dflt : PWCharFormat) (ps : List Para) (offset length : Nat) : List Para × ImageTable :=
  match ps.drop (locate ps offset).1 with
  | [] => (ps, SortedMap.empty)
  | p :: rest =>
    let r := removeLoop dflt (paraStart ps (locate ps offset).1) (locate ps offset).2 rest p length SortedMap.empty
    (ps.take (locate ps offset).1 ++ r.1.1 :: r.1.2, r.2)

/-- The length of a `Remove` clipped at the end of the document. -/
def clipLength (ps : List Para) (offset length : Nat) : Nat :=
  if offset + length > docLength ps then docLength ps - offset else length

/-- `Remove`.  The clipped range lies in the document, where `CaptureRuns` returns. -/
def PWDocument.remove (d : PWDocument) (offset length : Nat) : PWDocument :=
  if length = 0 ∨ offset ≥ docLength d.fParas then d
  else
    let length := clipLength d.fParas offset length
    let r := removeParas d.fDefault d.fParas offset length
    { d with fParas := r.1 }.pushUndo
      { kind := .remove, offset := offset, length := length, text := getText d.fParas offset length
        runs := (captureRuns d.fParas offset length).getD [], images := r.2 }

/-! ## `ApplyFormat` and `SetParaFormat` -/

def Para.restyle (dflt : PWCharFormat) (p : Para) (inPara take : Nat) (fmt : PWCharFormat) : Para :=
  { p with
    runs := normalizeRuns dflt p.text.length (styleRuns inPara take fmt p.runs)
    revision := p.revision + 1 }

/-- The loop of `ApplyFormat`; it advances by a byte at least, so `stop - at` turns are enough. -/
def formatLoop (dflt fmt : PWCharFormat) : Nat → List Para → Nat → Nat → List Para
  | 0, ps, _, _ => ps
  | fuel + 1, ps, at', stop =>
    if at' < stop then
      let p := paraAt ps (locate ps at').1
      let inPara := (locate ps at').2
      let avail := if isSeparatorOffset ps at' then 0 else p.text.length - inPara
      if avail = 0 then formatLoop dflt fmt fuel ps (at' + 1) stop
      else
        let take := if stop - at' > avail then avail else stop - at'
        formatLoop dflt fmt fuel (ps.modify (locate ps at').1 (fun p => p.restyle dflt inPara take fmt)) (at' + take)
          stop
    else ps

def PWDocument.applyFormat (d : PWDocument) (offset length : Nat) (fmt : PWCharFormat) : Option PWDocument :=
  if length = 0 then some d
  else
    (captureRuns d.fParas offset length).map (fun savedRuns =>
      { d with fParas := formatLoop d.fDefault fmt length d.fParas offset (offset + length) }.pushUndo
        { kind := .format, offset := offset, length := length, runs := savedRuns })

def setFormatParas (ps : List Para) (para : Nat) (fmt : PWParaFormat) : List Para :=
  ps.modify para (fun p => { p with format := fmt, revision := p.revision + 1 })

def PWDocument.setParaFormat (d : PWDocument) (para : Nat) (fmt : PWParaFormat) : PWDocument :=
  if para ≥ d.fParas.length then d
  else
    { d with fParas := setFormatParas d.fParas para fmt }.pushUndo
      { kind := .paraformat, offset := para, paraFormat := (paraAt d.fParas para).format }

/-! ## `Undo` and `Redo` -/

def applyRuns (offset : Nat) : List PWRun → PWDocument → Option PWDocument
  | [], d      => some d
  | r :: rs, d =>
    if r.length > 0 then
      (d.applyFormat (offset + r.start).toNat r.length.toNat r.format).bind (applyRuns offset rs)
    else applyRuns offset rs d

def placeImage (ps : List Para) (offset : Nat) (img : PWImage) : List Para :=
  ps.modify (locate ps offset).1 (fun p =>
    { p with images := p.images.set (locate ps offset).2 img, revision := p.revision + 1 })

def placeImages (images : ImageTable) (ps : List Para) : List Para :=
  images.entries.foldl (fun ps e => placeImage ps e.1.toNat e.2) ps

/-- The switch of `Undo`, on a document whose flags are set for an internal edit. -/
def PWDocument.undoStep (d : PWDocument) (s : UndoStep) : Option PWDocument :=
  match s.kind with
  | .insert => some (d.remove s.offset s.length)
  | .remove =>
    let d' := d.insert s.offset s.text none
    (d'.applyFormat s.offset s.length (d'.formatAt s.offset)).bind (fun d' =>
      (applyRuns s.offset s.runs d').map (fun d' => { d' with fParas := placeImages s.images d'.fParas }))
  | .format =>
    (captureRuns d.fParas s.offset s.length).bind (fun cur =>
      applyRuns s.offset s.runs { d with fRedo := d.fRedo.modifyHead (fun r => { r with runs := cur }) })
  | .paraformat =>
    some (if s.offset < d.fParas.length then { d with fParas := setFormatParas d.fParas s.offset s.paraFormat } else d)

def PWDocument.undo (d : PWDocument) : Option PWDocument :=
  match d.fUndo with
  | [] => some d
  | s :: rest =>
    let d' := { d with fUndo := rest, fRedo := s :: d.fRedo, fCoalesce := false, fInternalEdit := true }
    (d'.undoStep s).map (fun d' =>
      { d' with
        fCoalesce := true
        fInternalEdit := false
        fUndo := d'.fUndo.drop (d'.fUndo.length - rest.length)
        fModified := true })

/-- The switch of `Redo`: the document and the step that goes back on the undo stack. -/
def PWDocument.redoStep (d : PWDocument) (s : UndoStep) : Option (PWDocument × UndoStep) :=
  match s.kind with
  | .insert => some (d.insert s.offset s.text none, s)
  | .remove => some (d.remove s.offset s.length, s)
  | .format =>
    (captureRuns d.fParas s.offset s.length).bind (fun cur =>
      (applyRuns s.offset s.runs d).map (fun d' => (d', { s with runs := cur })))
  | .paraformat =>
    some (if s.offset < d.fParas.length then
        ({ d with fParas := setFormatParas d.fParas s.offset s.paraFormat },
          { s with paraFormat := (paraAt d.fParas s.offset).format })
      else (d, s))

def PWDocument.redo (d : PWDocument) : Option PWDocument :=
  match d.fRedo with
  | [] => some d
  | s :: rest =>
    let depthBefore := d.fUndo.length
    let d' := { d with fRedo := rest, fCoalesce := false, fInternalEdit := true }
    (d'.redoStep s).map (fun (d', s') =>
      { d' with
        fCoalesce := true
        fInternalEdit := false
        fUndo := s' :: d'.fUndo.drop (d'.fUndo.length - depthBefore)
        fModified := true })

/-! ## Images -/

/-- `InsertImage`: the marker first, then the image at its offset. -/
def PWDocument.insertImage (d : PWDocument) (offset : Nat) (bitmap : Option Bitmap) (widthPt heightPt : Rat) :
    PWDocument :=
  match bitmap with
  | none => d
  | some b =>
    let d' := d.insert offset kObjectChar none
    { d' with fParas := d'.fParas.modify (locate d.fParas offset).1 (fun p =>
        { p with
          images := p.images.set (locate d.fParas offset).2 ⟨some b, widthPt, heightPt⟩
          revision := p.revision + 1 }) }

def PWDocument.imageAt (d : PWDocument) (offset : Nat) : Option PWImage :=
  (paraAt d.fParas (locate d.fParas offset).1).images.get? (locate d.fParas offset).2

end Writer
end Prose
