import Prose.WriterDoc
/-!
# WriterCalls — the calls made of other calls, and all of them as one step function

Search and replace, the table operations and the named styles of `PWDocument.cpp`; then `Edit`, every call that edits
the document, and `Call`, those with `Undo`, `Redo` and the settings.
-/
namespace Prose
namespace Writer

/-! ## Search -/

def foldChar (caseSensitive : Bool) (c : Byte) : UInt8 :=
  if caseSensitive then c.val else if c.val ≥ 65 ∧ c.val ≤ 90 then c.val + 32 else c.val

def matchAt (caseSensitive : Bool) : List Byte → List Byte → Bool
  | _, []           => true
  | [], _ :: _      => false
  | t :: ts, n :: ns => foldChar caseSensitive t = foldChar caseSensitive n && matchAt caseSensitive ts ns

def findFrom (needle : List Byte) (caseSensitive : Bool) : List Byte → Nat → Option Nat
  | [], _       => none
  | t :: ts, at' => if matchAt caseSensitive (t :: ts) needle then some at' else findFrom needle caseSensitive ts (at' + 1)

/-- `FindNext`; a match has the length of the needle. -/
def findNext (ps : List Para) (needle : List Byte) (fromOffset : Nat) (caseSensitive wrap : Bool) : Option Nat :=
  if needle = [] then none
  else match findFrom needle caseSensitive ((plainText ps).drop fromOffset) fromOffset with
    | some at' => some at'
    | none => if wrap ∧ fromOffset > 0 then findFrom needle caseSensitive (plainText ps) 0 else none

/-- The loop of `ReplaceAll`: the text behind `at` gets shorter with every turn. -/
def replaceLoop (find replace : List Byte) (caseSensitive : Bool) : Nat → PWDocument → Nat → Nat → PWDocument × Nat
  | 0, d, _, count => (d, count)
  | fuel + 1, d, at', count =>
    match findNext d.fParas find at' caseSensitive false with
    | none => (d, count)
    | some found =>
      replaceLoop find replace caseSensitive fuel ((d.remove found find.length).insert found replace none)
        (found + replace.length) (count + 1)

/-- `ReplaceAll`; no count for a needle that is empty or its own replacement. -/
def PWDocument.replaceAll (d : PWDocument) (find replace : List Byte) (caseSensitive : Bool) : PWDocument × Option Nat :=
  if find = [] ∨ find = replace then (d, none)
  else
    let r := replaceLoop find replace caseSensitive (docLength d.fParas + 1) d 0 0
    (r.1, some r.2)

/-! ## Tables

A table is a maximal run of paragraphs that hold a cell separator. -/

def Para.isRow (p : Para) : Bool := p.text.contains kCellSep

def isRow (ps : List Para) (i : Nat) : Bool := (ps[i]?).any Para.isRow

/-- The first row of the table around row `i`. -/
def tableFirst (ps : List Para) (i : Nat) : Nat := i - ((ps.take i).reverse.takeWhile Para.isRow).length

def tableLast (ps : List Para) (i : Nat) : Nat := i + ((ps.drop (i + 1)).takeWhile Para.isRow).length

def cellOffset : List Byte → Nat → Option Nat
  | _, 0           => some 0
  | [], _ + 1      => none
  | c :: cs, col + 1 => (cellOffset cs (if c = kCellSep then col else col + 1)).map (· + 1)

def cellStart (ps : List Para) (para col : Nat) : Option Nat :=
  (cellOffset (paraAt ps para).text col).map (paraStart ps para + ·)

def insertTableRows (headFmt : Option PWCharFormat) (row : List Byte) : Nat → PWDocument → Nat → PWDocument
  | 0, d, _          => d
  | 1, d, at'        => d.insert at' row headFmt
  | rows + 2, d, at' =>
    insertTableRows none row (rows + 1) ((d.insert at' row headFmt).splitPara (at' + row.length)) (at' + row.length + 1)

def PWDocument.insertTable (d : PWDocument) (offset rows cols : Nat) (header : Bool) : PWDocument :=
  if rows < 1 ∨ rows > 100 ∨ cols < 1 ∨ cols > 50 then d
  else
    insertTableRows (if header then some { d.formatAt offset with bold := true } else none)
      (List.replicate (cols - 1) kCellSep) rows d offset

/-- The table operations answer the document and the caret, or nothing where they refuse. -/
def PWDocument.insertTableRowAfter (d : PWDocument) (offset : Nat) : Option (PWDocument × Option Nat) :=
  let para := (locate d.fParas offset).1
  if !isRow d.fParas para then none
  else
    let at' := paraStart d.fParas para + (paraAt d.fParas para).text.length
    some ((d.splitPara at').insert (at' + 1)
      (List.replicate ((paraAt d.fParas para).text.count kCellSep) kCellSep) none, some (at' + 1))

def caretColumn (ps : List Para) (offset : Nat) : Nat :=
  ((paraAt ps (locate ps offset).1).text.take (locate ps offset).2).count kCellSep

def PWDocument.insertTableColumnAt (d : PWDocument) (offset : Nat) : Option (PWDocument × Option Nat) :=
  let para := (locate d.fParas offset).1
  if !isRow d.fParas para then none
  else
    let col := caretColumn d.fParas offset
    let rows := List.range' para (tableLast d.fParas para + 1 - para)
    let d' := rows.reverse.foldl (fun d p =>
      d.insert ((cellStart d.fParas p col).getD (paraStart d.fParas p + (paraAt d.fParas p).text.length)) [kCellSep]
        none) d
    some (d', cellStart d'.fParas para col)

def PWDocument.deleteTableRow (d : PWDocument) (offset : Nat) : Option (PWDocument × Option Nat) :=
  let ps := d.fParas
  let para := (locate ps offset).1
  if !isRow ps para then none
  else
    let before := decide (para ≥ 1) && isRow ps (para - 1)
    let behind := isRow ps (para + 1)
    let at' := paraStart ps para
    let len := (paraAt ps para).text.length
    if !before && !behind then some ((d.remove at' len).remove at' 1, some at')
    else if behind && !before then some (d.remove at' (len + 1), some at')
    else some (d.remove (at' - 1) (len + 1), some at')

def PWDocument.deleteTableColumnAt (d : PWDocument) (offset : Nat) : Option (PWDocument × Option Nat) :=
  let para := (locate d.fParas offset).1
  if !isRow d.fParas para then none
  else
    let col := caretColumn d.fParas offset
    let first := tableFirst d.fParas para
    let rows := List.range' first (tableLast d.fParas para + 1 - first)
    if (rows.map (fun p => (paraAt d.fParas p).text.count kCellSep + 1)).foldl max 1 ≤ 1 then none
    else
      let d' := rows.reverse.foldl (fun d p =>
        match cellStart d.fParas p col with
        | none => d
        | some start =>
          let stop := (cellStart d.fParas p (col + 1)).getD (paraStart d.fParas p + (paraAt d.fParas p).text.length)
          d.remove start (stop - start)) d
      some (d', some ((cellStart d'.fParas para col).getD offset))

/-! ## Named styles -/

def PWDocument.addStyle (d : PWDocument) (name : List Byte) (chr : PWCharFormat) (para : PWParaFormat) : PWDocument :=
  if d.fStyles.any (fun s => s.name = name) then
    { d with
      fStyles := d.fStyles.modify (d.fStyles.findIdx (fun s => s.name = name)) (fun s => { s with chr, para })
      fModified := true }
  else { d with fStyles := d.fStyles ++ [⟨name, chr, para⟩], fModified := true }

def PWDocument.removeStyle (d : PWDocument) (index : Nat) : PWDocument :=
  if index < d.fStyles.length then { d with fStyles := d.fStyles.eraseIdx index, fModified := true } else d

def setParaFormats (fmt : PWParaFormat) (d : PWDocument) (paras : List Nat) : PWDocument :=
  paras.foldl (fun d p => d.setParaFormat p fmt) d

def PWDocument.applyStyle (d : PWDocument) (offset length styleIndex : Nat) : Option PWDocument :=
  match d.fStyles[styleIndex]? with
  | none => some d
  | some s =>
    (if length > 0 then d.applyFormat offset length s.chr else some d).map (fun d =>
      let para := (locate d.fParas offset).1
      let lastPara := (locate d.fParas (offset + if length > 0 then length else 1)).1
      setParaFormats s.para d (List.range' para (lastPara + 1 - para)))

/-! ## The calls -/

inductive Edit
  | insert (offset : Nat) (text : List Byte) (fmt : Option PWCharFormat)
  | remove (offset length : Nat)
  | applyFormat (offset length : Nat) (fmt : PWCharFormat)
  | setParaFormat (para : Nat) (fmt : PWParaFormat)
  | splitPara (offset : Nat)
  | insertImage (offset : Nat) (bitmap : Option Bitmap) (widthPt heightPt : Rat)
  | replaceAll (find replace : List Byte) (caseSensitive : Bool)
  | applyStyle (offset length styleIndex : Nat)
  | insertTable (offset rows cols : Nat) (header : Bool)
  | insertTableRowAfter (offset : Nat)
  | insertTableColumnAt (offset : Nat)
  | deleteTableRow (offset : Nat)
  | deleteTableColumnAt (offset : Nat)

/-- What the call makes of the document; `none` when it does not return. -/
def PWDocument.edit (d : PWDocument) : Edit → Option PWDocument
  | .insert offset text fmt => some (d.insert offset text fmt)
  | .remove offset length => some (d.remove offset length)
  | .applyFormat offset length fmt => d.applyFormat offset length fmt
  | .setParaFormat para fmt => some (d.setParaFormat para fmt)
  | .splitPara offset => some (d.splitPara offset)
  | .insertImage offset bitmap w h => some (d.insertImage offset bitmap w h)
  | .replaceAll find replace cs => some (d.replaceAll find replace cs).1
  | .applyStyle offset length i => d.applyStyle offset length i
  | .insertTable offset rows cols header => some (d.insertTable offset rows cols header)
  | .insertTableRowAfter offset => some (((d.insertTableRowAfter offset).map Prod.fst).getD d)
  | .insertTableColumnAt offset => some (((d.insertTableColumnAt offset).map Prod.fst).getD d)
  | .deleteTableRow offset => some (((d.deleteTableRow offset).map Prod.fst).getD d)
  | .deleteTableColumnAt offset => some (((d.deleteTableColumnAt offset).map Prod.fst).getD d)

inductive EditRun (ok : PWDocument → Edit → Prop) : PWDocument → List Edit → PWDocument → Prop
  | nil (d : PWDocument) : EditRun ok d [] d
  | cons {d d₁ d' : PWDocument} {e : Edit} {es : List Edit} : ok d e → d.edit e = some d₁ → EditRun ok d₁ es d' →
      EditRun ok d (e :: es) d'

inductive Call
  | edit (e : Edit)
  | undo
  | redo
  | setUndoCoalescing (on : Bool)
  | addStyle (name : List Byte) (chr : PWCharFormat) (para : PWParaFormat)
  | removeStyle (index : Nat)
  | clearStyles
  | setHeaderText (text : List Byte)
  | setFooterText (text : List Byte)
  | setDefaultFormat (fmt : PWCharFormat)
  | savedClean

def PWDocument.call (d : PWDocument) : Call → Option PWDocument
  | .edit e => d.edit e
  | .undo => d.undo
  | .redo => d.redo
  | .setUndoCoalescing on => some { d with fCoalesce := on }
  | .addStyle name chr para => some (d.addStyle name chr para)
  | .removeStyle i => some (d.removeStyle i)
  | .clearStyles => some { d with fStyles := [] }
  | .setHeaderText text => some { d with fHeader := text, fModified := true }
  | .setFooterText text => some { d with fFooter := text, fModified := true }
  | .setDefaultFormat fmt => some { d with fDefault := fmt }
  | .savedClean => some { d with fModified := false }

/-! What the examples write with. -/

def noFamily : FontFamily := ⟨[], by decide⟩

def byteA : Byte := ⟨97, by decide⟩
def byteB : Byte := ⟨98, by decide⟩
def byteSpace : Byte := ⟨32, by decide⟩

end Writer
end Prose
