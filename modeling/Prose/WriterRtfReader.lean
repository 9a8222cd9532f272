import Prose.Scan
import Prose.WriterRtf
/-!
# WriterRtfReader — the reader of `PWRTF.cpp`

`RtfReader` and `PW_LoadRTF`.  The position in the text is the text still to read: a function that moves `fPos` answers
what is left.  The fields are those of the class; `fText`, `fLen` and `fPos` are that argument.
-/
namespace Prose
namespace Writer

structure RtfState where
  bold : Bool := false
  italic : Bool := false
  underline : Bool := false
  size : Rat := 12
  font : Int := 0
  color : Int := 0
  align : PWAlignment := .left
  indentLeft : Rat := 0
  indentRight : Rat := 0
  indentFirst : Rat := 0
  lineSpacing : Rat := 1
  spaceBefore : Rat := 0
  spaceAfter : Rat := 0
  tabs : List Rat := []

structure RtfReader where
  fDoc : PWDocument
  fDepth : Nat := 0
  fState : RtfState := {}
  fStack : List RtfState := []
  fDefault : PWCharFormat
  fInFontTable : Bool := false
  fInColorTable : Bool := false
  fSeenAutoColor : Bool := false
  fFonts : SortedMap Int (List Byte) := SortedMap.empty
  fColors : List RgbColor := []
  fCurrentName : List Byte := []
  fPendingFont : Int := -1
  fPendingColor : RgbColor := ⟨0, 0, 0, 255⟩
  fTableDepth : Nat := 32000
  fSeenAlignForPara : List Nat := []

/-! ## What reaches the document -/

/-- A `char` array as a C string. -/
def cString : List UInt8 → List Byte
  | []      => []
  | b :: bs => if h : b ≠ 0 then ⟨b, h⟩ :: cString bs else []

/-- `strlcpy` into a `font_family`. -/
def toFamily (name : List Byte) : FontFamily := ⟨name.take 63, by rw [List.length_take]; omega⟩

/-- The format `Emit` gives the bytes. -/
def RtfReader.format (r : RtfReader) : PWCharFormat :=
  { family := match r.fFonts.get? r.fState.font with
      | some name => if name = [] then r.fDefault.family else toFamily name
      | none => r.fDefault.family
    size := if r.fState.size > 0 then r.fState.size else 12
    bold := r.fState.bold
    italic := r.fState.italic
    underline := r.fState.underline
    color := if r.fState.color ≥ 1 then r.fColors.getD (r.fState.color.toNat - 1) r.fDefault.color
      else r.fDefault.color }

def RtfReader.emit (r : RtfReader) (bytes : List UInt8) : RtfReader :=
  { r with fDoc := r.fDoc.insert (docLength r.fDoc.fParas) (cString bytes) (some r.format) }

/-- An `int` stored in a `char`. -/
def toChar (n : Int) : UInt8 := UInt8.ofNat (n % 256).toNat

def RtfReader.emitUnicode (r : RtfReader) (cp : Int) : RtfReader :=
  let cp := if cp < 0 then cp + 65536 else cp
  let n := cp.toNat
  r.emit (if cp < 0x80 then [toChar cp]
    else if cp < 0x800 then [UInt8.ofNat (0xC0 ||| n >>> 6), UInt8.ofNat (0x80 ||| n &&& 0x3F)]
    else [UInt8.ofNat (0xE0 ||| n >>> 12), UInt8.ofNat (0x80 ||| (n >>> 6) &&& 0x3F), UInt8.ofNat (0x80 ||| n &&& 0x3F)])

/-- The format `ApplyParaFormat` gives a paragraph that has `fmt`. -/
def RtfState.paraFormat (s : RtfState) (fmt : PWParaFormat) : PWParaFormat :=
  { fmt with
    alignment := s.align
    indentLeft := s.indentLeft
    indentRight := s.indentRight
    indentFirst := s.indentFirst
    lineSpacing := if s.lineSpacing > 0 then s.lineSpacing else 1
    spaceBefore := s.spaceBefore
    spaceAfter := s.spaceAfter
    tabs := s.tabs.map (fun x => ⟨x, .left⟩) }

def RtfReader.applyParaFormat (r : RtfReader) (para : Int) : RtfReader :=
  if para < 0 ∨ para ≥ r.fDoc.fParas.length then r
  else if para.toNat ∈ r.fSeenAlignForPara then r
  else
    { r with
      fDoc := r.fDoc.setParaFormat para.toNat (r.fState.paraFormat (paraAt r.fDoc.fParas para.toNat).format)
      fSeenAlignForPara := para.toNat :: r.fSeenAlignForPara }

def RtfReader.endParagraph (r : RtfReader) : RtfReader :=
  let r' := { r with fDoc := r.fDoc.insert (docLength r.fDoc.fParas) [newline] none }
  r'.applyParaFormat (r'.fDoc.fParas.length - 2)

/-! ## Tokens -/

def isAlpha (c : Byte) : Bool := (65 ≤ c.val && c.val ≤ 90) || (97 ≤ c.val && c.val ≤ 122)

def isDigit (c : Byte) : Bool := 48 ≤ c.val && c.val ≤ 57

/-- An `int32` computed out of range wraps. -/
def int32 (n : Int) : Int := n.bmod 4294967296

def digits (ds : List Byte) : Int := ds.foldl (fun param c => int32 (param * 10 + (c.val.toNat - 48))) 0

def readParam : List Byte → Option Int × List Byte
  | []     => (none, [])
  | c :: s =>
    if isDigit c then (some (digits ((c :: s).takeWhile isDigit)), (c :: s).dropWhile isDigit)
    else if c = ascii '-' then (some (int32 (-digits (s.takeWhile isDigit))), s.dropWhile isDigit)
    else (none, c :: s)

def skipSpace : List Byte → List Byte
  | []     => []
  | c :: s => if c = ascii ' ' then s else c :: s

/-- The value of a digit of `Hex2`, which shifts in nothing for a character that is none. -/
def hexValue (c : Byte) : Nat :=
  if 48 ≤ c.val ∧ c.val ≤ 57 then c.val.toNat - 48
  else if 97 ≤ c.val ∧ c.val ≤ 102 then c.val.toNat - 97 + 10
  else if 65 ≤ c.val ∧ c.val ≤ 70 then c.val.toNat - 65 + 10
  else 0

def hex2 : List Byte → UInt8 × List Byte
  | []          => (0, [])
  | [c]         => (UInt8.ofNat (hexValue c), [])
  | c :: c' :: s => (UInt8.ofNat (hexValue c * 16 + hexValue c'), s)

/-- `SkipGroup`.  The letters of a control word are skipped like any other character. -/
def skipGroup : Nat → List Byte → List Byte
  | _, []         => []
  | depth, c :: s =>
    if c = ascii '\x7b' then skipGroup (depth + 1) s
    else if c = ascii '\x7d' then if depth = 0 then s else skipGroup (depth - 1) s
    else if c = ascii '\\' then
      match s with
      | []      => []
      | e :: s' =>
        if e = ascii '\'' then
          match s' with
          | _ :: _ :: s'' => skipGroup depth s''
          | _ => []
        else if e = ascii '\\' then skipGroup depth s'
        else skipGroup depth (e :: s')
    else skipGroup depth s

def isDestinationWord (w : List Byte) : Bool :=
  w ∈ ["fonttbl", "colortbl", "stylesheet", "info", "pict", "object", "footer", "header", "footnote", "listtable",
    "listoverridetable", "list", "generator", "bkmkstart", "bkmkend", "field", "shp", "shppict", "nonshppict", "panose",
    "fname", "falt", "themecolor"].map chars

/-! ## Control words -/

/-- The words that set the formatting state; an unknown one is ignored. -/
def RtfState.word (s : RtfState) (word : List Byte) (param : Option Int) : RtfState :=
  let on := param ≠ some 0
  let twips := (param.getD 0 : Rat) / 20
  if word = chars "b" then { s with bold := on }
  else if word = chars "i" then { s with italic := on }
  else if word = chars "ul" then { s with underline := on }
  else if word = chars "ulnone" then { s with underline := false }
  else if word = chars "fs" then { s with size := (param.map (fun p => (p : Rat) / 2)).getD 12 }
  else if word = chars "f" then { s with font := param.getD 0 }
  else if word = chars "cf" then { s with color := param.getD 0 }
  else if word = chars "ql" then { s with align := .left }
  else if word = chars "li" then { s with indentLeft := twips }
  else if word = chars "ri" then { s with indentRight := twips }
  else if word = chars "fi" then { s with indentFirst := twips }
  else if word = chars "sl" then { s with lineSpacing := (param.map (fun p => (p : Rat) / 240)).getD 1 }
  else if word = chars "sb" then { s with spaceBefore := twips }
  else if word = chars "sa" then { s with spaceAfter := twips }
  else if word = chars "tx" ∧ param.isSome then { s with tabs := s.tabs ++ [twips] }
  else if word = chars "qc" then { s with align := .center }
  else if word = chars "qr" then { s with align := .right }
  else if word = chars "qj" then { s with align := .justify }
  else if word = chars "plain" then
    { s with bold := false, italic := false, underline := false, size := 12, color := 0 }
  else s

def isBlank (c : Byte) : Bool := c = ascii ' ' || c = ascii '\t' || c = ascii '\r' || c = ascii '\n'

def trimmed (s : List Byte) : List Byte := ((s.dropWhile isBlank).reverse.dropWhile isBlank).reverse

def RtfReader.storeName (r : RtfReader) : RtfReader :=
  if r.fPendingFont ≥ 0 ∧ r.fCurrentName ≠ [] then
    { r with fFonts := r.fFonts.set r.fPendingFont (trimmed r.fCurrentName) }
  else r

def RtfReader.tableControl (r : RtfReader) (word : List Byte) (param : Option Int) : RtfReader :=
  match param with
  | none => r
  | some n =>
    if word = chars "f" ∧ r.fInFontTable then { r.storeName with fPendingFont := n, fCurrentName := [] }
    else if word = chars "red" then { r with fPendingColor := { r.fPendingColor with red := toChar n } }
    else if word = chars "green" then { r with fPendingColor := { r.fPendingColor with green := toChar n } }
    else if word = chars "blue" then { r with fPendingColor := { r.fPendingColor with blue := toChar n } }
    else r

/-- The substitute character behind `\u`. -/
def skipSubstitute : List Byte → List Byte
  | []     => []
  | c :: s =>
    if c = ascii '?' then s
    else if c = ascii '\\' ∧ s.head? = some (ascii '\'') then (c :: s).drop 3
    else c :: s

def RtfReader.inTable (r : RtfReader) : Bool := r.fInFontTable || r.fInColorTable

/-- The rest of `Control`, behind the word, its parameter and its space. -/
def RtfReader.controlWord (r : RtfReader) (starred : Bool) (word : List Byte) (param : Option Int) (s : List Byte) :
    RtfReader × List Byte :=
  if starred then (r, skipGroup 0 s)
  else if word = chars "fonttbl" then ({ r with fInFontTable := true, fTableDepth := r.fDepth }, s)
  else if word = chars "colortbl" then
    ({ r with fInColorTable := true, fSeenAutoColor := false, fTableDepth := r.fDepth }, s)
  else if r.inTable then (r.tableControl word param, s)
  else if isDestinationWord word then (r, skipGroup 0 s)
  else if word = chars "par" ∨ word = chars "line" then (r.endParagraph, s)
  else if word = chars "tab" then (r.emit [9], s)
  else match if word = chars "u" then param else none with
    | some cp => (r.emitUnicode cp, skipSubstitute s)
    | none => ({ r with fState := r.fState.word word param }, s)

def RtfReader.readWord (r : RtfReader) (starred : Bool) (s : List Byte) : RtfReader × List Byte :=
  let p := readParam (s.dropWhile isAlpha)
  r.controlWord starred (s.takeWhile isAlpha) p.1 (skipSpace p.2)

/-- `Control`, behind the backslash. -/
def RtfReader.control (r : RtfReader) : List Byte → RtfReader × List Byte
  | []     => (r, [])
  | c :: s =>
    if c = ascii '\\' ∨ c = ascii '\x7b' ∨ c = ascii '\x7d' then (r.emit [c.val], s)
    else if c = ascii '\'' then (r.emit [(hex2 s).1], (hex2 s).2)
    else if c = ascii '*' then if s = [] then (r, []) else r.readWord true s
    else r.readWord false (c :: s)

/-! ## The loop -/

def RtfReader.popState (r : RtfReader) : RtfReader :=
  match r.fStack with
  | []      => r
  | s :: ss => { r with fState := s, fStack := ss }

def RtfReader.closeGroup (r : RtfReader) : RtfReader :=
  let r := { r with fDepth := r.fDepth - 1 }.popState
  if r.fDepth < r.fTableDepth then { r with fInFontTable := false, fInColorTable := false, fTableDepth := 32000 } else r

def RtfReader.charInTable (r : RtfReader) (c : Byte) : RtfReader :=
  if c = ascii ';' then
    let r := if r.fInFontTable then r.storeName else r
    let r := if r.fInColorTable then
        if r.fSeenAutoColor then
          { r with fColors := r.fColors ++ [r.fPendingColor], fPendingColor := ⟨0, 0, 0, 255⟩ }
        else { r with fSeenAutoColor := true }
      else r
    { r with fCurrentName := [] }
  else if r.fInFontTable then { r with fCurrentName := r.fCurrentName ++ [c] }
  else r

/-- A turn of the loop of `Parse`. -/
def RtfReader.step (r : RtfReader) : List Byte → RtfReader × List Byte
  | []     => (r, [])
  | c :: s =>
    if c = ascii '\x7b' then ({ r with fDepth := r.fDepth + 1, fStack := r.fState :: r.fStack }, s)
    else if c = ascii '\x7d' then (r.closeGroup, s)
    else if c = ascii '\\' then r.control s
    else if c = ascii '\n' ∨ c = ascii '\r' then (r, s)
    else if r.inTable then (r.charInTable c, s)
    else (r.emit [c.val], s)

def RtfReader.inGroup (r : RtfReader) : Bool := 0 < r.fDepth

def RtfReader.loop (r : RtfReader) (s : List Byte) : RtfReader := Scan.run RtfReader.inGroup RtfReader.step r s

/-- `PW_LoadRTF`; a text that does not begin with a brace is an error. -/
def PWDocument.loadRTF (d : PWDocument) : List Byte → Option PWDocument
  | []     => none
  | c :: s =>
    if c = ascii '\x7b' then
      let r := RtfReader.loop { fDoc := d, fDefault := d.fDefault, fDepth := 1 } s
      some (r.applyParaFormat (r.fDoc.fParas.length - 1)).fDoc
    else none

end Writer
end Prose
