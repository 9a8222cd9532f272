import Mathlib.Data.Rat.Floor
import Prose.WriterCalls
/-!
# WriterRtf — the writer of `PWRTF.cpp`

`PW_WriteRTF` function by function: the font and colour tables, and the body, which writes of each run's format what
differs from the run before.
-/
namespace Prose
namespace Writer

def ascii (c : Char) : Byte := if h : UInt8.ofNat c.toNat ≠ 0 then ⟨UInt8.ofNat c.toNat, h⟩ else newline

def chars (s : String) : List Byte := s.toList.map ascii

/-- `"%d"`. -/
def decimal (n : Int) : List Byte := (if n < 0 then chars "-" else []) ++ chars (toString n.natAbs)

def hexDigit (n : Nat) : Byte := ascii (Nat.digitChar n)

/-- `(int)f`: cut towards zero, and at the ends of `int32`, as arm64 converts. -/
def toInt (q : Rat) : Int := max (-2147483648) (min 2147483647 (if q < 0 then -⌊-q⌋ else ⌊q⌋))

def escape (c : Byte) : List Byte :=
  if c = ascii '\\' then chars "\\\\"
  else if c = ascii '{' then chars "\\\x7b"
  else if c = ascii '}' then chars "\\\x7d"
  else if c = kCellSep then chars "\\tab "
  else if c.val < 128 then [c]
  else chars "\\'" ++ [hexDigit (c.val.toNat / 16), hexDigit (c.val.toNat % 16)]

def appendEscaped (text : List Byte) : List Byte := text.flatMap escape

/-! ## The tables -/

def PWDocument.resolve (d : PWDocument) (f : PWCharFormat) : PWCharFormat :=
  { f with family := if f.family.val = [] then d.fDefault.family else f.family }

def PWDocument.allRuns (d : PWDocument) : List PWRun := d.fParas.flatMap (·.runs)

/-- `fontNames`; `fontIndex` of a family is its place here. -/
def PWDocument.fontNames (d : PWDocument) : List FontFamily :=
  d.allRuns.foldl (fun names r =>
    if (d.resolve r.format).family ∈ names then names else names ++ [(d.resolve r.format).family]) [d.fDefault.family]

def fontEntries : Nat → List FontFamily → List Byte
  | _, []          => []
  | i, name :: names =>
    chars "\x7b\\f" ++ decimal i ++ chars " " ++ name.val ++ chars ";\x7d" ++ fontEntries (i + 1) names

def sameRgb (a b : RgbColor) : Bool := a.red = b.red && a.green = b.green && a.blue = b.blue

def RgbColor.isBlack (c : RgbColor) : Bool := c.red = 0 && c.green = 0 && c.blue = 0

def addColor (colors : List RgbColor) (c : RgbColor) : List RgbColor :=
  if c.isBlack then colors else if colors.any (sameRgb · c) then colors else colors ++ [c]

def PWDocument.colors (d : PWDocument) : List RgbColor := d.allRuns.foldl (fun cs r => addColor cs r.format.color) []

def colorEntry (c : RgbColor) : List Byte :=
  chars "\\red" ++ decimal c.red.toNat ++ chars "\\green" ++ decimal c.green.toNat ++ chars "\\blue" ++
    decimal c.blue.toNat ++ chars ";"

def colorNumber (colors : List RgbColor) (c : RgbColor) : Nat :=
  if c.isBlack then 0
  else match colors.findIdx? (sameRgb · c) with
    | some i => i + 1
    | none => 0

/-! ## The body -/

def writeAlignment : PWAlignment → List Byte
  | .center  => chars "\\qc "
  | .right   => chars "\\qr "
  | .justify => chars "\\qj "
  | _        => chars "\\ql "

def writeTwips (word : List Byte) (x : Rat) : List Byte := word ++ decimal (toInt (x * 20 + 1 / 2)) ++ chars " "

def writeParaFormat (fmt : PWParaFormat) : List Byte :=
  writeAlignment fmt.alignment ++
    (if fmt.indentLeft ≠ 0 then writeTwips (chars "\\li") fmt.indentLeft else []) ++
    (if fmt.indentRight ≠ 0 then writeTwips (chars "\\ri") fmt.indentRight else []) ++
    (if fmt.indentFirst ≠ 0 then writeTwips (chars "\\fi") fmt.indentFirst else []) ++
    (if fmt.lineSpacing ≠ 1 then chars "\\sl" ++ decimal (toInt (fmt.lineSpacing * 240 + 1 / 2)) ++ chars " "
      else []) ++
    (if fmt.spaceBefore ≠ 0 then writeTwips (chars "\\sb") fmt.spaceBefore else []) ++
    (if fmt.spaceAfter ≠ 0 then writeTwips (chars "\\sa") fmt.spaceAfter else []) ++
    fmt.tabs.flatMap (fun tab => writeTwips (chars "\\tx") tab.x)

/-- `while (ri + 1 < runs.size() && at >= runs[ri].start + runs[ri].length) ri++`. -/
def advance (at' : Nat) : List PWRun → List PWRun
  | r :: r' :: rs => if r.rEnd ≤ at' then advance at' (r' :: rs) else r :: r' :: rs
  | rs => rs

/-- The pieces the body loop cuts a text into, with the format of the run each is written under. -/
def segments (text : List Byte) : Nat → Nat → List PWRun → List (PWCharFormat × List Byte)
  | 0, _, _ => []
  | fuel + 1, at', runs =>
    if at' < text.length then
      match advance at' runs with
      | [] => []
      | r :: rs =>
        let segEnd := if min r.rEnd text.length ≤ at' then at' + 1 else (min r.rEnd text.length).toNat
        (r.format, (text.drop at').take (segEnd - at')) :: segments text fuel segEnd (r :: rs)
    else []

def Para.segments (p : Para) : List (PWCharFormat × List Byte) := Writer.segments p.text p.text.length 0 p.runs

def writeCharFormat (names : List FontFamily) (colors : List RgbColor) (prev f : PWCharFormat) : List Byte :=
  (if prev.family ≠ f.family then chars "\\f" ++ decimal (names.idxOf f.family) ++ chars " " else []) ++
    (if prev.bold ≠ f.bold then chars (if f.bold then "\\b " else "\\b0 ") else []) ++
    (if prev.italic ≠ f.italic then chars (if f.italic then "\\i " else "\\i0 ") else []) ++
    (if prev.underline ≠ f.underline then chars (if f.underline then "\\ul " else "\\ulnone ") else []) ++
    (if prev.size ≠ f.size then chars "\\fs" ++ decimal (toInt (f.size * 2 + 1 / 2)) ++ chars " " else []) ++
    (if sameRgb f.color prev.color then [] else chars "\\cf" ++ decimal (colorNumber colors f.color) ++ chars " ")

def writeSegments (d : PWDocument) : PWCharFormat → List (PWCharFormat × List Byte) → List Byte
  | _, []                  => []
  | prev, (f, piece) :: segs =>
    writeCharFormat d.fontNames d.colors prev (d.resolve f) ++ appendEscaped piece ++ writeSegments d (d.resolve f) segs

/-- `prev` behind the pieces. -/
def prevBehind (d : PWDocument) : PWCharFormat → List (PWCharFormat × List Byte) → PWCharFormat
  | prev, []        => prev
  | _, (f, _) :: segs => prevBehind d (d.resolve f) segs

def writeParas (d : PWDocument) : PWCharFormat → List Para → List Byte
  | _, []       => []
  | prev, p :: ps =>
    writeParaFormat p.format ++ writeSegments d prev p.segments ++ (if p.text = [] then chars " " else []) ++
      (if ps = [] then [] else chars "\\par\n") ++ writeParas d (prevBehind d prev p.segments) ps

def PWDocument.writeRTF (d : PWDocument) : List Byte :=
  chars "\x7b\\rtf1\\ansi\\deff0\n" ++
    (chars "\x7b\\fonttbl" ++ fontEntries 0 d.fontNames ++ chars "\x7d\n") ++
    (chars "\x7b\\colortbl;" ++ d.colors.flatMap colorEntry ++ chars "\x7d\n") ++
    writeParas d { d.fDefault with bold := false, italic := false, underline := false } d.fParas ++ chars "\x7d\n"

end Writer
end Prose
